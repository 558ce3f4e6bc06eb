import CCompiler.CommandLine.Command
import Std.Time.DateTime

/-
  This file runs the compiler on the files of the machine.
  The files that a run depends on are not known before it, so
  it is repeated with what it asked for until nothing new is
  asked; only then is anything printed or written.

  Key definitions include:
    * `Machine.fetch`
    * `Machine.settle`
    * `main`
-/

namespace CCompiler

namespace Machine

/- What a path leads to, if anything. -/
def readEntry (path : Bytes) : IO (Option FileEntry) := do
  try
    let contents ← IO.FS.readBinFile path.toText
    return some (.file contents.toList)
  catch e =>
    match e with
    | .inappropriateType .. => return some .directory
    | _ => return none

/- Learn about every place on the way that a path leads. -/
partial def fetch (path : Bytes) (s : FileStore) : IO FileStore := do
  match s.unknown? path with
  | none => return s
  | some place =>
    match ← readEntry place.path with
    | some e => fetch path (s.put place e)
    | none => return s

/- All of the standard input. -/
partial def readAll (input : IO.FS.Stream) (read : Bytes) : IO Bytes := do
  let chunk ← input.read 65536
  if chunk.isEmpty then return read else readAll input (read ++ chunk.toList)

/- Give a run one more thing that it asked for. -/
def supply (w : World) (path : Bytes) : IO World := do
  if path == ascii "-" then
    return { w with stdin := ← readAll (← IO.getStdin) [] }
  else
    return { w with store := ← fetch path w.store }

/- Repeat a run until it asks for nothing new. -/
partial def settle (year : Nat) (args known : List Bytes) (w : World) : IO (World × Nat × World) := do
  let (code, after) := Command.run year args w
  let new := (after.asked.filter (!known.contains ·)).eraseDups
  if new.isEmpty then return (w, code, after)
  else settle year args (known ++ new) (← new.foldlM supply w)

/- The present year. -/
def thisYear : IO Nat := do
  let now ← Std.Time.Timestamp.now
  return (Std.Time.PlainDate.ofEpochDay now.toDaysSinceUnixEpoch).year.toInt.toNat

/- Write bytes to a stream. -/
def put (out : IO.FS.Stream) (text : Bytes) : IO Unit := do
  out.write (ByteArray.mk text.toArray)
  out.flush

end Machine

end CCompiler

open CCompiler in
/- Run the compiler. -/
def main (args : List String) : IO UInt32 := do
  let (before, code, after) ← Machine.settle (← Machine.thisYear) (args.map ascii) [] {}
  for (path, contents) in after.store.changes before.store do
    IO.FS.writeBinFile path.toText (ByteArray.mk contents.toArray)
  Machine.put (← IO.getStdout) after.stdout
  Machine.put (← IO.getStderr) after.stderr
  return UInt32.ofNat code
