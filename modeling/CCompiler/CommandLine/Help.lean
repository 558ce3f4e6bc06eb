import CCompiler.CommandLine.Flag
import CCompiler.Text.Words

/-
  This file lays out the help page of a program: its synopsis
  and description, the options in two columns with their
  defaults, and the families of switches.

  Key definitions include:
    * `Indentation`
    * `App`
    * `App.usagePage`
    * `App.helpPage`
-/

namespace CCompiler

------------
-- Indentation
------------

/- A stack of indentation levels, of which the last one is never left. -/
structure Indentation where
  outer : List UInt8 := []
  level : UInt8 := 0

namespace Indentation

/- One level deeper. -/
def push (i : Indentation) : Indentation :=
  ⟨i.level :: i.outer, i.level + 1⟩

/- Back to the level before. -/
def pop (i : Indentation) : Indentation :=
  match i.outer with
  | [] => i
  | l :: rest => ⟨rest, l⟩

/- The blanks of a level. -/
def atLevel (level : Nat) : Bytes :=
  List.replicate (4 * level) (Bytes.of ' ')

/- The blanks of the present level. -/
def current (i : Indentation) : Bytes :=
  atLevel i.level.toNat

end Indentation

------------
-- Programs
------------

/- What a program says about itself. -/
structure App where
  name : Bytes
  synopsis : Bytes := []
  description : Bytes := []
  authors : List Bytes := []
  repository : Bytes := []
  since : Nat := 0
  flags : FlagSet := {}

namespace Help

/- The width of a page. -/
def pageWidth : Nat := 80

/- A flag with its dashes and the kind of value it takes. -/
def flagText (f : Flag) : Bytes :=
  let dashes :=
    if f.name.contains (Bytes.of '-') || f.name == ascii "help" then ascii "--" else ascii "-"
  if f.isSwitch || f.expected.isEmpty then dashes ++ f.name
  else if f.name.length ≤ 2 then
    ascii "-" ++ f.name ++ ascii " <" ++ f.expected ++ ascii ">"
  else dashes ++ f.name ++ ascii "=<" ++ f.expected ++ ascii ">"

/- The widths of the two columns of a page. -/
structure Columns where
  left : Nat
  usage : Nat

/- An entry of a page: a name, what it does, and a mark at the right. -/
def entry (cols : Columns) (left usage right : Bytes) : Bytes :=
  let indent := Indentation.atLevel 2
  let room : Int := pageWidth - (indent.length + cols.left + 1 + 2 + right.length : Nat)
  let room := if room < 10 then 10 else room
  let lines := Words.wrap room usage
  let first := lines.headD []
  let head :=
    if right.isEmpty then indent ++ Words.padRight cols.left left ++ ascii " " ++ first
    else
      indent ++ Words.padRight cols.left left ++ ascii " " ++
        Words.padRight (min cols.usage room.toNat) first ++ ascii "  " ++ right
  let more := lines.tail.flatMap fun l =>
    indent ++ List.replicate (cols.left + 1) (Bytes.of ' ') ++ l ++ ascii "\n"
  head ++ ascii "\n" ++ more

/- The letters of a family with the form of its switches. -/
def groupForm (g : FlagGroup) (negation : String) : Bytes :=
  ascii "-" ++ g.letters ++ ascii negation ++ ascii "<" ++ g.noun ++ ascii ">"

/- A family of switches on a page. -/
def group (cols : Columns) (g : FlagGroup) : Bytes :=
  let indent1 := Indentation.atLevel 1
  let indent2 := Indentation.atLevel 2
  let line (form : Bytes) (verb : String) : Bytes :=
    indent2 ++ Words.padRight cols.left form ++ ascii " " ++ ascii verb ++
      ascii " a specific " ++ g.noun ++ ascii "\n"
  let header := if g.header.isEmpty then [] else indent1 ++ g.header ++ ascii "\n"
  let sorted := g.entries.mergeSort fun a b => !b.name.lt a.name
  ascii "\n" ++ indent1 ++ g.title ++ ascii "\n" ++
    line (groupForm g "") "Enable" ++ line (groupForm g "no-") "Disable" ++ header ++
    sorted.flatMap fun e =>
      entry cols e.name e.usage (if e.enabled then ascii "|x|" else ascii "|-|")

end Help

namespace App

/- The flags of the help page, in the order of their names without regard to case. -/
def shownFlags (a : App) : List Flag :=
  let key (f : Flag) : Bytes := f.name.map Bytes.lower
  (a.flags.flags.filter (!·.isHidden)).mergeSort fun f g => !(key g).lt (key f)

/- The column widths that hold every entry. -/
def columns (a : App) (shown : List Flag) : Help.Columns :=
  let entries := a.flags.groups.flatMap (·.entries)
  let lefts :=
    shown.map (fun f => (Help.flagText f).length) ++
      a.flags.groups.map (fun g => (Help.groupForm g "no-").length) ++
      entries.map (fun e => e.name.length)
  let usages := shown.map (fun f => f.usage.length) ++ entries.map (fun e => e.usage.length)
  ⟨lefts.foldl max 0, usages.foldl max 0⟩

/- The two lines after a refused argument. -/
def usagePage (a : App) : Bytes :=
  ascii "Usage: " ++ a.name ++ ascii " " ++ a.synopsis ++ ascii "\nRun '" ++ a.name ++
    ascii " --help' for all available options and flags.\n"

/- The help page, printed in a given year. -/
def helpPage (a : App) (year : Nat) : Bytes :=
  let indent1 := Indentation.atLevel 1
  let indent2 := Indentation.atLevel 2
  let shown := a.shownFlags
  let cols := a.columns shown
  let years :=
    if a.since != 0 && a.since < year then
      Bytes.ofNat a.since ++ ascii "-" ++ Bytes.ofNat year
    else Bytes.ofNat year
  let about :=
    ascii "\n" ++ indent1 ++ ascii "Copyright (c) " ++ years ++ ascii ": " ++
      Bytes.join (ascii ", ") a.authors ++ ascii " and contributors\n"
  let repository :=
    if a.repository.isEmpty then []
    else indent1 ++ ascii "For more details refer to " ++ a.repository ++ ascii "\n"
  let synopsis :=
    if a.synopsis.isEmpty then []
    else
      ascii "\n" ++ indent1 ++ ascii "Synopsis\n" ++ indent2 ++ a.name ++ ascii " " ++
        a.synopsis ++ ascii "\n"
  let description :=
    if a.description.isEmpty then []
    else
      let lines := Words.wrap (Help.pageWidth - indent2.length : Nat) a.description
      ascii "\n" ++ indent1 ++ ascii "Description\n" ++
        lines.flatMap fun l => indent2 ++ l ++ ascii "\n"
  let options :=
    if shown.isEmpty then []
    else
      ascii "\n" ++ indent1 ++ ascii "Options\n" ++
        shown.flatMap fun f =>
          let right :=
            if f.defaultText.isEmpty || f.isSwitch then []
            else ascii "|" ++ f.defaultText ++ ascii "|"
          Help.entry cols (Help.flagText f) f.usage right
  let groups := a.flags.groups.mergeSort fun g h => !h.title.lt g.title
  about ++ repository ++ synopsis ++ description ++ options ++ groups.flatMap (Help.group cols)

/- The switch that asks for the help page. -/
def helpFlag : Flag :=
  { name := ascii "help"
    usage := ascii "Display this information"
    value := .switch false
    defaultText := ascii "false" }

/-
  What a program does with its arguments: it was refused them,
  asked for help, or is to run.
-/
inductive Start
| refused (fault : FlagFault) (errorText : Bytes)
| help (page : Bytes)
| ready

/- Read the arguments of a program. -/
def start
    (a : App)
    (year : Nat)
    (reject? : Bytes → Bytes → Option Bytes)
    (args : List Bytes) : Except RegisterFault (FlagSet.Parsed × Start) := do
  let flags ← a.flags.add helpFlag
  let a := { a with flags := flags }
  let parsed := flags.parse reject? args
  match parsed.fault? with
  | some e =>
    return (parsed, .refused e (a.name ++ ascii ": " ++ e.message ++ ascii "\n" ++ a.usagePage))
  | none =>
    let asked : Option FlagValue := (parsed.flags.lookup? (ascii "help")).map (·.value)
    match asked with
    | some (.switch true) => return (parsed, .help (a.helpPage year))
    | _ => return (parsed, .ready)

end App

end CCompiler
