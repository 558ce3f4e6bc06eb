import CCompiler.Text.Bytes

/-
  This file defines the settings of a compilation: language
  features, warning groups, the target, and the directories
  searched for headers.

  Key definitions include:
    * `Feature`, `Warning`
    * `Config`
    * `ConfigFault`, `ConfigFault.message`
    * `Config.applyFlag`, `Config.applyStandard`, `Config.setTarget`
-/

namespace CCompiler

------------
-- Features and warning groups
------------

/- What `-f` switches control. -/
inductive Feature
| common
| pic
| dollarIdents
deriving DecidableEq, Repr

namespace Feature

/- All features, in the order of their numbers. -/
def all : List Feature :=
  [.common, .pic, .dollarIdents]

/- The name of a feature on the command line. -/
def name : Feature → Bytes
| .common => ascii "common"
| .pic => ascii "pic"
| .dollarIdents => ascii "dollars-in-identifiers"

/- The line of a feature on the help page. -/
def description : Feature → Bytes
| .common => ascii "Emit uninitialized globals as common symbols."
| .pic => ascii "Generate position-independent code."
| .dollarIdents => ascii "Allow '$' in identifiers."

/- The feature of a name. -/
def ofName? (s : Bytes) : Option Feature :=
  all.find? fun f => f.name == s

end Feature

/- What `-W` switches control. -/
inductive Warning
| extraTokens
| unknownPragmas
| macroRedefined
| pedantic
deriving DecidableEq, Repr

namespace Warning

/- All warning groups, in the order of their numbers. -/
def all : List Warning :=
  [.extraTokens, .unknownPragmas, .macroRedefined, .pedantic]

/- The name of a warning group on the command line. -/
def name : Warning → Bytes
| .extraTokens => ascii "extra-tokens"
| .unknownPragmas => ascii "unknown-pragmas"
| .macroRedefined => ascii "macro-redefined"
| .pedantic => ascii "pedantic"

/- The line of a warning group on the help page. -/
def description : Warning → Bytes
| .extraTokens => ascii "Warn about extra tokens at the end of a preprocessor directive."
| .unknownPragmas => ascii "Warn about #pragma directives that are ignored."
| .macroRedefined => ascii "Warn when a macro is redefined with a different body."
| .pedantic => ascii "Issue all warnings demanded by strict ISO C."

/- The warning group of a name. -/
def ofName? (s : Bytes) : Option Warning :=
  all.find? fun w => w.name == s

end Warning

------------
-- Settings
------------

/-
  The settings of a compilation.  Headers are searched in
  `includePaths`, then among the built-in ones, then in
  `systemPaths` and `afterPaths`.
-/
structure Config where
  features : List Feature := [.common, .dollarIdents]
  warnings : List Warning := [.extraTokens]
  standard : Bytes := ascii "c11"
  target : Bytes := ascii "amd64_sysv"
  targetArch : Bytes := ascii "amd64"
  wordSize : Nat := 8
  stackAlignment : Nat := 16
  includePaths : List Bytes := []
  systemPaths : List Bytes :=
    [ascii "/usr/local/include", ascii "/usr/include/x86_64-linux-gnu", ascii "/usr/include"]
  afterPaths : List Bytes := []
  verbose : Bool := false

/- Why a setting was refused. -/
inductive ConfigFault
| unsupportedTarget (target : Bytes)
| unsupportedStandard (name : Bytes)
| unrecognizedFlag (flag : Bytes)
| unknownWarning (flag : Bytes)
| unknownFeature (flag : Bytes)
deriving DecidableEq, Repr

/- The wording of a refusal. -/
def ConfigFault.message : ConfigFault → Bytes
| .unsupportedTarget t =>
  ascii "unsupported target '" ++ t ++
    ascii "': only amd64_sysv (x86-64 System V) code generation is implemented"
| .unsupportedStandard s =>
  ascii "unsupported standard '" ++ s ++
    ascii "'. Supported: c99, c11, c17 and their gnu variants"
| .unrecognizedFlag f => ascii "unrecognized flag '" ++ f ++ ascii "'"
| .unknownWarning f => ascii "unknown warning option '" ++ f ++ ascii "'"
| .unknownFeature f => ascii "unknown feature option '" ++ f ++ ascii "'"

namespace Config

/- Whether a feature is on. -/
def hasFeature (c : Config) (f : Feature) : Bool :=
  c.features.contains f

/- Whether a warning group is on. -/
def hasWarning (c : Config) (w : Warning) : Bool :=
  c.warnings.contains w

/- Switch a feature. -/
def setFeature (c : Config) (f : Feature) (on : Bool) : Config :=
  let others := c.features.filter (· != f)
  { c with features := if on then f :: others else others }

/- Switch a warning group. -/
def setWarning (c : Config) (w : Warning) (on : Bool) : Config :=
  let others := c.warnings.filter (· != w)
  { c with warnings := if on then w :: others else others }

/- A line of progress output. -/
def infoLine (text : Bytes) : Bytes :=
  ascii "chibicc: info: " ++ text ++ ascii "\n"

/- The target of a host. -/
def hostTarget (os arch : Bytes) : Bytes :=
  if os == ascii "darwin" && arch == ascii "amd64" then ascii "amd64_apple"
  else if os == ascii "darwin" && arch == ascii "arm64" then ascii "arm64_apple"
  else if (os == ascii "freebsd" || os == ascii "linux") && arch == ascii "arm64" then
    ascii "arm64"
  else if os == ascii "linux" && arch == ascii "riscv64" then ascii "rv64"
  else ascii "amd64_sysv"

/- What selecting a target gives: the settings, progress output, and a refusal if any. -/
structure TargetChoice where
  config : Config
  log : Bytes
  fault? : Option ConfigFault

/-
  Select the target; an empty one means the host's.  The
  architecture is recorded even if the target is refused.
-/
def setTarget (c : Config) (os arch target : Bytes) : TargetChoice :=
  let chosen := if target.isEmpty then hostTarget os arch else target
  let log :=
    if target.isEmpty && c.verbose then
      infoLine (ascii "no target specified, defaulting to host target '" ++ chosen ++ ascii "'")
    else []
  let c := { c with targetArch := arch }
  let known := [ascii "amd64_sysv", ascii "x86_64", ascii "x86_64-linux-gnu"]
  if known.contains chosen then
    ⟨{ c with target := ascii "amd64_sysv", wordSize := 8, stackAlignment := 16 }, log, none⟩
  else ⟨c, log, some (.unsupportedTarget chosen)⟩

/- The accepted language standards. -/
def standards : List Bytes :=
  ["c11", "gnu11", "c99", "gnu99", "c17", "gnu17", "c18"].map ascii

/- Record the language standard; a strict one asks for pedantic warnings. -/
def applyStandard (c : Config) (name : Bytes) : Except ConfigFault Config :=
  if standards.contains name then
    let c := { c with standard := name }
    .ok (if name.startsWith (ascii "c") then c.setWarning .pedantic true else c)
  else .error (.unsupportedStandard name)

/- A switch name without its negation, and whether it turns things on. -/
def polarity (name : Bytes) : Bool × Bytes :=
  match Bytes.dropPrefix? (ascii "no-") name with
  | some rest => (false, rest)
  | none => (true, name)

/- Switch a warning group by its name; `all` stands for every group but the pedantic one. -/
def applyWarning (c : Config) (flag name : Bytes) : Except ConfigFault Config :=
  let (on, name) := polarity name
  if name == ascii "all" then
    .ok ((Warning.all.filter (· != .pedantic)).foldl (fun c w => c.setWarning w on) c)
  else
    match Warning.ofName? name with
    | some w => .ok (c.setWarning w on)
    | none => .error (.unknownWarning flag)

/- Switch a feature by its name; `pic` and `pie` are accepted in any case. -/
def applyFeature (c : Config) (flag name : Bytes) : Except ConfigFault Config :=
  let (on, name) := polarity name
  match Feature.ofName? name with
  | some f => .ok (c.setFeature f on)
  | none =>
    let low := name.map Bytes.lower
    if low == ascii "pic" || low == ascii "pie" then .ok (c.setFeature .pic on)
    else .error (.unknownFeature flag)

/- Apply a `-W`, `-Wno-`, `-f` or `-fno-` switch. -/
def applyFlag (c : Config) (flag : Bytes) : Except ConfigFault Config :=
  match (Bytes.dropPrefix? (ascii "-") flag).getD flag with
  | b :: name =>
    if b == Bytes.of 'W' then c.applyWarning flag name
    else if b == Bytes.of 'f' then c.applyFeature flag name
    else .error (.unrecognizedFlag flag)
  | [] => .error (.unrecognizedFlag flag)

end Config

end CCompiler
