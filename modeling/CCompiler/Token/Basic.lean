import CCompiler.Decimal.Double
import CCompiler.Diagnostic
import CCompiler.Text.Quoted
import CCompiler.Token.HideSet

/-
  This file defines tokens: a spelling at a place of a source
  file, its kind with the value of a literal, and what the
  preprocessor has to remember about it.

  Every list of tokens that the stages pass on ends with a
  token of kind `eof`, which keeps the place of the end.

  Key definitions include:
    * `LitType`
    * `TokenKind`
    * `Token`
    * `Token.is`
    * `Token.place`
    * `Token.joinText`
-/

namespace CCompiler

------------
-- Literal types
------------

/- The type of a number, or of the elements of a string. -/
inductive LitType
| none
| char
| ushort
| int
| uint
| long
| ulong
| float
| double
| ldouble
deriving DecidableEq, Repr, Inhabited

namespace LitType

/- All literal types, in the order of their numbers. -/
def all : List LitType :=
  [.none, .char, .ushort, .int, .uint, .long, .ulong, .float, .double, .ldouble]

/- The name of a literal type. -/
def name : LitType → String
| .none => "none"
| .char => "char"
| .ushort => "ushort"
| .int => "int"
| .uint => "uint"
| .long => "long"
| .ulong => "ulong"
| .float => "float"
| .double => "double"
| .ldouble => "ldouble"

/- The size of one value in bytes. -/
def size : LitType → Nat
| .none => 0
| .char => 1
| .ushort => 2
| .int | .uint | .float => 4
| .long | .ulong | .double => 8
| .ldouble => 16

/- Whether the type is a floating one. -/
def isFloat : LitType → Bool
| .float | .double | .ldouble => true
| _ => false

end LitType

------------
-- Kinds
------------

/-
  What a token is.  A string holds the bytes of its elements
  with the terminator; a number is an integer or a floating
  value.
-/
inductive TokenKind
| ident
| punct
| keyword
| str (elem : LitType) (bytes : Bytes)
| int (type : LitType) (value : Int64)
| float (type : LitType) (value : Double)
| ppNum
| eof
deriving DecidableEq, Repr, Inhabited

namespace TokenKind

/- The names of the kinds, in the order of their numbers. -/
def names : List String :=
  ["Ident", "Punct", "Keyword", "Str", "Num", "PPNum", "EOF"]

/- The name of a kind. -/
def name : TokenKind → String
| .ident => "Ident"
| .punct => "Punct"
| .keyword => "Keyword"
| .str _ _ => "Str"
| .int _ _ => "Num"
| .float _ _ => "Num"
| .ppNum => "PPNum"
| .eof => "EOF"

/- Whether the kind is that of a string. -/
def isStr : TokenKind → Bool
| .str _ _ => true
| _ => false

/- Whether the kind is that of a number. -/
def isNum : TokenKind → Bool
| .int _ _ | .float _ _ => true
| _ => false

end TokenKind

------------
-- Tokens
------------

/-
  The macro call that a token was made from: the spelling of
  its name, and the place in the source text where the whole
  chain of calls started.
-/
structure Origin where
  text : Bytes
  file : SourceFile
  line : Int
deriving DecidableEq, Repr, Inhabited

/- A spelling with the blanks before it. -/
structure Spelling where
  text : Bytes
  atLineStart : Bool
  spaced : Bool
deriving DecidableEq, Repr, Inhabited

/-
  A token.  `filename` and `lineDelta` hold what line
  directives say about its place; `joined` holds the literals
  that were merged into a string.
-/
structure Token where
  kind : TokenKind
  text : Bytes
  offset : Nat
  file : SourceFile
  filename : Bytes
  line : Int
  lineDelta : Int := 0
  atLineStart : Bool := false
  spaced : Bool := false
  hidden : HideSet := []
  origin? : Option Origin := none
  joined : List Spelling := []
deriving DecidableEq, Repr, Inhabited

namespace Token

/- Whether a token other than a string has the given spelling. -/
def is (t : Token) (s : String) : Bool :=
  !t.kind.isStr && t.text == ascii s

/- Whether a token other than a string has the given spelling. -/
def isText (t : Token) (s : Bytes) : Bool :=
  !t.kind.isStr && t.text == s

/- Whether a token is an identifier. -/
def isIdent (t : Token) : Bool :=
  t.kind == .ident

/- Whether a token ends its list. -/
def isEof (t : Token) : Bool :=
  t.kind == .eof

/- The number of elements of a string, with the terminator. -/
def stringLength (t : Token) : Nat :=
  match t.kind with
  | .str elem bytes => bytes.length / elem.size
  | _ => 0

/- The end of a list at the place of a token. -/
def toEof (t : Token) : Token :=
  { t with kind := .eof, text := [] }

/- The place of a token in a file that is shown under a name of its own. -/
def placeAs (t : Token) (shownName : Bytes) : Place :=
  let name := if t.filename.isEmpty then shownName else t.filename
  Place.inFile t.file name t.line t.offset (max 1 t.text.length)

/- The place of a token. -/
def place (t : Token) : Place :=
  t.placeAs []

/- The column of a token in its line. -/
def column (t : Token) : Nat :=
  (t.file.position t.offset).column

/- The place in the source text that a token stems from. -/
def root (t : Token) : Origin :=
  match t.origin? with
  | some o => o
  | none => ⟨t.text, t.file, t.line⟩

/- A token without the numbers that tell the texts of a run apart. -/
def detached (t : Token) : Token :=
  { t with
    file := { t.file with id := 0, number := 0 }
    origin? := t.origin?.map fun o => { o with file := { o.file with id := 0, number := 0 } } }

/- A token in a few words. -/
def describe (t : Token) : Bytes :=
  match t.kind with
  | .eof => ascii "EOF"
  | .str _ _ => ascii "Str " ++ t.text
  | k => ascii k.name ++ ascii " " ++ Quoted.quote t.text

/-
  The spellings of tokens up to the end of their list, with a
  space wherever there were blanks between two of them.
-/
def joinText (ts : List Token) : Bytes :=
  match ts.takeWhile (!·.isEof) with
  | [] => []
  | first :: rest =>
    first.text ++ rest.flatMap fun t => if t.spaced then Bytes.of ' ' :: t.text else t.text

end Token

end CCompiler
