import CCompiler.Assembly.Instr
import CCompiler.Text.Quoted

/-
  This file defines the spelling of assembly text.  Labels
  start a line; everything else stands after two blanks.

  Key definitions include:
    * `Instr.text`
    * `Directive.text`
    * `Line.text`
    * `render`
-/

namespace CCompiler

namespace Assembly

------------
-- Names of operations
------------

/- The letters of a condition. -/
def Cond.text : Cond → String
| .equal => "e"
| .notEqual => "ne"
| .below => "b"
| .belowOrEqual => "be"
| .above => "a"
| .aboveOrEqual => "ae"
| .less => "l"
| .lessOrEqual => "le"
| .sign => "s"
| .noSign => "ns"
| .parity => "p"
| .noParity => "np"

/- The name of an operation on two operands. -/
def AluOp.text : AluOp → String
| .add => "add"
| .sub => "sub"
| .imul => "imul"
| .and => "and"
| .or => "or"
| .xor => "xor"
| .cmp => "cmp"
| .test => "test"

/- The name of a shift. -/
def ShiftOp.text : ShiftOp → String
| .left => "shl"
| .right => "shr"
| .arithmeticRight => "sar"

/- The name of an operation on one operand. -/
def UnaryOp.text : UnaryOp → String
| .neg => "neg"
| .not => "not"
| .inc => "inc"
| .dec => "dec"
| .div => "div"
| .idiv => "idiv"

/- The name of a widening move. -/
def Extension.text : Extension → String
| .signByte => "movsbl"
| .zeroByte => "movzbl"
| .signWord => "movswl"
| .zeroWord => "movzwl"
| .signLong => "movsxd"
| .zeroByteAny => "movzx"
| .zeroByteQuad => "movzb"

/- The letters of a precision on one value. -/
def Precision.scalar : Precision → String
| .single => "ss"
| .double => "sd"

/- The letters of a precision on whole registers. -/
def Precision.packed : Precision → String
| .single => "ps"
| .double => "pd"

/- The name of an operation on vector registers. -/
def SseOp.text : SseOp → String
| .move p => "mov" ++ p.scalar
| .add p => "add" ++ p.scalar
| .sub p => "sub" ++ p.scalar
| .mul p => "mul" ++ p.scalar
| .div p => "div" ++ p.scalar
| .compare p => "ucomi" ++ p.scalar
| .xor p => "xor" ++ p.packed
| .clear => "pxor"
| .ofInt w p => "cvtsi2" ++ p.scalar ++ w.letter
| .toInt p w => "cvtt" ++ p.scalar ++ "2si" ++ w.letter
| .widen => "cvtss2sd"
| .narrow => "cvtsd2ss"

/- An operation on the stack of extended values. -/
def X87Op.text : X87Op → String
| .negate => "fchs"
| .addPop => "faddp"
| .subPop => "fsubrp"
| .mulPop => "fmulp"
| .divPop => "fdivrp"
| .comparePop => "fcomip"
| .zero => "fldz"
| .compareZeroPop => "fucomip"
| .drop => "fstp %st(0)"

/- The name of an operation between the stack of extended values and memory. -/
def X87MemOp.text : X87MemOp → String
| .loadExtended => "fldt"
| .storeExtended => "fstpt"
| .loadInt32 => "fildl"
| .loadInt64 => "fildll"
| .loadSingle => "flds"
| .loadDouble => "fldl"
| .addSingle => "fadds"
| .storeSingle => "fstps"
| .storeDouble => "fstpl"
| .storeInt16 => "fistps"
| .storeInt32 => "fistpl"
| .storeInt64 => "fistpq"
| .saveControl => "fnstcw"
| .loadControl => "fldcw"

------------
-- Lines
------------

/- A name before one operand. -/
def withOne (name : String) (a : Bytes) : Bytes :=
  ascii name ++ ascii " " ++ a

/- A name before two operands. -/
def withTwo (name : String) (a b : Operand) : Bytes :=
  ascii name ++ ascii " " ++ a.text ++ ascii ", " ++ b.text

/- The spelling of an instruction. -/
def Instr.text : Instr → Bytes
| .mov src dst => withTwo "mov" src dst
| .movWide w src dst => withTwo ("mov" ++ w.letter) src dst
| .movAbs n dst => withTwo "movabs" (.imm n) dst
| .extend x src dst => withTwo x.text src dst
| .lea src dst => withTwo "lea" src dst
| .leaData16 src dst => withTwo "data16 lea" src dst
| .push r => withOne "push" (r.text .quad)
| .pop r => withOne "pop" (r.text .quad)
| .alu op src dst => withTwo op.text src dst
| .aluWide op w src dst => withTwo (op.text ++ w.letter) src dst
| .shift op count dst => withTwo op.text count dst
| .shiftOne op dst => withOne op.text dst.text
| .unary op dst => withOne op.text dst.text
| .signExtendAcc .quad => ascii "cqo"
| .signExtendAcc _ => ascii "cdq"
| .set c dst => withOne ("set" ++ c.text) dst.text
| .jump target => withOne "jmp" target.text
| .jumpIf c target => withOne ("j" ++ c.text) target.text
| .jumpIfPadded c target => withOne ("j" ++ c.text ++ " ") target.text
| .jumpTo r => withOne "jmp" (ascii "*" ++ r.text .quad)
| .callTo r => withOne "call" (ascii "*" ++ r.text .quad)
| .callSymbol name => withOne "call" (name ++ ascii "@PLT")
| .ret => ascii "ret"
| .xchg src dst => withTwo "xchg" src dst
| .lockCmpxchg src dst => withTwo "lock cmpxchg" src dst
| .repStosb => ascii "rep stosb"
| .rex64 => ascii "rex64"
| .sse op src dst => withTwo op.text src dst
| .x87 op => ascii op.text
| .x87Mem op m => withOne op.text m.text

/- The directive that enters a section. -/
def Section.text : Section → Bytes
| .code => ascii ".text"
| .data => ascii ".data"
| .bss => ascii ".bss"
| .threadData => ascii ".section .tdata,\"awT\",@progbits"
| .threadBss => ascii ".section .tbss,\"awT\",@nobits"

/- The mark of a symbol type. -/
def SymbolType.text : SymbolType → Bytes
| .object => ascii "@object"
| .function => ascii "@function"

/- A name and numbers with commas between them. -/
def listed (name : Bytes) (ns : List Int) : Bytes :=
  Bytes.join (ascii ", ") (name :: ns.map Bytes.ofInt)

/- The spelling of a directive. -/
def Directive.text : Directive → Bytes
| .file number name => ascii ".file " ++ Bytes.ofNat number ++ ascii " " ++ Quoted.quote name
| .loc number line => ascii ".loc " ++ Bytes.ofNat number ++ ascii " " ++ Bytes.ofInt line
| .localSymbol name => ascii ".local " ++ name
| .globalSymbol name => ascii ".globl " ++ name
| .common name n a => ascii ".comm " ++ listed name [n, a]
| .enter s => s.text
| .type name t => ascii ".type " ++ name ++ ascii ", " ++ t.text
| .size name n => ascii ".size " ++ listed name [n]
| .align n => ascii ".align " ++ Bytes.ofInt n
| .byte b => ascii ".byte " ++ Bytes.ofInt b.toInt8.toInt
| .quad symbol addend => ascii ".quad " ++ symbol ++ Bytes.ofSigned addend.toInt
| .zero n => ascii ".zero " ++ Bytes.ofInt n
| .value n => ascii ".value 0x" ++ Bytes.ofHex 4 n

/- A text after the blanks that stand before all but labels. -/
def indented (s : Bytes) : Bytes :=
  ascii "  " ++ s

/- The spelling of a line. -/
def Line.text : Line → Bytes
| .label l => l.text ++ ascii ":"
| .instr i => indented i.text
| .noted i note => indented (i.text ++ ascii "  # " ++ note)
| .directive d => indented d.text
| .verbatim s => indented s

/- Lines as one text; every line ends with a newline. -/
def render (lines : List Line) : Bytes :=
  lines.flatMap fun l => l.text ++ ascii "\n"

end Assembly

end CCompiler
