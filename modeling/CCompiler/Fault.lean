import CCompiler.Text.Bytes

/-
  This file lists the causes for which a compilation stops,
  and the notices that are only printed, with the wording of
  each in one place.

  Key definitions include:
    * `Fault`, `Fault.message`
    * `Notice`, `Notice.message`
-/

namespace CCompiler

------------
-- Faults
------------

/- Why a compilation stops. -/
inductive Fault
-- tokens
| unclosedComment
| unclosedString
| unclosedChar
| invalidToken
| invalidUtf8
| invalidHexEscape
| invalidNumber
-- macros
| expectedIdentifier
| macroNameNotIdentifier
| prematureEnd
| tooManyArguments
| tooFewArguments
| hashWithoutParameter
| pasteAtStart
| pasteAtEnd
| invalidPaste (text : Bytes)
| mixedStringKinds
-- directives
| expected (what : Bytes)
| expectedFilename
| cannotOpen (path reason : Bytes)
| noExpression
| extraToken
| strayElif
| strayElse
| strayEndif
| unterminatedConditional
| invalidDirective
| invalidLineMarker
| filenameExpected
| errorDirective
-- declarations
| storageClassNotAllowed
| typedefWithStorage
| alignasNotAllowed
| invalidType
| unknownEnumType
| notEnumTag
| invalidBitFieldWidth
| typedefNameOmitted
| functionNameOmitted
| functionNotAllowedHere
| differentKind
| redefinition (name : Bytes)
| conflictingTypes (name : Bytes)
| staticAfterNonStatic
| nonStaticAfterStatic
| parameterNameOmitted
| globalNameOmitted
| variableNameOmitted
| variableVoid
| vlaAtFileScope
| vlaInitialized
| incompleteVariable
| expectedString
| undeclaredLabel
-- initializers
| designatorOutOfBounds
| designatorRangeEmpty (first last : Int)
| expectedFieldDesignator
| noSuchMemberInStruct
| indexInNonArray
| fieldNotInStruct
| emptyUnionInitializer
| notConstantInitializer
-- statements
| strayCase
| strayDefault
| emptyCaseRange
| strayBreak
| strayContinue
-- expressions
| invalidOperands
| addressOfBitField
| notStructOrUnion
| incompleteType
| noSuchMember
| notAFunction
| noGenericMatch
| implicitFunction
| undefinedVariable
| expectedExpression
| notAnLvalue
| invalidDereference
| voidDereference
| voidStatementExpression
| pointerExpected
| divisionByZero
| notConstant
| invalidInitializer
-- code
| invalidStatement
| invalidExpression
| unbalancedStack (function : Bytes) (depth : Int)
deriving DecidableEq, Repr

/- The wording of a fault. -/
def Fault.message : Fault → Bytes
| .unclosedComment => ascii "unclosed block comment"
| .unclosedString => ascii "unclosed string literal"
| .unclosedChar => ascii "unclosed char literal"
| .invalidToken => ascii "invalid token"
| .invalidUtf8 => ascii "invalid UTF-8 sequence"
| .invalidHexEscape => ascii "invalid hex escape sequence"
| .invalidNumber => ascii "invalid numeric constant"
| .expectedIdentifier => ascii "expected an identifier"
| .macroNameNotIdentifier => ascii "macro name must be an identifier"
| .prematureEnd => ascii "premature end of input"
| .tooManyArguments => ascii "too many arguments"
| .tooFewArguments => ascii "too few arguments"
| .hashWithoutParameter => ascii "'#' is not followed by a macro parameter"
| .pasteAtStart => ascii "'##' cannot appear at start of macro expansion"
| .pasteAtEnd => ascii "'##' cannot appear at end of macro expansion"
| .invalidPaste text => ascii "pasting forms '" ++ text ++ ascii "', an invalid token"
| .mixedStringKinds => ascii "unsupported non-standard concatenation of string literals"
| .expected what => ascii "expected '" ++ what ++ ascii "'"
| .expectedFilename => ascii "expected a filename"
| .cannotOpen path reason => path ++ ascii ": cannot open file: " ++ reason
| .noExpression => ascii "no expression"
| .extraToken => ascii "extra token"
| .strayElif => ascii "stray #elif"
| .strayElse => ascii "stray #else"
| .strayEndif => ascii "stray #endif"
| .unterminatedConditional => ascii "unterminated conditional directive"
| .invalidDirective => ascii "invalid preprocessor directive"
| .invalidLineMarker => ascii "invalid line marker"
| .filenameExpected => ascii "filename expected"
| .errorDirective => ascii "error"
| .storageClassNotAllowed => ascii "storage class specifier is not allowed in this context"
| .typedefWithStorage =>
  ascii "typedef may not be used together with static, extern, inline, __thread or _Thread_local"
| .alignasNotAllowed => ascii "_Alignas is not allowed in this context"
| .invalidType => ascii "invalid type"
| .unknownEnumType => ascii "unknown enum type"
| .notEnumTag => ascii "not an enum tag"
| .invalidBitFieldWidth => ascii "invalid bit-field width"
| .typedefNameOmitted => ascii "typedef name omitted"
| .functionNameOmitted => ascii "function name omitted"
| .functionNotAllowedHere => ascii "function definition is not allowed here"
| .differentKind => ascii "redeclared as a different kind of symbol"
| .redefinition name => ascii "redefinition of " ++ name
| .conflictingTypes name => ascii "conflicting types for " ++ name
| .staticAfterNonStatic => ascii "static declaration follows a non-static declaration"
| .nonStaticAfterStatic => ascii "non-static declaration follows a static declaration"
| .parameterNameOmitted => ascii "parameter name omitted"
| .globalNameOmitted => ascii "global variable name omitted"
| .variableNameOmitted => ascii "declaration variable name omitted"
| .variableVoid => ascii "variable declared void"
| .vlaAtFileScope => ascii "variable length array declaration not allowed at file scope"
| .vlaInitialized => ascii "variable-sized object may not be initialized"
| .incompleteVariable => ascii "variable has incomplete type"
| .expectedString => ascii "expected string literal"
| .undeclaredLabel => ascii "use of undeclared label"
| .designatorOutOfBounds => ascii "array designator index exceeds array bounds"
| .designatorRangeEmpty first last =>
  ascii "array designator range [" ++ Bytes.ofInt first ++ ascii ", " ++ Bytes.ofInt last ++
    ascii "] is empty"
| .expectedFieldDesignator => ascii "expected a field designator"
| .noSuchMemberInStruct => ascii "struct has no such member"
| .indexInNonArray => ascii "array index in non-array initializer"
| .fieldNotInStruct => ascii "field name not in struct or union initializer"
| .emptyUnionInitializer => ascii "initializer for an empty union"
| .notConstantInitializer => ascii "initializer element is not a compile-time constant"
| .strayCase => ascii "stray case"
| .strayDefault => ascii "stray default"
| .emptyCaseRange => ascii "empty case range specified"
| .strayBreak => ascii "stray break"
| .strayContinue => ascii "stray continue"
| .invalidOperands => ascii "invalid operands"
| .addressOfBitField => ascii "cannot take address of bitfield"
| .notStructOrUnion => ascii "not a struct nor a union"
| .incompleteType => ascii "incomplete type"
| .noSuchMember => ascii "no such member"
| .notAFunction => ascii "not a function"
| .noGenericMatch =>
  ascii "controlling expression type not compatible with any generic association type"
| .implicitFunction => ascii "implicit declaration of a function"
| .undefinedVariable => ascii "undefined variable"
| .expectedExpression => ascii "expected an expression"
| .notAnLvalue => ascii "not an lvalue"
| .invalidDereference => ascii "invalid pointer dereference"
| .voidDereference => ascii "dereferencing a void pointer"
| .voidStatementExpression => ascii "statement expression returning void is not supported"
| .pointerExpected => ascii "pointer expected"
| .divisionByZero => ascii "division by zero"
| .notConstant => ascii "not a compile-time constant"
| .invalidInitializer => ascii "invalid initializer"
| .invalidStatement => ascii "invalid statement"
| .invalidExpression => ascii "invalid expression"
| .unbalancedStack function depth =>
  function ++ ascii ": unbalanced stack depth " ++ Bytes.ofInt depth

------------
-- Notices
------------

/- What a warning says. -/
inductive Notice
| dollarInIdentifier
| extraToken
| ignoredPragma (name : Bytes)
| macroRedefined (name : Bytes)
| pointerIntegerComparison
deriving DecidableEq, Repr

/- The wording of a notice. -/
def Notice.message : Notice → Bytes
| .dollarInIdentifier => ascii "'$' in identifier"
| .extraToken => ascii "extra token"
| .ignoredPragma name => ascii "ignoring #pragma " ++ name
| .macroRedefined name => ascii "'" ++ name ++ ascii "' macro redefined"
| .pointerIntegerComparison => ascii "comparison between pointer and integer"

end CCompiler
