import CCompiler.Alignment
import CCompiler.Assembly.Instr
import CCompiler.Assembly.Operand
import CCompiler.Assembly.Printer
import CCompiler.Codegen.Call
import CCompiler.Codegen.Conversion
import CCompiler.Codegen.Data
import CCompiler.Codegen.Eightbyte
import CCompiler.Codegen.Emit
import CCompiler.Codegen.Frame
import CCompiler.Codegen.Memory
import CCompiler.Codegen.Module
import CCompiler.Codegen.Operation
import CCompiler.Codegen.Passing
import CCompiler.Codegen.Tree
import CCompiler.CommandLine.Command
import CCompiler.CommandLine.ConfigFlags
import CCompiler.CommandLine.Flag
import CCompiler.CommandLine.Help
import CCompiler.CommandLine.Options
import CCompiler.Config
import CCompiler.Decimal.Double
import CCompiler.Decimal.Extended80
import CCompiler.Decimal.Reader
import CCompiler.Decimal.Shortest
import CCompiler.Diagnostic
import CCompiler.Fault
import CCompiler.Main
import CCompiler.Preprocess.Arguments
import CCompiler.Preprocess.Conditional
import CCompiler.Preprocess.Directive
import CCompiler.Preprocess.Expansion
import CCompiler.Preprocess.Header
import CCompiler.Preprocess.Include
import CCompiler.Preprocess.Macro
import CCompiler.Preprocess.Output
import CCompiler.Preprocess.Preprocessor
import CCompiler.Preprocess.Session
import CCompiler.Preprocess.StringRun
import CCompiler.Preprocess.Substitution
import CCompiler.ProbeTable
import CCompiler.Proofs.Codegen.Balance
import CCompiler.Proofs.Codegen.Choosing
import CCompiler.Proofs.Codegen.Converting
import CCompiler.Proofs.Codegen.Depth
import CCompiler.Proofs.Codegen.Evaluation
import CCompiler.Proofs.Codegen.MemberReads
import CCompiler.Proofs.Codegen.Operators
import CCompiler.Proofs.Codegen.RecordReturns
import CCompiler.Proofs.Codegen.Running
import CCompiler.Proofs.Codegen.SavedRegisters
import CCompiler.Proofs.Codegen.StackArguments
import CCompiler.Proofs.Codegen.Term
import CCompiler.Proofs.Codegen.TypedTree
import CCompiler.Proofs.Codegen.VariableArguments
import CCompiler.Proofs.Codegen.VariadicEntry
import CCompiler.Proofs.Preprocess.Guarded
import CCompiler.Proofs.Preprocess.Inclusion
import CCompiler.Proofs.Preprocess.Inline
import CCompiler.Proofs.Preprocess.Layouts
import CCompiler.Proofs.Preprocess.Literals
import CCompiler.Proofs.Preprocess.Made
import CCompiler.Proofs.Preprocess.Places
import CCompiler.Proofs.Preprocess.Quiet
import CCompiler.Proofs.Preprocess.Reading
import CCompiler.Proofs.Preprocess.Recognition
import CCompiler.Proofs.Preprocess.Resuming
import CCompiler.Proofs.Preprocess.Sections
import CCompiler.Proofs.Preprocess.Selection
import CCompiler.Proofs.Preprocess.Spelling
import CCompiler.Proofs.Preprocess.Substituting
import CCompiler.Proofs.Preprocess.Termination
import CCompiler.Proofs.Preprocess.Watched
import CCompiler.Proofs.ProbeTable.Invariant
import CCompiler.Proofs.ProbeTable.Refinement
import CCompiler.Proofs.Rounding
import CCompiler.Proofs.Syntax.CompleteTypes
import CCompiler.Proofs.Syntax.ConstantBounds
import CCompiler.Proofs.Syntax.ConstantValues
import CCompiler.Proofs.Syntax.ConvertedTrees
import CCompiler.Proofs.Syntax.DeclaratorReading
import CCompiler.Proofs.Syntax.Formula
import CCompiler.Proofs.Syntax.FormulaReading
import CCompiler.Proofs.Syntax.FormulaTypes
import CCompiler.Proofs.Syntax.ImageBits
import CCompiler.Proofs.Syntax.LeafWrites
import CCompiler.Proofs.Syntax.Leaves
import CCompiler.Proofs.Syntax.Notes
import CCompiler.Proofs.Syntax.StaticData
import CCompiler.Proofs.Syntax.Stepping
import CCompiler.Proofs.Syntax.StructLayout
import CCompiler.Proofs.Syntax.TypeNames
import CCompiler.Proofs.Syntax.WordArithmetic
import CCompiler.Proofs.Token.Gaps
import CCompiler.Proofs.Token.Respacing
import CCompiler.Proofs.Token.Tiling
import CCompiler.Proofs.TruthValues
import CCompiler.Source.File
import CCompiler.Source.FileStore
import CCompiler.Source.PathName
import CCompiler.Syntax.CType
import CCompiler.Syntax.Constant
import CCompiler.Syntax.Declaration
import CCompiler.Syntax.Declarator
import CCompiler.Syntax.Expression
import CCompiler.Syntax.Grammar
import CCompiler.Syntax.InitialValue
import CCompiler.Syntax.Initializer
import CCompiler.Syntax.Layout
import CCompiler.Syntax.Operator
import CCompiler.Syntax.Parse
import CCompiler.Syntax.Printer
import CCompiler.Syntax.Program
import CCompiler.Syntax.Specifier
import CCompiler.Syntax.Statement
import CCompiler.Syntax.TranslationUnit
import CCompiler.Syntax.Tree
import CCompiler.Syntax.Typing
import CCompiler.Syntax.Vla
import CCompiler.Text.Bytes
import CCompiler.Text.CharClass
import CCompiler.Text.Printable
import CCompiler.Text.Quoted
import CCompiler.Text.Utf8
import CCompiler.Text.Words
import CCompiler.Token.Basic
import CCompiler.Token.HideSet
import CCompiler.Token.Lexer
import CCompiler.Token.Literal
import CCompiler.Token.Number
import CCompiler.Token.Splice
import CCompiler.Proofs.Codegen.CallAlignment
import CCompiler.Proofs.Codegen.InitializedData
import CCompiler.Proofs.Syntax.AtomicUpdates
import CCompiler.Proofs.Preprocess.Placemarkers
import CCompiler.Proofs.Syntax.PackedLayout
import CCompiler.Proofs.Syntax.SingleDefinitions
import CCompiler.Proofs.Codegen.FrameSlots
import CCompiler.Proofs.Syntax.PrecedenceClimbing
import CCompiler.Proofs.Syntax.ConstantRanges
import CCompiler.Proofs.Codegen.FieldWrites
import CCompiler.Proofs.Codegen.Eightbytes
import CCompiler.Proofs.Codegen.SmallRecords
import CCompiler.Proofs.Syntax.CompoundTrees
import CCompiler.Proofs.Syntax.AtomicTargets
import CCompiler.Proofs.Syntax.CompoundValues
import CCompiler.Proofs.Preprocess.ConditionValues
import CCompiler.Proofs.Preprocess.Following
import CCompiler.Proofs.Preprocess.Rereading
import CCompiler.Proofs.Preprocess.Lasting
import CCompiler.Proofs.Token.Fusing
import CCompiler.Proofs.Preprocess.Reprinting
import CCompiler.Proofs.Token.Splicing
import CCompiler.Proofs.Syntax.Liveness
import CCompiler.Proofs.Token.IntegerConstants
import CCompiler.Proofs.Text.ScalarValues
import CCompiler.Proofs.Token.StringLiterals
import CCompiler.Proofs.Syntax.DeclarationTexts
import CCompiler.Proofs.Syntax.RepeatedDeclarations
import CCompiler.Proofs.Preprocess.CallArguments
import CCompiler.Proofs.Preprocess.MergedLiterals
import CCompiler.Proofs.Preprocess.Stringizing
import CCompiler.Proofs.Preprocess.HeaderSearch
import CCompiler.Proofs.Syntax.CarefulReading
import CCompiler.Proofs.Syntax.EmittedReferences
import CCompiler.Proofs.Preprocess.LineNumbers
import CCompiler.Proofs.Codegen.Switches
import CCompiler.Proofs.Syntax.LaterInitializers
import CCompiler.Proofs.Syntax.CountedElements
import CCompiler.Proofs.Syntax.ConstantRecognition
import CCompiler.Proofs.Codegen.EightbyteClasses
import CCompiler.Proofs.Decimal.ExtendedValues
import CCompiler.Proofs.CommandLine.FlagOrder
