import Reir.StreamParser
import Reir.StreamExtension
import Reir.Tokenize
import Reir.TokenizeRoundtrip
import Reir.TokenSlices
import Reir.SyntaxTree
import Reir.Parser
import Reir.ParserProgress
import Reir.ParserTermination
import Reir.Precedence
import Reir.ParserLookahead
import Reir.ParserPrecedence
import Reir.Renderer
import Reir.ParserRoundtrip
import Reir.ParserExtension
import Reir.ParserSequence
import Reir.SourceSequence
import Reir.ByteMemory
import Reir.Schema
import Reir.SchemaText
import Reir.Catalog
import Reir.RowLayout
import Reir.RowKeys
import Reir.RowCodec
import Reir.ValueHandles
import Reir.RowStore
import Reir.IR
import Reir.CompilerContext
import Reir.Analyze
import Reir.Codegen
import Reir.CodegenRules
import Reir.Erasure
import Reir.AnalysisCoverage
import Reir.BuiltinTypes
import Reir.BlockGraph
import Reir.Emission
import Reir.ControlFlow
import Reir.RowBinding
import Reir.TypeRules
import Reir.TypeAgreement
import Reir.TypedPrograms
import Reir.LoadedValues
import Reir.CompileFailure
import Reir.DefinedColumns
import Reir.AllocationCalls
import Reir.TableUses
import Reir.InsertedRows
import Reir.ValueTypes
import Reir.RecordAreas
import Reir.UndeclaredUses
import Reir.StructuredCode
import Reir.Machine
import Reir.CodeLayout
import Reir.CodeLogic
import Reir.Nesting
import Reir.CompiledRuns
import Reir.Transactions
import Reir.Lifecycle
import Reir.Cursors
import Reir.ForHeaders
import Reir.PostfixChains
import Reir.LoopJumps
import Reir.SourcePieces
import Reir.OperatorRuns
import Reir.TokenRows
import Reir.EmittedRows
import Reir.ByteCode
import Reir.PrintedRows
import Reir.SlotTypes
import Reir.DeclaredTuples
import Reir.References
import Reir.Cells
import Reir.PackedValues
import Reir.SchemaReading
import Reir.IntegerLiterals
import Reir.StreamPosition
import Reir.ParserBounds
import Reir.PhiNodes
import Reir.Evaluation
import Reir.RepeatedEffects
import Reir.Behaviours
import Reir.IntegerPrograms
import Reir.IntegerCode
import Reir.IntegerPasses
import Reir.CompilerCorrectness
