import TinyCompiler.FileSystem.Folder
import TinyCompiler.Main
import TinyCompiler.Proofs.ExpressionReading
import TinyCompiler.Proofs.StatementFitting
import TinyCompiler.Proofs.StatementReading
import TinyCompiler.Proofs.GrammarExact
import TinyCompiler.Proofs.Skimming
import TinyCompiler.Proofs.Interruption
import TinyCompiler.Proofs.Scoping
import TinyCompiler.Proofs.TreeHeight
import TinyCompiler.Proofs.NestingLimit
import TinyCompiler.Proofs.AssemblyReader
import TinyCompiler.Proofs.Interpreter
import TinyCompiler.Proofs.LabelPlacement
import TinyCompiler.Proofs.StraightLine
import TinyCompiler.Proofs.ExpressionCode
import TinyCompiler.Proofs.StatementCode
import TinyCompiler.Proofs.MeaningPreserved
import TinyCompiler.Proofs.LoweringSucceeds
import TinyCompiler.Proofs.MaximalMunch
import TinyCompiler.Proofs.SourceDecides
import TinyCompiler.Proofs.Printing
import TinyCompiler.Proofs.SpacedTokens
import TinyCompiler.Proofs.PrintedExpression
import TinyCompiler.Proofs.RoundTrip
import TinyCompiler.Proofs.Onward
import TinyCompiler.Proofs.Renaming
import TinyCompiler.Proofs.Coupling
import TinyCompiler.Proofs.CoupledStatements
import TinyCompiler.Proofs.LimitCuts
import TinyCompiler.Proofs.NamesOnly
import TinyCompiler.Proofs.Layout
import TinyCompiler.Proofs.LinesOnly
import TinyCompiler.Proofs.SExprReading
import TinyCompiler.Proofs.ScannedTrees
import TinyCompiler.Proofs.DisplayIdentifies
import TinyCompiler.Proofs.TableHistory
import TinyCompiler.Proofs.DumpIdentifies
import TinyCompiler.Proofs.ExpressionAlone
import TinyCompiler.Proofs.Resumption
import TinyCompiler.Proofs.StuckExpressions
import TinyCompiler.Proofs.StuckStatements
import TinyCompiler.Proofs.EarliestError
import TinyCompiler.Proofs.Session
import TinyCompiler.Proofs.ErrorToken
import TinyCompiler.Proofs.FirstFault
import TinyCompiler.Proofs.JumpTargets
import TinyCompiler.Proofs.LabelSoundness
import TinyCompiler.Proofs.NestingBalance
import TinyCompiler.Proofs.ScannedLines
import TinyCompiler.Proofs.Bounds
import TinyCompiler.Proofs.EndMarker
import TinyCompiler.Proofs.Progress
import TinyCompiler.Proofs.Composition
import TinyCompiler.Proofs.MemoryAccesses
import TinyCompiler.Proofs.FrameLayout
