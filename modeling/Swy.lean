import Swy.Codegen.ExportedConstants
import Swy.Codegen.MetaStatements
import Swy.Parse.ExportedDecls
import Swy.Codegen.ExportedNode
import Swy.Sema.OperandPositions
import Swy.Sema.InstantiatedCalls
import Swy.Codegen.Conditions
import Swy.Codegen.Returns
import Swy.Codegen.Values
import Swy.Codegen.NameMangeling
import Swy.Codegen.CompletedLookups
import Swy.Codegen.CompleteModule
import Swy.Tooling.ASTDumper
import Swy.AST.SimilarTo
import Swy.Parse.OperatorSpacing
import Swy.Parse.IntegerLiterals
import Swy.Diag.SourceLocation
import Swy.Codegen.AssignmentChains
import Swy.Sema.MetaInstantiations
import Swy.Codegen.PulledOnce
import Swy.Codegen.ClosedModules
import Swy.Codegen.Isolation
import Swy.Codegen.LinkedFunctions
import Swy.Codegen.LinkedModule
import Swy.Codegen.EarlyReturns
import Swy.Codegen.InstantiatedUnits
import Swy.Codegen.DominatedReferences
import Swy.Codegen.GeneratedFunctions
import Swy.Codegen.FiniteRuns
import Swy.Codegen.Faults
