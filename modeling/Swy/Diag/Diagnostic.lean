import Swy.AST.Node

/-!
# Diagnostics

The diagnostics of `Diagnostic.inl` that the visitor of the parse tree, the reader, the semantic
analysis and the code generation submit, with the values their messages are formatted with. Only
the severity decides whether the compilation goes on (`hasErrors`).
-/

namespace Swy

/-- How severe a diagnostic is. -/
inductive Severity where
  | note | warning | error
deriving DecidableEq, Repr

/-- A submitted diagnostic with the arguments of its message. -/
inductive Diagnostic where
  | notePreviousTypeDeclarationHint (type : ASTKind)
  | noteDeclarationHint (name : Identifier)
  | noteDidYouMeanQuestion (type : ASTKind) (name : Identifier)
  | warningDidYouMeanEquals
  | errorFunctionNameReserved (name : Identifier)
  | errorMetaNameReserved (name : Identifier)
  | errorNameTypeDeclaredAlready (type : ASTKind) (name : Identifier)
  | errorDeclarationUnknown (name : Identifier)
  | errorIntegralForMetaDecl
  | errorOnlyIntPermitted (type : Identifier)
  | errorConvertionFailure (literal : Identifier)
  | errorFunctionCallReturnsVoid (name : Identifier)
  | errorFunctionCallArgCountMismatch (name : Identifier) (actual expected : Nat)
  | errorCanOnlyCallFunctions
  | errorInstantiatedNonMetaDecl (name : Identifier)
  | errorInstantiationArgCountMismatch (name : Identifier) (actual expected : Nat)
  | errorInstantiationNoExport (name : Identifier)
deriving DecidableEq, Repr

namespace Diagnostic

/-- `getDiagnosticSeverity`. -/
def severity : Diagnostic → Severity
  | notePreviousTypeDeclarationHint _ | noteDeclarationHint _ | noteDidYouMeanQuestion _ _ => .note
  | warningDidYouMeanEquals => .warning
  | _ => .error

/-- The diagnostic stops the compilation. -/
def isError (d : Diagnostic) : Bool := d.severity == .error

end Diagnostic

/-- `DiagnosticEngine::hasErrors`. -/
def hasErrors (ds : List Diagnostic) : Bool := ds.any Diagnostic.isError

end Swy
