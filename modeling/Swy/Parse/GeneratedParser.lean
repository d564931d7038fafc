import Swy.Library.Ebnf
import Swy.Parse.Grammar

/-!
# The generated parser

The productions of `GeneratedParser.g4` and `BasicParser`, the superclass that carries the stack of
meta depths for the semantic predicates and actions of the grammar.

Assertions do not stop the model: a failed one is recorded in `failedAssertions`, and what follows
is what the code does when assertions are compiled out.
-/

namespace Swy

open Library

/-- The tokens of `GeneratedLexer.g4` that the parser reads. -/
inductive TokenKind where
  | return_ | meta_ | if_ | else_
  | openPar | closePar | openCurly | closeCurly | arrow | comma | semicolon
  | true_ | false_ | integerLiteral | identifier
  | operatorMul | operatorDiv | operatorPlus | operatorMinus | operatorAssign
  | operatorLessThan | operatorGreaterThan | operatorLessThanOrEq | operatorGreaterThanOrEq
  | operatorEqual | operatorNotEqual
  | eof
deriving DecidableEq, Repr

/-- A token with the text it was read from. -/
structure Token where
  kind : TokenKind
  text : String
deriving DecidableEq, Repr

/-- The rules of `GeneratedParser.g4`. -/
inductive Rule where
  | compilationUnit | runtimeGlobalScopeNode | functionDecl | metaDecl | metaContribution
  | metaScopeNode | metaStmt | metaCalculationStmt | metaIfStmt | metaElseStmt
  | returnDecl | argumentDeclList | argumentDecl | argumentType | argumentName
  | statement | compoundStmt | unscopedCompoundStmt | basicCompoundStmt
  | declStmt | varDecl | varDeclType | varDeclName | exprStmt | returnStmt | ifStmt | elseStmt
  | metaCalculationExpr | expr | unaryExpr | enclosingExpr | callOperatorExpr | exprList
  | integerLiteralExpr | booleanLiteralExpr | declRefExpr | metaInstantiationExpr | binaryOperator
deriving DecidableEq, Repr

/-! ## The state of the parser -/

/-- The assertions on the depth, in the parser and in the grammar. -/
inductive ParserAssertion where
  | metaDepthOutsideMetaDecl
  | leaveDepthUnbalanced
  | functionDeclNotInGlobalScope
  | metaDeclNested
  | depthStackUnbalanced
deriving DecidableEq, Repr

/-- `BasicParser`. -/
structure BasicParser where
  metaDepthStack : List MetaDepth
  failedAssertions : List ParserAssertion
deriving DecidableEq, Repr

namespace BasicParser

/-- A parser that was just constructed. -/
def start : BasicParser := ⟨[], []⟩

/-- `assert`. -/
def require (c : Bool) (a : ParserAssertion) (p : BasicParser) : BasicParser :=
  if c then p else { p with failedAssertions := p.failedAssertions ++ [a] }

/-- `isInMetaDecl`. -/
def isInMetaDecl (p : BasicParser) : Bool := !p.metaDepthStack.isEmpty

/-- `isInMetaDepth`. -/
def isInMetaDepth (depth : MetaDepth) (p : BasicParser) : Bool × BasicParser :=
  (p.metaDepthStack.head? == some depth, p.require p.isInMetaDecl .metaDepthOutsideMetaDecl)

/-- `enterDepth`. -/
def enterDepth (depth : MetaDepth) (p : BasicParser) : BasicParser :=
  { p with metaDepthStack := depth :: p.metaDepthStack }

/-- `leaveDepth`. -/
def leaveDepth (p : BasicParser) : BasicParser :=
  let p := p.require (!p.metaDepthStack.isEmpty) .leaveDepthUnbalanced
  { p with metaDepthStack := p.metaDepthStack.tail }

/-- The assertion of the destructor, for a parser without syntax errors. -/
def destruct (p : BasicParser) : BasicParser :=
  p.require p.metaDepthStack.isEmpty .depthStackUnbalanced

/-- `assert(isInMetaDepth(MetaDepth::DepthGlobalScope))`. -/
def assertGlobalScope (p : BasicParser) : BasicParser :=
  let (c, p) := p.isInMetaDepth .depthGlobalScope
  p.require c .functionDeclNotInGlobalScope

/-- The action in front of the body of a function. -/
def enterFunctionBody (p : BasicParser) : BasicParser :=
  if p.isInMetaDecl then p.assertGlobalScope.enterDepth .depthLocalScope else p

/-- The action behind the body of a function. -/
def leaveFunctionBody (p : BasicParser) : BasicParser :=
  if p.isInMetaDecl then p.leaveDepth.assertGlobalScope else p

/-- The action in front of the contribution of a meta decl. -/
def enterMetaDecl (p : BasicParser) : BasicParser :=
  (p.require (!p.isInMetaDecl) .metaDeclNested).enterDepth .depthGlobalScope

/-- The action behind the contribution of a meta decl. -/
def leaveMetaDecl (p : BasicParser) : BasicParser :=
  let p := p.leaveDepth
  p.require (!p.isInMetaDecl) .metaDeclNested

/-- The predicate of a meta statement among the statements: the depth is only looked at inside of
a meta decl. -/
def allowsMetaStmt (p : BasicParser) : Bool × BasicParser :=
  if p.isInMetaDecl then
    let (isNone, p) := p.isInMetaDepth .depthNone
    (!isNone, p)
  else (false, p)

end BasicParser

/-! ## The grammar -/

namespace GeneratedParser

open Ebnf BasicParser

/-- The right sides of the rules. -/
def production : Rule → Ebnf Rule TokenKind BasicParser
  | .compilationUnit =>
    seqs [star (alt (rule .runtimeGlobalScopeNode) (rule .metaDecl)), token .eof]
  | .runtimeGlobalScopeNode =>
    alt (rule .functionDecl)
      (seqs [predicate fun p => (p.isInMetaDecl, p), rule .metaStmt])
  | .functionDecl =>
    seqs [token .identifier, token .openPar, rule .argumentDeclList, token .closePar,
      rule .returnDecl, token .arrow, action enterFunctionBody, rule .statement,
      action leaveFunctionBody]
  | .metaDecl =>
    seqs [token .identifier, token .operatorLessThan, rule .argumentDeclList,
      token .operatorGreaterThan, token .arrow, action enterMetaDecl, rule .metaContribution,
      action leaveMetaDecl]
  | .metaContribution => seqs [token .openCurly, star (rule .metaScopeNode), token .closeCurly]
  | .metaScopeNode =>
    alt (seqs [predicate (isInMetaDepth .depthGlobalScope), rule .runtimeGlobalScopeNode])
      (seqs [predicate (isInMetaDepth .depthLocalScope), rule .statement])
  | .metaStmt => alt (rule .metaCalculationStmt) (rule .metaIfStmt)
  | .metaCalculationStmt =>
    seqs [action (enterDepth .depthNone), token .meta_, rule .unscopedCompoundStmt,
      action leaveDepth]
  | .metaIfStmt =>
    seqs [token .meta_, token .if_, rule .metaCalculationExpr, rule .metaContribution,
      opt (rule .metaElseStmt)]
  | .metaElseStmt => seqs [token .else_, rule .metaContribution]
  | .returnDecl => opt (rule .argumentDecl)
  | .argumentDeclList =>
    opt (seqs [rule .argumentDecl, star (seqs [token .comma, rule .argumentDecl])])
  | .argumentDecl => seqs [rule .argumentType, opt (rule .argumentName)]
  | .argumentType => token .identifier
  | .argumentName => token .identifier
  | .statement =>
    oneOf (rule .declStmt) [rule .exprStmt, rule .returnStmt, rule .ifStmt, rule .compoundStmt,
      seqs [predicate allowsMetaStmt, rule .metaStmt]]
  | .compoundStmt => rule .basicCompoundStmt
  | .unscopedCompoundStmt => rule .basicCompoundStmt
  | .basicCompoundStmt => seqs [token .openCurly, star (rule .statement), token .closeCurly]
  | .declStmt => seqs [rule .varDecl, token .operatorAssign, rule .expr, token .semicolon]
  | .varDecl => seqs [rule .varDeclType, rule .varDeclName]
  | .varDeclType => token .identifier
  | .varDeclName => token .identifier
  | .exprStmt => seqs [rule .expr, token .semicolon]
  | .returnStmt => seqs [token .return_, opt (rule .expr), token .semicolon]
  | .ifStmt => seqs [token .if_, rule .expr, rule .compoundStmt, opt (rule .elseStmt)]
  | .elseStmt => seqs [token .else_, rule .compoundStmt]
  | .metaCalculationExpr =>
    seqs [action (enterDepth .depthNone), rule .expr, action leaveDepth]
  | .expr =>
    oneOf (rule .unaryExpr) [rule .metaInstantiationExpr, rule .declRefExpr,
      seqs [token .openPar, rule .expr, token .closePar], rule .integerLiteralExpr,
      rule .booleanLiteralExpr, seqs [rule .expr, rule .binaryOperator, rule .expr]]
  | .unaryExpr => rule .enclosingExpr
  | .enclosingExpr => rule .callOperatorExpr
  | .callOperatorExpr =>
    seqs [alt (rule .declRefExpr) (rule .metaInstantiationExpr), token .openPar, rule .exprList,
      token .closePar]
  | .exprList => opt (seqs [rule .expr, star (seqs [token .comma, rule .expr])])
  | .integerLiteralExpr => token .integerLiteral
  | .booleanLiteralExpr => alt (token .true_) (token .false_)
  | .declRefExpr => token .identifier
  | .metaInstantiationExpr =>
    seqs [rule .declRefExpr, token .operatorLessThan, rule .exprList, token .operatorGreaterThan]
  | .binaryOperator =>
    oneOf (token .operatorAssign) [token .operatorMul, token .operatorDiv, token .operatorPlus,
      token .operatorMinus, token .operatorLessThan, token .operatorGreaterThan,
      token .operatorLessThanOrEq, token .operatorGreaterThanOrEq, token .operatorEqual,
      token .operatorNotEqual]

/-- `GeneratedParser.g4`. -/
def grammar : Grammar Rule TokenKind Token BasicParser where
  production := production
  kind := Token.kind

end GeneratedParser

/-- A node of a parse tree: the context of a rule or a terminal. -/
abbrev Context := ParseTree Rule Token

/-! ## What the rules expect of the depth -/

namespace BasicParser

/-- The depth that decides what is allowed, `depthNone` outside of any meta decl. -/
def depth (p : BasicParser) : MetaDepth := p.metaDepthStack.headD .depthNone

/-- Functions are allowed: outside of any meta decl, or at its global scope. -/
def allowsFunctions (p : BasicParser) : Bool :=
  p.metaDepthStack.isEmpty || p.depth == .depthGlobalScope

/-- What the grammar takes for granted where it refers to a rule. -/
def admits (p : BasicParser) : Rule → Bool
  | .compilationUnit | .metaDecl => p.metaDepthStack.isEmpty
  | .runtimeGlobalScopeNode | .functionDecl => p.allowsFunctions
  | .metaContribution | .metaScopeNode | .metaStmt | .metaCalculationStmt | .metaIfStmt
  | .metaElseStmt | .metaCalculationExpr => p.depth.allowsMeta
  | _ => true

variable {p : BasicParser}

@[simp] theorem depth_enterDepth (d : MetaDepth) : (p.enterDepth d).depth = d := rfl

theorem depth_of_head? {d : MetaDepth} (h : p.metaDepthStack.head? = some d) : p.depth = d := by
  obtain ⟨_ | ⟨d', ds⟩, fs⟩ := p
  · cases h
  · exact Option.some.inj h

@[simp] theorem leaveDepth_enterDepth (d : MetaDepth) : (p.enterDepth d).leaveDepth = p := rfl

theorem isInMetaDecl_of_allowsMeta (h : p.depth.allowsMeta = true) : p.isInMetaDecl = true := by
  obtain ⟨_ | ⟨d, ds⟩, fs⟩ := p
  · cases h
  · rfl

theorem isInMetaDepth_of_isInMetaDecl (h : p.isInMetaDecl = true) (d : MetaDepth) :
    p.isInMetaDepth d = (p.depth == d, p) := by
  obtain ⟨_ | ⟨d', ds⟩, fs⟩ := p
  · cases h
  · exact Prod.ext rfl rfl

/-- At a global scope the assertion of the function rule holds. -/
theorem assertGlobalScope_of_depth (hd : p.isInMetaDecl = true)
    (h : p.depth = .depthGlobalScope) : p.assertGlobalScope = p := by
  rw [assertGlobalScope, isInMetaDepth_of_isInMetaDecl hd, h]
  rfl

theorem depth_of_allowsFunctions (h : p.allowsFunctions = true) (hd : p.isInMetaDecl = true) :
    p.depth = .depthGlobalScope := by
  rw [allowsFunctions, Bool.or_eq_true] at h
  rcases h with h | h
  · rw [isInMetaDecl, h] at hd
    cases hd
  · exact eq_of_beq h

/-- Where a function is allowed, its actions are balanced and their assertions hold. -/
theorem leaveFunctionBody_enterFunctionBody (h : p.allowsFunctions = true) :
    p.enterFunctionBody.leaveFunctionBody = p := by
  by_cases hd : p.isInMetaDecl = true
  · have hglobal : p.depth = .depthGlobalScope := depth_of_allowsFunctions h hd
    have hassert : p.assertGlobalScope = p := assertGlobalScope_of_depth hd hglobal
    rw [enterFunctionBody, if_pos hd, hassert]
    exact hassert
  · rw [enterFunctionBody, if_neg hd, leaveFunctionBody, if_neg hd]

/-- Outside of any meta decl, the actions of a meta decl are balanced. -/
theorem leaveMetaDecl_enterMetaDecl (h : p.metaDepthStack = []) :
    p.enterMetaDecl.leaveMetaDecl = p := by
  obtain ⟨ds, fs⟩ := p
  subst h
  rfl

theorem allowsMeta_of_allowsFunctions (h : p.allowsFunctions = true)
    (hd : p.isInMetaDecl = true) : p.depth.allowsMeta = true := by
  rw [depth_of_allowsFunctions h hd]
  rfl

/-- Looking at the depth where meta statements are allowed changes nothing. -/
theorem isInMetaDepth_of_allowsMeta (h : p.depth.allowsMeta = true) (d : MetaDepth) :
    p.isInMetaDepth d = (p.depth == d, p) :=
  isInMetaDepth_of_isInMetaDecl (isInMetaDecl_of_allowsMeta h) d

/-- The predicate of a meta statement changes nothing, and looks at the depth only. -/
theorem allowsMetaStmt_eq (p : BasicParser) : p.allowsMetaStmt = (p.depth.allowsMeta, p) := by
  obtain ⟨_ | ⟨d, ds⟩, fs⟩ := p
  · rfl
  · cases d <;> rfl

end BasicParser

namespace GeneratedParser

open BasicParser

/-- Every rule leaves the state of the parser as it is, if it is used where it may be. -/
def depthContract : Contract Rule BasicParser where
  pre r p := p.admits r = true
  post _ p p' := p' = p

section Contract

open Contract Ebnf

variable {p : BasicParser} {K : BasicParser → Prop}

/-- A rule that may be used anywhere. -/
theorem ensures_rule {r : Rule} (h : p.admits r = true) (hK : K p) :
    depthContract.Ensures (T := TokenKind) (.rule r) p K := ⟨h, fun _ hp => hp ▸ hK⟩

/-- No assertion of the grammar fails, and every depth that is entered is left again. -/
theorem depthContract_keeps : depthContract.Keeps grammar := by
  intro r p hpre
  cases r with
  | compilationUnit =>
    exact ensures_star ⟨ensures_rule (by simp_all [depthContract, admits, allowsFunctions]) rfl,
      ensures_rule hpre rfl⟩ rfl
  | metaContribution => exact ensures_star (ensures_rule hpre rfl) rfl
  | basicCompoundStmt => exact ensures_star (ensures_rule rfl rfl) rfl
  | argumentDeclList => exact ⟨ensures_rule rfl (ensures_star (ensures_rule rfl rfl) rfl), rfl⟩
  | exprList => exact ⟨ensures_rule rfl (ensures_star (ensures_rule rfl rfl) rfl), rfl⟩
  | runtimeGlobalScopeNode =>
    exact ⟨ensures_rule hpre rfl,
      fun hd => ensures_rule (allowsMeta_of_allowsFunctions hpre hd) rfl⟩
  | functionDecl =>
    exact ensures_rule rfl (ensures_rule rfl
      (ensures_rule rfl (leaveFunctionBody_enterFunctionBody hpre)))
  | metaDecl =>
    have hempty : p.metaDepthStack = [] := List.isEmpty_iff.1 hpre
    exact ensures_rule rfl (ensures_rule rfl (leaveMetaDecl_enterMetaDecl hempty))
  | metaScopeNode =>
    simp only [grammar, production, seqs, Ensures, isInMetaDepth_of_allowsMeta hpre]
    refine ⟨fun hd => ⟨?_, fun p' hp => hp⟩, fun _ => ⟨rfl, fun p' hp => hp⟩⟩
    simp [depthContract, admits, allowsFunctions, hd]
  | metaStmt => exact ⟨ensures_rule hpre rfl, ensures_rule hpre rfl⟩
  | metaIfStmt =>
    exact ensures_rule hpre (ensures_rule hpre ⟨ensures_rule hpre rfl, rfl⟩)
  | metaElseStmt => exact ensures_rule hpre rfl
  | statement =>
    simp only [grammar, production, seqs, oneOf, Ensures, allowsMetaStmt_eq]
    simp [depthContract, admits]
  | _ => simp [grammar, production, seqs, Ensures, depthContract, admits, opt, oneOf]

end Contract

/-- What a compilation unit is parsed to leaves the parser as it was constructed. -/
theorem derives_compilationUnit {t : Context} {p : BasicParser}
    (h : Derives grammar (.rule .compilationUnit) .start [t] p) : p = .start :=
  (Derives.rule_induction_rule (Q := fun _ _ _ _ => True) depthContract_keeps
    (fun _ _ _ _ _ _ _ => trivial) h rfl).1

end GeneratedParser

end Swy
