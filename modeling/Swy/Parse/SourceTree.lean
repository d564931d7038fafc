import Swy.Parse.LocalScopeVisitor

/-!
# What a parse tree stands for

`nodesOf` is the forest a parse tree stands for: a context that has a node stands for that node with
what is below the context as its children, and a context without one stands for what is below it.
On every tree the grammar derives, `LocalScopeVisitor` writes the encoding of this forest and
reports `diagnosticsOf` (`visit_derived`).
-/

namespace Swy

open Library LocalScopeVisitor Context

/-! ## The forest of a parse tree -/

/-- The text of the first terminal of the kind. -/
def textOf (kind : TokenKind) (context : List Context) : Identifier :=
  (identifierOf context kind).getD ""

/-- The children of the first context of the rule, nothing if there is none. -/
def below (rule : Rule) (context : List Context) : List Context := (rule? rule context).getD []

/-- The node of a context with its name, literal or operator, if the rule has a node. -/
def nodeOf : Rule → List Context → Option NodeData
  | .compilationUnit, _ => some .compilationUnit
  | .functionDecl, context => some (.functionDecl (textOf .identifier context))
  | .metaDecl, context => some (.metaDecl (textOf .identifier context))
  | .metaContribution, _ => some .metaContribution
  | .metaCalculationStmt, _ => some .metaCalculationStmt
  | .metaIfStmt, _ => some .metaIfStmt
  | .argumentDeclList, _ => some .argumentDeclList
  | .argumentDecl, context =>
    some ((rule? .argumentName context).elim .anonymousArgumentDecl
      fun name => .namedArgumentDecl (textOf .identifier name))
  | .compoundStmt, _ => some .compoundStmt
  | .unscopedCompoundStmt, _ => some .unscopedCompoundStmt
  | .declStmt, context =>
    some (.declStmt (textOf .identifier (below .varDeclName (below .varDecl context))))
  | .exprStmt, _ => some .expressionStmt
  | .returnStmt, _ => some .returnStmt
  | .ifStmt, _ => some .ifStmt
  | .expr, context =>
    (rule? .binaryOperator context).bind fun operator =>
      (getBinaryOperatorOf operator).map .binaryOperatorExpr
  | .callOperatorExpr, _ => some .callOperatorExpr
  | .integerLiteralExpr, context =>
    some ((getAsInteger (textOf .integerLiteral context)).elim .erroneousExpr .integerLiteralExpr)
  | .booleanLiteralExpr, context => some (.booleanLiteralExpr (token? .true_ context).isSome)
  | .declRefExpr, context => some (.declRefExpr (textOf .identifier context))
  | .metaInstantiationExpr, _ => some .metaInstantiationExpr
  | _, _ => none

/-- What the visitor reports at a context: integers that do not fit, and types other than `int`. -/
def reportsOf : Rule → List Context → List Diagnostic
  | .integerLiteralExpr, context =>
    let rep := textOf .integerLiteral context
    if (getAsInteger rep).isNone then [.errorConvertionFailure rep] else []
  | .declStmt, context =>
    let type := textOf .identifier (below .varDeclType (below .varDecl context))
    if type ≠ "int" then [.errorOnlyIntPermitted type] else []
  | _, _ => []

/-- A node, if there is one, in front of the forest below it. -/
def plant (data : Option NodeData) (ts : List (Rose NodeData)) : List (Rose NodeData) :=
  data.elim ts fun data => [.node data ts]

mutual
/-- The forest a parse tree stands for. -/
def nodesOf : Context → List (Rose NodeData)
  | .node (.token _) _ => []
  | .node (.rule r) context => plant (nodeOf r context) (nodesOfAll context)
/-- `nodesOf` each tree of a list. -/
def nodesOfAll : List Context → List (Rose NodeData)
  | [] => []
  | c :: cs => nodesOf c ++ nodesOfAll cs
end

mutual
/-- What is reported for a parse tree. -/
def diagnosticsOf : Context → List Diagnostic
  | .node (.token _) _ => []
  | .node (.rule r) context => reportsOf r context ++ diagnosticsOfAll context
/-- `diagnosticsOf` each tree of a list. -/
def diagnosticsOfAll : List Context → List Diagnostic
  | [] => []
  | c :: cs => diagnosticsOf c ++ diagnosticsOfAll cs
end

@[simp] theorem nodesOfAll_eq (cs : List Context) : nodesOfAll cs = cs.flatMap nodesOf := by
  induction cs with
  | nil => rfl
  | cons c cs ih => rw [nodesOfAll, ih, List.flatMap_cons]

@[simp] theorem nodesOf_token (l : Token) (cs : List Context) :
    nodesOf (.node (.token l) cs) = [] := by rw [nodesOf]

theorem nodesOf_rule (r : Rule) (cs : List Context) :
    nodesOf (.node (.rule r) cs) = plant (nodeOf r cs) (cs.flatMap nodesOf) := by
  rw [nodesOf, nodesOfAll_eq]

@[simp] theorem diagnosticsOfAll_eq (cs : List Context) :
    diagnosticsOfAll cs = cs.flatMap diagnosticsOf := by
  induction cs with
  | nil => rfl
  | cons c cs ih => rw [diagnosticsOfAll, ih, List.flatMap_cons]

@[simp] theorem diagnosticsOf_token (l : Token) (cs : List Context) :
    diagnosticsOf (.node (.token l) cs) = [] := by rw [diagnosticsOf]

theorem diagnosticsOf_rule (r : Rule) (cs : List Context) :
    diagnosticsOf (.node (.rule r) cs) = reportsOf r cs ++ cs.flatMap diagnosticsOf := by
  rw [diagnosticsOf, diagnosticsOfAll_eq]

/-! ## What the visitor writes -/

namespace LocalScopeVisitor

/-- Fresh nodes for a forest are written and diagnostics are reported. -/
def write (ts : List (Rose NodeData)) (ds : List Diagnostic) (v : LocalScopeVisitor) :
    LocalScopeVisitor where
  layout := v.layout ++ number v.nextId (encodeData ts)
  nextId := v.nextId + countNodes (encodeData ts)
  diagnostics := v.diagnostics ++ ds

theorem write_nil (v : LocalScopeVisitor) : v.write [] [] = v := by
  obtain ⟨layout, nextId, diagnostics⟩ := v
  simp [write, encodeData, number]

theorem write_write (ts ts' : List (Rose NodeData)) (ds ds' : List Diagnostic)
    (v : LocalScopeVisitor) :
    (v.write ts ds).write ts' ds' = v.write (ts ++ ts') (ds ++ ds') := by
  simp [write, encodeData_append, number_append, countNodes_append, List.append_assoc,
    Nat.add_assoc]

/-- Visiting does nothing but write a forest and report. -/
def Writes (visit : Visit) (ts : List (Rose NodeData)) (ds : List Diagnostic) : Prop :=
  ∀ v, visit v = some (v.write ts ds)

/-- A diagnostic that is reported first. -/
theorem Writes.diagnose {visit : Visit} {ts : List (Rose NodeData)} {ds : List Diagnostic}
    (h : Writes visit ts ds) (d : Diagnostic) :
    Writes (fun v => visit (v.diagnose d)) ts (d :: ds) := by
  intro v
  show visit (v.diagnose d) = _
  rw [h]
  simp [write, LocalScopeVisitor.diagnose]

/-- The context was written as what it stands for. -/
def Written (t : Context) : Prop := Writes (visit t) (nodesOf t) (diagnosticsOf t)

theorem written_token (l : Token) (cs : List Context) : Written (.node (.token l) cs) := by
  intro v
  rw [nodesOf_token, diagnosticsOf_token, write_nil, visit]

theorem writes_visitChildren {cs : List Context} (h : ∀ c ∈ cs, Written c) :
    Writes (visitChildren cs) (cs.flatMap nodesOf) (cs.flatMap diagnosticsOf) := by
  induction cs with
  | nil => exact fun v => by rw [visitChildren]; exact congrArg some (write_nil v).symm
  | cons c cs ih =>
    intro v
    have hcs := ih fun x hx => h x (List.mem_cons_of_mem _ hx)
    have hc := h c List.mem_cons_self v
    show (visit c v).bind (visitChildren cs) = _
    rw [hc, Option.bind_some, hcs, write_write]
    rfl

/-- A node is written in front of what its children write. A node without a `children()` method
writes nothing else. -/
theorem writes_contributeFrom {data : NodeData} {visitChildren : Visit}
    {ts : List (Rose NodeData)} {ds : List Diagnostic} (h : Writes visitChildren ts ds)
    (hleaf : data.kind.hasChildren = false → ts = [] ∧ ds = []) :
    Writes (contributeFrom data visitChildren) [.node data ts] ds := by
  intro v
  by_cases hc : data.kind.hasChildren = true
  · have hchildren : visitChildren (v.directWrite data) = some ((v.directWrite data).write ts ds) :=
      h _
    unfold contributeFrom
    simp only [hc, hchildren, ↓reduceIte, Option.bind_eq_bind, Option.bind_some]
    by_cases hm : data.kind.isRequiringReduceMarker = true
    · simp only [hm, ↓reduceIte, write, encodeData_node, number, number_append]
      simp [directWrite, markReduce, countNodes_append, Nat.add_assoc, Nat.add_comm]
    · simp [hm, write, encodeData_node, directWrite, number, Nat.add_assoc, Nat.add_comm]
  · obtain ⟨rfl, rfl⟩ := hleaf (Bool.eq_false_iff.2 hc)
    have hm : data.kind.isRequiringReduceMarker = false := by
      rw [ASTKind.isRequiringReduceMarker, Bool.eq_false_iff.2 hc, Bool.false_and]
    simp [contributeFrom, hc, hm, write, directWrite, number, encodeData, Rose.encode_node]

/-! ## The terminals of a context -/

/-- The context has a terminal of the kind. -/
def HasToken (kind : TokenKind) (context : List Context) : Prop :=
  ∃ token, token? kind context = some token

/-- Nothing that is written is below the context. -/
def IsLeaf (context : List Context) : Prop :=
  context.flatMap nodesOf = [] ∧ context.flatMap diagnosticsOf = []

/-- A variable declaration has a type and a name. -/
def HasTypeAndName (varDecl : List Context) : Prop :=
  ∃ type name, rule? .varDeclType varDecl = some type ∧ HasToken .identifier type ∧
    rule? .varDeclName varDecl = some name ∧ HasToken .identifier name

/-- The context of a rule has the terminals that are read by the visitor, and writes nothing below
a node without children. -/
def Terminals : Rule → List Context → Prop
  | .functionDecl, context | .metaDecl, context | .varDeclType, context | .varDeclName, context =>
    HasToken .identifier context
  | .argumentType, context => IsLeaf context
  | .argumentName, context | .declRefExpr, context => HasToken .identifier context ∧ IsLeaf context
  | .argumentDecl, context =>
    (∀ name, rule? .argumentName context = some name → HasToken .identifier name) ∧ IsLeaf context
  | .metaInstantiationExpr, context =>
    HasToken .operatorLessThan context ∧ HasToken .operatorGreaterThan context
  | .metaContribution, context => HasToken .openCurly context ∧ HasToken .closeCurly context
  | .integerLiteralExpr, context => HasToken .integerLiteral context ∧ IsLeaf context
  | .booleanLiteralExpr, context =>
    (HasToken .true_ context ∨ HasToken .false_ context) ∧ IsLeaf context
  | .binaryOperator, context => ∃ op, getBinaryOperatorOf context = some op
  | .expr, context => ∀ operator, rule? .binaryOperator context = some operator →
      ∃ op, getBinaryOperatorOf operator = some op
  | .varDecl, context => HasTypeAndName context
  | .declStmt, context => ∃ varDecl, rule? .varDecl context = some varDecl ∧ HasTypeAndName varDecl
  | _, _ => True

theorem identifierOf_eq {kind : TokenKind} {context : List Context} (h : HasToken kind context) :
    identifierOf context kind = some (textOf kind context) := by
  obtain ⟨token, h⟩ := h
  rw [textOf, identifierOf, h]
  rfl

/-- The visit method of a rule writes the node of its context and reports what is wrong with it. -/
theorem writes_visitRule {r : Rule} {cs : List Context} {f : Visit} (ht : Terminals r cs)
    (h : Writes f (cs.flatMap nodesOf) (cs.flatMap diagnosticsOf)) :
    Writes (visitRule cs f r) (plant (nodeOf r cs) (cs.flatMap nodesOf))
      (reportsOf r cs ++ cs.flatMap diagnosticsOf) := by
  have inner : ∀ {data : NodeData}, data.kind.hasChildren = true →
      Writes (contributeFrom data f) [.node data (cs.flatMap nodesOf)]
        (cs.flatMap diagnosticsOf) :=
    fun hk => writes_contributeFrom h fun hleaf => by rw [hk] at hleaf; cases hleaf
  have leaf : ∀ {data : NodeData}, IsLeaf cs →
      Writes (contributeFrom data f) [.node data (cs.flatMap nodesOf)]
        (cs.flatMap diagnosticsOf) :=
    fun hl => writes_contributeFrom h fun _ => hl
  cases r with
  | functionDecl =>
    unfold visitRule visitFunctionDecl
    simp only [identifierOf_eq ht, Option.bind_eq_bind, Option.bind_some]
    exact inner rfl
  | metaDecl =>
    unfold visitRule visitMetaDecl
    simp only [identifierOf_eq ht, Option.bind_eq_bind, Option.bind_some]
    exact inner rfl
  | declRefExpr =>
    unfold visitRule visitDeclRefExpr
    simp only [identifierOf_eq ht.1, Option.bind_eq_bind, Option.bind_some]
    exact leaf ht.2
  | argumentDecl =>
    obtain ⟨hname, hleaf⟩ := ht
    unfold visitRule visitArgumentDecl
    simp only [nodeOf, reportsOf, List.nil_append]
    cases hn : rule? .argumentName cs with
    | none => exact leaf hleaf
    | some name =>
      simp only [identifierOf_eq (hname name hn), Option.bind_eq_bind, Option.bind_some]
      exact leaf hleaf
  | metaInstantiationExpr =>
    obtain ⟨⟨less, hless⟩, greater, hgreater⟩ := ht
    unfold visitRule visitMetaInstantiationExpr
    simp only [hless, hgreater, Option.bind_eq_bind, Option.bind_some]
    exact inner rfl
  | metaContribution =>
    obtain ⟨⟨opening, hopening⟩, closing, hclosing⟩ := ht
    unfold visitRule visitMetaContribution
    simp only [hopening, hclosing, Option.bind_eq_bind, Option.bind_some]
    exact inner rfl
  | integerLiteralExpr =>
    obtain ⟨htoken, hleaf⟩ := ht
    intro v
    unfold visitRule visitIntegerLiteralExpr
    simp only [identifierOf_eq htoken, Option.bind_eq_bind, Option.bind_some, nodeOf, reportsOf]
    cases hi : getAsInteger (textOf .integerLiteral cs) with
    | none =>
      have hw : Writes (contributeFrom .erroneousExpr f) _ _ := leaf hleaf
      exact hw.diagnose (.errorConvertionFailure (textOf .integerLiteral cs)) v
    | some value => exact leaf hleaf v
  | booleanLiteralExpr =>
    obtain ⟨htoken, hleaf⟩ := ht
    unfold visitRule visitBooleanLiteralExpr
    simp only [nodeOf, reportsOf, List.nil_append]
    cases htrue : token? .true_ cs with
    | some token => exact leaf hleaf
    | none =>
      rcases htoken with ⟨token, htoken⟩ | ⟨token, htoken⟩
      · rw [htrue] at htoken; cases htoken
      · simp only [htoken, Option.bind_eq_bind, Option.bind_some]
        exact leaf hleaf
  | expr =>
    unfold visitRule visitExpr
    simp only [nodeOf, reportsOf, List.nil_append]
    cases ho : rule? .binaryOperator cs with
    | none => exact h
    | some operator =>
      obtain ⟨op, hop⟩ := ht operator ho
      simp only [hop, Option.bind_eq_bind, Option.bind_some]
      exact inner rfl
  | declStmt =>
    obtain ⟨varDecl, hvar, type, name, htype, hhasType, hname, hhasName⟩ := ht
    intro v
    unfold visitRule visitDeclStmt
    simp only [hvar, htype, hname, identifierOf_eq hhasType, identifierOf_eq hhasName,
      Option.bind_eq_bind, Option.bind_some, nodeOf, reportsOf, below, Option.getD_some]
    split
    · have hw : Writes (contributeFrom (.declStmt (textOf .identifier name)) f) _ _ := inner rfl
      exact hw.diagnose (.errorOnlyIntPermitted (textOf .identifier type)) v
    · exact inner rfl v
  | compilationUnit | argumentDeclList | returnStmt | compoundStmt | unscopedCompoundStmt | exprStmt
  | ifStmt | metaIfStmt | metaCalculationStmt | callOperatorExpr =>
    unfold visitRule
    exact inner rfl
  | _ => exact h

/-- What is shown of a context by induction on its derivation. -/
structure Visited (r : Rule) (t : Context) : Prop where
  terminals : ∃ cs, t = .node (.rule r) cs ∧ Terminals r cs
  written : Written t

theorem hasToken_head {kind : TokenKind} {l : Token} {ds cs : List Context} (h : l.kind = kind) :
    HasToken kind (.node (.token l) ds :: cs) := ⟨l, by rw [token?, if_pos h]⟩

theorem isLeaf_token (l : Token) (ds : List Context) : IsLeaf [.node (.token l) ds] :=
  ⟨by simp, by simp⟩

theorem IsLeaf.cons {c : Context} {cs : List Context} (h : IsLeaf [c]) (hs : IsLeaf cs) :
    IsLeaf (c :: cs) := by
  simp only [IsLeaf, List.flatMap_cons, List.flatMap_nil, List.append_nil] at h ⊢
  rw [h.1, h.2]
  exact hs

/-- A context without a node of its own. -/
theorem IsLeaf.rule {r : Rule} {cs : List Context} (hnode : nodeOf r cs = none)
    (hreports : reportsOf r cs = []) (h : IsLeaf cs) : IsLeaf [.node (.rule r) cs] := by
  simp only [IsLeaf, List.flatMap_cons, List.flatMap_nil, List.append_nil, nodesOf_rule,
    diagnosticsOf_rule, hnode, hreports, List.nil_append]
  exact h

/-- The tree is the context of a rule. -/
def IsRule (t : Context) : Prop := ∃ r cs, t = .node (.rule r) cs

theorem Visited.isRule {r : Rule} {t : Context} (h : Visited r t) : IsRule t := by
  obtain ⟨⟨cs, rfl, _⟩, _⟩ := h
  exact ⟨r, cs, rfl⟩

theorem token?_append {kind : TokenKind} {cs ds : List Context} (h : ∀ c ∈ cs, IsRule c) :
    token? kind (cs ++ ds) = token? kind ds := by
  induction cs with
  | nil => rfl
  | cons c cs ih =>
    obtain ⟨r, es, rfl⟩ := h c List.mem_cons_self
    exact ih fun d hd => h d (List.mem_cons_of_mem _ hd)

open GeneratedParser Ebnf in
/-- The terminals that the visitor reads are there in every derived context. -/
theorem terminals_of_matches {r : Rule} {p p' : BasicParser} {cs : List Context}
    (h : Matches grammar.kind (fun r _ t _ => Visited r t) (grammar.production r) p cs p') :
    Terminals r cs := by
  cases r with
  | functionDecl =>
    simp only [grammar, production, seqs, matches_seq_token] at h
    obtain ⟨l, ds, rfl, hl, _⟩ := h
    exact hasToken_head hl
  | metaDecl =>
    simp only [grammar, production, seqs, matches_seq_token] at h
    obtain ⟨l, ds, rfl, hl, _⟩ := h
    exact hasToken_head hl
  | argumentType =>
    obtain ⟨⟨l, _, rfl⟩, _⟩ := h
    exact isLeaf_token l []
  | argumentName | declRefExpr =>
    obtain ⟨⟨l, hl, rfl⟩, _⟩ := h
    exact ⟨hasToken_head hl, isLeaf_token l []⟩
  | varDeclType | varDeclName =>
    obtain ⟨⟨l, hl, rfl⟩, _⟩ := h
    exact hasToken_head hl
  | integerLiteralExpr =>
    obtain ⟨⟨l, hl, rfl⟩, _⟩ := h
    exact ⟨hasToken_head hl, isLeaf_token l []⟩
  | booleanLiteralExpr =>
    rcases h with ⟨⟨l, hl, rfl⟩, _⟩ | ⟨⟨l, hl, rfl⟩, _⟩
    · exact ⟨.inl (hasToken_head hl), isLeaf_token l []⟩
    · exact ⟨.inr (hasToken_head hl), isLeaf_token l []⟩
  | argumentDecl =>
    simp only [grammar, production, seqs, matches_seq_rule, matches_seq_empty, matches_opt,
      matches_rule] at h
    obtain ⟨c, ds, _, rfl, ⟨⟨type, rfl, htype⟩, _⟩, ⟨c, rfl, ⟨name, rfl, hname⟩, _⟩ | ⟨rfl, _⟩⟩ := h
    · exact ⟨fun n hn => by simp [rule?] at hn; exact hn ▸ hname.1,
        .cons (.rule rfl rfl htype) (.rule rfl rfl hname.2)⟩
    · exact ⟨fun n hn => by simp [rule?] at hn, .rule rfl rfl htype⟩
  | metaInstantiationExpr =>
    simp only [grammar, production, seqs, matches_seq_token, matches_seq_rule, matches_empty] at h
    obtain ⟨c, _, _, rfl, ⟨⟨cs, rfl, _⟩, _⟩, l, _, rfl, hl, c', _, _, rfl, ⟨⟨cs', rfl, _⟩, _⟩,
      l', _, rfl, hl', rfl, _⟩ := h
    exact ⟨⟨l, by simp [token?, hl]⟩, l', by simp [token?, hl, hl']⟩
  | metaContribution =>
    simp only [grammar, production, seqs, matches_seq_token, matches_seq_star, matches_empty] at h
    obtain ⟨l, _, rfl, hl, ds, _, _, rfl, hds, l', _, rfl, hl', rfl, _⟩ := h
    have hrules := (Iterates.all (I := fun _ => True) (P := IsRule) hds trivial (by
      intro _ _ _ _ hstep
      obtain ⟨c, rfl, hv⟩ := hstep
      exact ⟨trivial, fun d hd => List.mem_singleton.1 hd ▸ hv.isRule⟩)).2
    refine ⟨hasToken_head hl, l', ?_⟩
    rw [token?, if_neg (by rw [hl]; decide), token?_append hrules, token?, if_pos hl']
  | binaryOperator =>
    have htoken : ∃ l, cs = [.node (.token l) []] ∧ ∃ op ∈ binaryOperators, l.kind = op.1 := by
      rcases h with h | h | h | h | h | h | h | h | h | h | h <;> obtain ⟨⟨l, hl, rfl⟩, _⟩ := h <;>
        exact ⟨l, rfl, by simp [binaryOperators, show l.kind = _ from hl]⟩
    obtain ⟨l, rfl, op, hop, hl⟩ := htoken
    have hfound : (binaryOperators.find? fun op =>
        (token? op.1 [.node (.token l) []]).isSome).isSome = true :=
      List.find?_isSome.2 ⟨op, hop, by rw [token?, if_pos hl]; rfl⟩
    obtain ⟨found, hfound⟩ := Option.isSome_iff_exists.1 hfound
    exact ⟨found.2, by rw [getBinaryOperatorOf, hfound]; rfl⟩
  | expr =>
    simp only [grammar, production, seqs, oneOf, matches_alt, matches_seq_token, matches_seq_rule,
      matches_rule, matches_empty] at h
    intro operator ho
    rcases h with ⟨c, rfl, hc⟩ | ⟨c, rfl, hc⟩ | ⟨c, rfl, hc⟩ |
      ⟨l, _, rfl, _, c, _, _, rfl, hc, l', _, rfl, _, rfl, _⟩ | ⟨c, rfl, hc⟩ | ⟨c, rfl, hc⟩ |
      ⟨c, _, _, rfl, hc, o, _, _, rfl, hop, c', _, _, rfl, hc', rfl, _⟩
    case inr.inr.inr.inr.inr.inr =>
      -- the last alternative is the one with an operator
      obtain ⟨ds, rfl, _⟩ := hc.terminals
      obtain ⟨context, rfl, hcontext⟩ := hop.terminals
      simp [rule?] at ho
      exact ho ▸ hcontext
    all_goals
      obtain ⟨ds, rfl, _⟩ := hc.terminals
      simp [rule?] at ho
  | varDecl =>
    simp only [grammar, production, seqs, matches_seq_rule, matches_empty] at h
    obtain ⟨c, _, _, rfl, ⟨⟨type, rfl, htype⟩, _⟩, c', _, _, rfl,
        ⟨⟨name, rfl, hname⟩, _⟩, rfl, _⟩ := h
    exact ⟨type, name, by simp [rule?], htype, by simp [rule?], hname⟩
  | declStmt =>
    simp only [grammar, production, seqs, matches_seq_rule] at h
    obtain ⟨c, _, _, rfl, ⟨⟨varDecl, rfl, hvar⟩, _⟩, _⟩ := h
    exact ⟨varDecl, by simp [rule?], hvar⟩
  | _ => exact trivial

open GeneratedParser in
/-- A context is visited if the contexts in it are. -/
theorem visited_of_matches {r : Rule} {p p' : BasicParser} {cs : List Context}
    (h : Matches grammar.kind (fun r _ t _ => Visited r t) (grammar.production r) p cs p') :
    Visited r (.node (.rule r) cs) := by
  have hcs : ∀ c ∈ cs, Written c := fun c hc => by
    rcases h.mem c hc with ⟨l, rfl⟩ | ⟨_, _, _, hv⟩
    · exact written_token l []
    · exact hv.written
  have hterminals : Terminals r cs := terminals_of_matches h
  refine ⟨⟨cs, rfl, hterminals⟩, fun v => ?_⟩
  rw [nodesOf_rule, diagnosticsOf_rule, visit]
  exact writes_visitRule hterminals (writes_visitChildren hcs) v

/-- On every derived tree the visitor writes what the tree stands for and reports what is wrong
with it. -/
theorem visit_derived {r : Rule} {p p' : BasicParser} {t : Context}
    (h : Derives GeneratedParser.grammar (.rule r) p [t] p') (hp : p.admits r = true) :
    Written t :=
  (h.rule_induction_rule (Q := fun r _ t _ => Visited r t) GeneratedParser.depthContract_keeps
    (fun _ _ _ _ _ _ hm => visited_of_matches (hm.mono fun _ _ _ _ _ hv => hv.2.2)) hp).2.written

end LocalScopeVisitor

end Swy
