import Swy.Codegen.DefinedVariables
import Swy.Codegen.InitializedReads
import Swy.Codegen.ReadableUnits
import Swy.Sema.SemaSafety

/-!
# References that are dominated by the declaration

A meta function refers to the variable of a calculation only behind its declaration, for that is
where it has a value while the code is generated. But the generation goes through the branches of a
meta-if one after the other, and a run through one of them. So a reference is dominated by the
declaration iff every branch of a meta-if around the declaration is around the reference as well
(`runMetaFunction_declares_iff`).
-/

namespace Swy

open Library

/-! ## References and branches -/

/-- The addresses of the nodes. -/
def AST.ids (a : AST) : List NodeId := a.labels.map fun n => n.node.id

theorem AST.ids_node (n : ASTNode) (cs : List AST) :
    AST.ids (.node n cs) = n.node.id :: cs.flatMap AST.ids := by
  rw [AST.ids, Rose.labels_node, List.map_cons, List.map_flatMap]
  rfl

theorem AST.ids_subset {n : ASTNode} {c : AST} {cs : List AST} (hc : c ∈ cs) :
    c.ids ⊆ AST.ids (.node n cs) := by
  rw [AST.ids_node]
  exact fun x hx => List.mem_cons_of_mem _ (List.mem_flatMap.2 ⟨c, hc, hx⟩)

section

variable (d : NodeId)

mutual
/-- The references to the variable that are compiled with a statement. -/
def AST.stmtReferencesTo : AST → List NodeId
  | .node n cs =>
    match n.node.data, cs with
    | .compoundStmt, cs | .unscopedCompoundStmt, cs => allStmtReferencesTo cs
    | .returnStmt, [expr] | .expressionStmt, [expr] | .declStmt _, [expr] =>
      AST.referencesTo d expr
    | .ifStmt, [condition, trueBranch] =>
      AST.referencesTo d condition ++ stmtReferencesTo trueBranch
    | .ifStmt, [condition, trueBranch, falseBranch] =>
      AST.referencesTo d condition ++ (stmtReferencesTo trueBranch ++ stmtReferencesTo falseBranch)
    | _, _ => []
/-- The same of the statements of a list. -/
def AST.allStmtReferencesTo : List AST → List NodeId
  | [] => []
  | c :: cs => stmtReferencesTo c ++ allStmtReferencesTo cs
end

mutual
/-- The references to the variable that are compiled with the meta function: those in the conditions
of the meta-ifs and in the meta calculations. -/
def AST.metaReferencesTo : AST → List NodeId
  | .node n cs =>
    match n.node.data, cs with
    | .metaDecl _, _ | .metaUnit _, _ => []
    | .metaIfStmt, [condition, trueBranch] =>
      AST.referencesTo d condition ++ metaReferencesTo trueBranch
    | .metaIfStmt, [condition, trueBranch, falseBranch] =>
      AST.referencesTo d condition ++ (metaReferencesTo trueBranch ++ metaReferencesTo falseBranch)
    | .metaCalculationStmt, [stmt] => AST.stmtReferencesTo d stmt
    | .metaIfStmt, _ | .metaCalculationStmt, _ => []
    | _, cs => allMetaReferencesTo cs
/-- The same of the nodes of a list. -/
def AST.allMetaReferencesTo : List AST → List NodeId
  | [] => []
  | c :: cs => metaReferencesTo c ++ allMetaReferencesTo cs
end

end

mutual
/-- The branches of the meta-ifs. -/
def AST.metaBranches : AST → List AST
  | .node n cs =>
    match n.node.data, cs with
    | .metaDecl _, _ | .metaUnit _, _ => []
    | .metaIfStmt, [_, trueBranch] => trueBranch :: metaBranches trueBranch
    | .metaIfStmt, [_, trueBranch, falseBranch] =>
      trueBranch :: falseBranch :: (metaBranches trueBranch ++ metaBranches falseBranch)
    | .metaIfStmt, _ | .metaCalculationStmt, _ => []
    | _, cs => allMetaBranches cs
/-- The same of the nodes of a list. -/
def AST.allMetaBranches : List AST → List AST
  | [] => []
  | c :: cs => metaBranches c ++ allMetaBranches cs
end

/-- The variables that are declared in the meta calculations. -/
def AST.calculatedVariables (a : AST) : List NodeId :=
  (a.subtrees.filter fun t => AST.kind t = .metaCalculationStmt).flatMap fun t =>
    (t.labels.filter fun n => n.node.kind = .declStmt).map fun n => n.node.id

theorem AST.calculatedVariables_subset (a : AST) : a.calculatedVariables ⊆ a.ids := by
  intro d hd
  obtain ⟨t, ht, hd⟩ := List.mem_flatMap.1 hd
  obtain ⟨n, hn, rfl⟩ := List.mem_map.1 hd
  exact List.mem_map_of_mem
    ((Rose.labels_sublist (List.mem_filter.1 ht).1).subset (List.mem_filter.1 hn).1)

/-! ## Statements -/

section Statements

variable {d : NodeId}

theorem ASTNode.mem_referencesTo {n : ASTNode} {ref : NodeId} (h : ref ∈ n.referencesTo d) :
    ref = n.node.id ∧ ∃ decl ∈ n.decl, decl.id = d ∧
      (decl.kind ≠ .functionDecl ∧ decl.kind ≠ .globalConstantDecl) := by
  unfold ASTNode.referencesTo at h
  split at h
  · cases h
  · next decl hdecl =>
    rw [hdecl]
    split at h
    · next hk =>
      obtain ⟨rfl, hmem⟩ := (by simpa using h : decl.id = d ∧ ref = n.node.id)
      exact ⟨hmem, decl, rfl, rfl, by rw [hk]; decide⟩
    · next hk =>
      obtain ⟨rfl, hmem⟩ := (by simpa using h : decl.id = d ∧ ref = n.node.id)
      exact ⟨hmem, decl, rfl, rfl, by rw [hk]; decide⟩
    · cases h

theorem AST.mem_allReferencesTo {cs : List AST} {ref : NodeId} :
    ref ∈ AST.allReferencesTo d cs ↔ ∃ c ∈ cs, ref ∈ AST.referencesTo d c := by
  induction cs with
  | nil => simp [AST.allReferencesTo]
  | cons c cs ih => simp [AST.allReferencesTo, ih]

/-- What refers to the variable in an expression is a node of it, and is compiled. -/
theorem AST.mem_referencesTo (a : AST) {ref : NodeId} (h : ref ∈ a.referencesTo d) :
    ref ∈ a.ids ∧ ∃ decl ∈ a.compiledDecls, decl.id = d ∧
      (decl.kind ≠ .functionDecl ∧ decl.kind ≠ .globalConstantDecl) := by
  induction a using Rose.ind with
  | h n cs ih =>
    have child {c : AST} (hc : c ∈ cs) (h : ref ∈ c.referencesTo d) :
        ref ∈ AST.ids (.node n cs) ∧ ∃ decl ∈ AST.compiledDeclsAll cs, decl.id = d ∧
          (decl.kind ≠ .functionDecl ∧ decl.kind ≠ .globalConstantDecl) := by
      obtain ⟨hid, decl, hdecl, hspec⟩ := ih c hc h
      exact ⟨AST.ids_subset hc hid, decl, AST.mem_compiledDeclsAll.2 ⟨c, hc, hdecl⟩, hspec⟩
    obtain ⟨⟨id, data⟩, decl, exportedDecls⟩ := n
    cases data with
    | declRefExpr name =>
      obtain ⟨rfl, d', hd', hspec⟩ := ASTNode.mem_referencesTo h
      exact ⟨by simp [AST.ids_node], d', Option.mem_toList.2 hd', hspec⟩
    | binaryOperatorExpr op =>
      rcases cs with _ | ⟨left, _ | ⟨right, _ | ⟨c, cs⟩⟩⟩
      case cons.cons.nil =>
        rcases List.mem_append.1 h with h | h
        · exact child (by simp) h
        · exact child (by simp) h
      all_goals cases h
    | callOperatorExpr =>
      cases cs with
      | nil => cases h
      | cons callee args =>
        rcases List.mem_append.1 h with h | h
        · exact child List.mem_cons_self h
        · obtain ⟨c, hc, h⟩ := AST.mem_allReferencesTo.1 h
          exact child (List.mem_cons_of_mem _ hc) h
    | _ => cases h

theorem AST.mem_allStmtReferencesTo {cs : List AST} {ref : NodeId} :
    ref ∈ AST.allStmtReferencesTo d cs ↔ ∃ c ∈ cs, ref ∈ AST.stmtReferencesTo d c := by
  induction cs with
  | nil => simp [AST.allStmtReferencesTo]
  | cons c cs ih => simp [AST.allStmtReferencesTo, ih]

/-- The same of the references in a statement. -/
theorem AST.mem_stmtReferencesTo (a : AST) {ref : NodeId} (h : ref ∈ a.stmtReferencesTo d) :
    ref ∈ a.ids ∧ ∃ decl ∈ a.compiledDecls, decl.id = d ∧
      (decl.kind ≠ .functionDecl ∧ decl.kind ≠ .globalConstantDecl) := by
  induction a using Rose.ind with
  | h n cs ih =>
    have below {c : AST} (hc : c ∈ cs) (h : ref ∈ c.ids ∧ ∃ decl ∈ c.compiledDecls, decl.id = d ∧
        (decl.kind ≠ .functionDecl ∧ decl.kind ≠ .globalConstantDecl)) :
        ref ∈ AST.ids (.node n cs) ∧ ∃ decl ∈ AST.compiledDeclsAll cs, decl.id = d ∧
          (decl.kind ≠ .functionDecl ∧ decl.kind ≠ .globalConstantDecl) := by
      obtain ⟨hid, decl, hdecl, hspec⟩ := h
      exact ⟨AST.ids_subset hc hid, decl, AST.mem_compiledDeclsAll.2 ⟨c, hc, hdecl⟩, hspec⟩
    have expr {c : AST} (hc : c ∈ cs) (h : ref ∈ c.referencesTo d) :=
      below hc (AST.mem_referencesTo c h)
    have stmt {c : AST} (hc : c ∈ cs) (h : ref ∈ c.stmtReferencesTo d) := below hc (ih c hc h)
    obtain ⟨⟨id, data⟩, decl, exportedDecls⟩ := n
    cases data with
    | compoundStmt | unscopedCompoundStmt =>
      obtain ⟨c, hc, h⟩ := AST.mem_allStmtReferencesTo.1 h
      exact stmt hc h
    | returnStmt | expressionStmt | declStmt =>
      rcases cs with _ | ⟨e, _ | ⟨c, cs⟩⟩
      · cases h
      · exact expr List.mem_cons_self h
      · cases h
    | ifStmt =>
      rcases cs with _ | ⟨condition, _ | ⟨trueBranch, _ | ⟨falseBranch, _ | ⟨c, cs⟩⟩⟩⟩
      · cases h
      · cases h
      · rcases List.mem_append.1 h with h | h
        · exact expr (by simp) h
        · exact stmt (by simp) h
      · rcases List.mem_append.1 h with h | h
        · exact expr (by simp) h
        · rcases List.mem_append.1 h with h | h
          · exact stmt (by simp) h
          · exact stmt (by simp) h
      · cases h
    | _ => cases h

/-- Where the variable is not declared, every reference is reached and what does not terminate is
passed. -/
theorem AST.undeclared_of_not_mem (a : AST) (ha : d ∉ a.ids) (hfollows : AST.nothingFollows a) :
    a.undeclared d = ⟨a.stmtReferencesTo d, !a.terminates⟩ := by
  induction a using Rose.ind with
  | h n cs ih =>
    have stmt {c : AST} (hc : c ∈ cs) (h : AST.nothingFollows c) :=
      ih c hc (fun hmem => ha (AST.ids_subset hc hmem)) h
    have stmts (h : AST.nothingFollowsIn cs) : AST.allUndeclared d cs =
        ⟨AST.allStmtReferencesTo d cs, !AST.anyTerminates cs⟩ := by
      clear ih ha hfollows
      induction cs with
      | nil => rfl
      | cons c cs ih' =>
        obtain ⟨hc, hcs⟩ := Bool.and_eq_true_iff.1 h
        obtain ⟨hc, hlast⟩ := Bool.and_eq_true_iff.1 hc
        rw [AST.allUndeclared, stmt List.mem_cons_self hc,
          ih' (fun hx => stmt (List.mem_cons_of_mem _ hx)) hcs]
        rw [AST.allStmtReferencesTo, AST.anyTerminates, Undeclared.andThen]
        rcases Bool.or_eq_true_iff.1 hlast with hlast | hlast
        · rw [Bool.not_eq_true'] at hlast
          simp [hlast]
        · obtain rfl := List.isEmpty_iff.1 hlast
          simp [AST.allStmtReferencesTo, AST.anyTerminates]
    obtain ⟨⟨id, data⟩, decl, exportedDecls⟩ := n
    cases data with
    | compoundStmt | unscopedCompoundStmt => exact stmts hfollows
    | returnStmt | expressionStmt => rcases cs with _ | ⟨e, _ | ⟨c, cs⟩⟩ <;> rfl
    | declStmt name =>
      rcases cs with _ | ⟨e, _ | ⟨c, cs⟩⟩
      · rfl
      · have hne : id ≠ d := by
          rintro rfl
          exact ha (by simp [AST.ids_node])
        exact congrArg (Undeclared.mk _) (bne_iff_ne.2 hne)
      · rfl
    | ifStmt =>
      rcases cs with _ | ⟨condition, _ | ⟨trueBranch, _ | ⟨falseBranch, _ | ⟨c, cs⟩⟩⟩⟩
      · rfl
      · rfl
      · simp only [AST.undeclared, AST.stmtReferencesTo, AST.terminates, Undeclared.branch,
          Undeclared.skip, stmt (c := trueBranch) (by simp) hfollows, List.append_nil,
          Bool.or_true, Bool.not_false]
      · obtain ⟨htrue, hfalse⟩ : AST.nothingFollows trueBranch = true ∧
            AST.nothingFollows falseBranch = true := Bool.and_eq_true_iff.1 hfollows
        simp only [AST.undeclared, AST.stmtReferencesTo, AST.terminates, Undeclared.branch,
          stmt (c := trueBranch) (by simp) htrue, stmt (c := falseBranch) (by simp) hfalse,
          Bool.not_and]
      · rfl
    | _ => rfl

variable {ctx : IRContext} {known known' : List (List NodeId)}

/-- Where the variable has no value no reference to it is compiled. -/
theorem referencesTo_of_check {a : AST} {r : OperandKind × List (List NodeId)}
    (h : Check.codegenExpr ctx a known = some r) (hd : ¬ Known known d) :
    a.referencesTo d = [] := by
  rw [List.eq_nil_iff_forall_not_mem]
  intro ref href
  obtain ⟨-, decl, hdecl, rfl, hkind⟩ := AST.mem_referencesTo a href
  exact (Check.misses_codegenExpr ctx hkind a _ _ _ h hd).1 hdecl

/-- The same of a statement in which the variable is not declared. -/
theorem stmtReferencesTo_of_check {a : AST}
    (h : Check.codegenStmt ctx a known = some ((), known')) (hd : ¬ Known known d)
    (ha : d ∉ a.ids) : a.stmtReferencesTo d = [] ∧ ¬ Known known' d := by
  have hids (m : ASTNode) (hm : m ∈ a.labels) : m.node.id ≠ d := by
    rintro rfl
    exact ha (List.mem_map_of_mem hm)
  have hmisses := Check.misses_codegenStmt (n := ⟨d, .compoundStmt⟩) ctx ⟨nofun, nofun⟩ a hids
  refine ⟨List.eq_nil_iff_forall_not_mem.2 fun ref href => ?_, (hmisses _ _ _ h hd).2⟩
  obtain ⟨-, decl, hdecl, rfl, hkind⟩ := AST.mem_stmtReferencesTo a href
  exact (Check.misses_codegenStmt ctx hkind a hids _ _ _ h hd).1 hdecl

theorem allUndeclared_of_check {cs : List AST}
    (h : ∀ c ∈ cs, ∀ known known', Check.codegenStmt ctx c known = some ((), known') →
      ¬ Known known d → (c.undeclared d).references = [] ∧
        (Known known' d → (c.undeclared d).passes = false))
    {known known' : List (List NodeId)}
    (hcheck : Check.codegenStmts ctx cs known = some ((), known')) (hd : ¬ Known known d) :
    (AST.allUndeclared d cs).references = [] ∧
      (Known known' d → (AST.allUndeclared d cs).passes = false) := by
  induction cs generalizing known with
  | nil =>
    cases Check.pure_some.1 hcheck
    exact ⟨rfl, fun hknown => absurd hknown hd⟩
  | cons c cs ih =>
    obtain ⟨_, known₁, hc, hcs⟩ := Check.bind_some.1 hcheck
    obtain ⟨hrefs, hpasses⟩ := h c List.mem_cons_self _ _ hc hd
    rw [AST.allUndeclared, Undeclared.andThen, hrefs]
    by_cases hknown : Known known₁ d
    · rw [hpasses hknown]
      exact ⟨rfl, fun _ => rfl⟩
    · obtain ⟨hrefs', hpasses'⟩ := ih (fun x hx => h x (List.mem_cons_of_mem _ hx)) hcs hknown
      refine ⟨by simp [hrefs'], fun hknown' => ?_⟩
      rw [hpasses' hknown', Bool.and_false]

/-- No reference of a statement is reached without the declaration, and where the variable has a
value behind the statement, neither is its end. -/
theorem undeclared_of_check (a : AST) (ha : a.ScopesBranches) {known known' : List (List NodeId)}
    (h : Check.codegenStmt ctx a known = some ((), known')) (hd : ¬ Known known d) :
    (a.undeclared d).references = [] ∧ (Known known' d → (a.undeclared d).passes = false) := by
  induction a using Rose.ind generalizing known known' with
  | h n cs ih =>
    have hchild (c : AST) (hc : c ∈ cs) (known known' : List (List NodeId))
        (h : Check.codegenStmt ctx c known = some ((), known')) (hd : ¬ Known known d) :=
      ih c hc (ha.child hc) h hd
    obtain ⟨⟨id, data⟩, decl, exportedDecls⟩ := n
    cases data with
    | compoundStmt =>
      have hadds : Check.Adds (Check.codegenStmts ctx cs) :=
        Check.adds_codegenStmts fun c _ => Check.adds_codegenStmt c
      obtain ⟨rfl, known₁, hinner, -⟩ := Check.withValueScope_inv hadds h
      have hd' : ¬ Known ([] :: known') d := by simpa [Known] using hd
      exact ⟨(allUndeclared_of_check hchild hinner hd').1, fun hknown => absurd hknown hd⟩
    | unscopedCompoundStmt => exact allUndeclared_of_check hchild h hd
    | returnStmt =>
      rcases cs with _ | ⟨e, _ | ⟨c, cs⟩⟩
      · exact ⟨rfl, fun _ => rfl⟩
      · obtain ⟨kind, known₁, hexpr, -⟩ := Check.bind_some.1 h
        exact ⟨referencesTo_of_check hexpr hd, fun _ => rfl⟩
      · cases h
    | expressionStmt =>
      rcases cs with _ | ⟨e, _ | ⟨c, cs⟩⟩
      · cases h
      · obtain ⟨kind, known₁, hexpr, hpure⟩ := Check.bind_some.1 h
        cases Check.pure_some.1 hpure
        rw [Check.keeps_codegenExpr e _ _ _ hexpr]
        exact ⟨referencesTo_of_check hexpr hd, fun hknown => absurd hknown hd⟩
      · cases h
    | declStmt name =>
      rcases cs with _ | ⟨e, _ | ⟨c, cs⟩⟩
      · cases h
      · obtain ⟨kind, known₁, hexpr, h⟩ := Check.bind_some.1 h
        obtain ⟨kind', known₂, hload, h⟩ := Check.bind_some.1 h
        obtain ⟨_, known₃, hstore, hintroduce⟩ := Check.bind_some.1 h
        rw [Check.keeps_createStore _ _ _ hstore, Check.keeps_loadMemory _ _ _ hload,
          Check.keeps_codegenExpr e _ _ _ hexpr] at hintroduce
        refine ⟨referencesTo_of_check hexpr hd, fun hknown => ?_⟩
        show (id != d) = false
        by_contra hne
        have hne : id ≠ d := bne_iff_ne.1 (Bool.not_eq_false _ ▸ hne)
        exact (Check.misses_introduce (n := ⟨d, .compoundStmt⟩) hne _ _ _ hintroduce hd).2 hknown
      · cases h
    | ifStmt =>
      have hbranch (c : AST) (hc : c ∈ cs.tail) : c.kind = .compoundStmt :=
        ha _ (Rose.mem_subtrees_self _) rfl c hc
      rcases cs with _ | ⟨condition, _ | ⟨trueBranch, _ | ⟨falseBranch, _ | ⟨c, cs⟩⟩⟩⟩
      · cases h
      · cases h
      · obtain ⟨rfl, htrue, -, r, hcondition⟩ := Interpreter.codegenIfStructure_inv
          (fun _ => Interpreter.branch_inv (hbranch trueBranch (by simp)))
          (fun _ h => Check.Keeps.pure _ _ _ h) h
        have htrue := (hchild trueBranch (by simp) _ _ htrue hd).1
        refine ⟨?_, fun hknown => absurd hknown hd⟩
        simp [AST.undeclared, Undeclared.branch, Undeclared.skip, htrue,
          referencesTo_of_check hcondition hd]
      · obtain ⟨rfl, htrue, hfalse, r, hcondition⟩ := Interpreter.codegenIfStructure_inv
          (fun _ => Interpreter.branch_inv (hbranch trueBranch (by simp)))
          (fun _ => Interpreter.branch_inv (hbranch falseBranch (by simp))) h
        have htrue := (hchild trueBranch (by simp) _ _ htrue hd).1
        have hfalse := (hchild falseBranch (by simp) _ _ hfalse hd).1
        refine ⟨?_, fun hknown => absurd hknown hd⟩
        simp [AST.undeclared, Undeclared.branch, htrue, hfalse,
          referencesTo_of_check hcondition hd]
      · cases h
    | _ => cases h

end Statements

/-! ## Branches around the declaration -/

/-- What is said of some code that is generated where some declarations are known and that leaves
others known. If the variable has no value before, exactly those references are reached without the
declaration that a branch around the declaration is not around, and if it has one behind the code,
the end is reached without the declaration iff there is such a branch. -/
structure Located (d : NodeId) (known known' : List (List NodeId)) (ids refs : List NodeId)
    (branches : List AST) (x : Undeclared) : Prop where
  refs_ids : refs ⊆ ids
  branches_ids : ∀ b ∈ branches, b.ids ⊆ ids
  other : d ∉ ids → x = ⟨refs, true⟩
  unknown : ¬ Known known d → d ∉ ids → refs = [] ∧ ¬ Known known' d
  reached : ¬ Known known d → ∀ ref, ref ∈ x.references ↔
    ref ∈ refs ∧ ∃ b ∈ branches, d ∈ b.ids ∧ ref ∉ b.ids
  passed : ¬ Known known d → Known known' d →
    (x.passes = true ↔ ∃ b ∈ branches, d ∈ b.ids)

namespace Located

variable {d : NodeId} {known known₁ known₂ : List (List NodeId)} {ids ids' refs refs' : List NodeId}
  {branches branches' : List AST} {x y : Undeclared}

theorem mono (h : Located d known known₁ ids refs branches x) (hids : ids ⊆ ids') :
    Located d known known₁ ids' refs branches x where
  refs_ids := fun _ href => hids (h.refs_ids href)
  branches_ids := fun b hb _ hx => hids (h.branches_ids b hb hx)
  other := fun hd => h.other fun hmem => hd (hids hmem)
  unknown := fun hknown hd => h.unknown hknown fun hmem => hd (hids hmem)
  reached := h.reached
  passed := h.passed

theorem skip : Located d known known [] [] [] .skip where
  refs_ids := List.nil_subset _
  branches_ids := nofun
  other := fun _ => rfl
  unknown := fun hd _ => ⟨rfl, hd⟩
  reached := fun _ _ => iff_of_false List.not_mem_nil fun h => List.not_mem_nil h.1
  passed := fun hd hd' => absurd hd' hd

/-- No branch is around something that is not in the code. -/
theorem not_mem_branch (h : Located d known known₁ ids refs branches x) {id : NodeId}
    (hid : id ∉ ids) {b : AST} (hb : b ∈ branches) : id ∉ b.ids :=
  fun hmem => hid (h.branches_ids b hb hmem)

/-- In a calculation the declaration dominates every reference. -/
theorem calculation {ctx : IRContext} {stmt : AST} (ha : stmt.ScopesBranches)
    (hcheck : Check.codegenStmt ctx stmt known = some ((), known₁))
    (hfollows : AST.nothingFollows stmt) (hterm : stmt.terminates = false) :
    Located d known known₁ stmt.ids (stmt.stmtReferencesTo d) [] (stmt.undeclared d) where
  refs_ids := fun _ href => (AST.mem_stmtReferencesTo stmt href).1
  branches_ids := nofun
  other := fun hd => by rw [AST.undeclared_of_not_mem stmt hd hfollows, hterm, Bool.not_false]
  unknown := stmtReferencesTo_of_check hcheck
  reached := fun hknown ref => by
    rw [(undeclared_of_check stmt ha hcheck hknown).1]
    simp
  passed := fun hknown hknown₁ => by
    rw [(undeclared_of_check stmt ha hcheck hknown).2 hknown₁]
    simp

/-- Code behind other code. -/
theorem andThen (h : Located d known known₁ ids refs branches x)
    (h' : Located d known₁ known₂ ids' refs' branches' y) (hdisjoint : ids.Disjoint ids') :
    Located d known known₂ (ids ++ ids') (refs ++ refs') (branches ++ branches')
      (x.andThen y) := by
  have mem {ref : NodeId} : ref ∈ (x.andThen y).references ↔
      ref ∈ x.references ∨ x.passes = true ∧ ref ∈ y.references := by
    rw [Undeclared.andThen, List.mem_append]
    cases x.passes <;> simp
  refine ⟨?_, fun b hb => ?_, fun hd => ?_, fun hknown hd => ?_, fun hknown ref => ?_,
    fun hknown hknown₂ => ?_⟩
  · exact List.append_subset.2 ⟨fun _ hr => List.mem_append_left _ (h.refs_ids hr),
      fun _ hr => List.mem_append_right _ (h'.refs_ids hr)⟩
  · rcases List.mem_append.1 hb with hb | hb
    · exact fun _ hx => List.mem_append_left _ (h.branches_ids b hb hx)
    · exact fun _ hx => List.mem_append_right _ (h'.branches_ids b hb hx)
  · rw [List.mem_append, not_or] at hd
    rw [h.other hd.1, h'.other hd.2]
    rfl
  · rw [List.mem_append, not_or] at hd
    obtain ⟨rfl, hknown₁⟩ := h.unknown hknown hd.1
    obtain ⟨rfl, hknown₂⟩ := h'.unknown hknown₁ hd.2
    exact ⟨rfl, hknown₂⟩
  · rw [mem, List.mem_append]
    by_cases hd : d ∈ ids
    · -- The variable is declared in front: behind it every reference is reached.
      have hd' : d ∉ ids' := fun hmem => hdisjoint hd hmem
      have hvalue (href : ref ∈ refs') : Known known₁ d := by
        by_contra hknown₁
        rw [(h'.unknown hknown₁ hd').1] at href
        cases href
      rw [h'.other hd', h.reached hknown]
      constructor
      · rintro (⟨href, b, hb, hspec⟩ | ⟨hpasses, href⟩)
        · exact ⟨.inl href, b, List.mem_append_left _ hb, hspec⟩
        · obtain ⟨b, hb, hdb⟩ := (h.passed hknown (hvalue href)).1 hpasses
          refine ⟨.inr href, b, List.mem_append_left _ hb, hdb, fun hmem => ?_⟩
          exact hdisjoint (h.branches_ids b hb hmem) (h'.refs_ids href)
      · rintro ⟨href | href, b, hb, hdb, hspec⟩
        · rcases List.mem_append.1 hb with hb | hb
          · exact .inl ⟨href, b, hb, hdb, hspec⟩
          · exact absurd hdb (h'.not_mem_branch hd' hb)
        · rcases List.mem_append.1 hb with hb | hb
          · exact .inr ⟨(h.passed hknown (hvalue href)).2 ⟨b, hb, hdb⟩, href⟩
          · exact absurd hdb (h'.not_mem_branch hd' hb)
    · obtain ⟨rfl, hknown₁⟩ := h.unknown hknown hd
      rw [h.other hd, h'.reached hknown₁]
      constructor
      · rintro (href | ⟨-, href, b, hb, hspec⟩)
        · cases href
        · exact ⟨.inr href, b, List.mem_append_right _ hb, hspec⟩
      · rintro ⟨href | href, b, hb, hdb, hspec⟩
        · cases href
        · rcases List.mem_append.1 hb with hb | hb
          · exact absurd hdb (h.not_mem_branch hd hb)
          · exact .inr ⟨rfl, href, b, hb, hdb, hspec⟩
  · show (x.passes && y.passes) = true ↔ _
    by_cases hd : d ∈ ids
    · have hd' : d ∉ ids' := fun hmem => hdisjoint hd hmem
      have hknown₁ : Known known₁ d := by
        by_contra hknown₁
        exact (h'.unknown hknown₁ hd').2 hknown₂
      rw [h'.other hd', Bool.and_true, h.passed hknown hknown₁]
      constructor
      · rintro ⟨b, hb, hdb⟩
        exact ⟨b, List.mem_append_left _ hb, hdb⟩
      · rintro ⟨b, hb, hdb⟩
        rcases List.mem_append.1 hb with hb | hb
        · exact ⟨b, hb, hdb⟩
        · exact absurd hdb (h'.not_mem_branch hd' hb)
    · obtain ⟨-, hknown₁⟩ := h.unknown hknown hd
      rw [h.other hd, Bool.true_and, h'.passed hknown₁ hknown₂]
      constructor
      · rintro ⟨b, hb, hdb⟩
        exact ⟨b, List.mem_append_right _ hb, hdb⟩
      · rintro ⟨b, hb, hdb⟩
        rcases List.mem_append.1 hb with hb | hb
        · exact absurd hdb (h.not_mem_branch hd hb)
        · exact ⟨b, hb, hdb⟩

/-- The branches of a meta-if. The condition is generated last. -/
theorem branch {condition ids₀ : List NodeId} {trueBranch : AST} {falseBranch : Option AST}
    (hcondition : condition ⊆ ids₀) (hunknown : ¬ Known known₂ d → condition = [])
    (h : Located d known known₁ trueBranch.ids refs branches x)
    (h' : Located d known₁ known₂ (falseBranch.elim [] AST.ids) refs' branches' y)
    (hdisjoint : ids₀.Disjoint (trueBranch.ids ++ falseBranch.elim [] AST.ids))
    (hbranches : trueBranch.ids.Disjoint (falseBranch.elim [] AST.ids)) :
    Located d known known₂ (ids₀ ++ (trueBranch.ids ++ falseBranch.elim [] AST.ids))
      (condition ++ (refs ++ refs'))
      (trueBranch :: (falseBranch.toList ++ (branches ++ branches'))) (.branch condition x y) := by
  have mem {b : AST} : b ∈ trueBranch :: (falseBranch.toList ++ (branches ++ branches')) ↔
      b = trueBranch ∨ b ∈ falseBranch ∨ b ∈ branches ∨ b ∈ branches' := by simp
  have mem_ids {b : AST} (hb : b ∈ falseBranch) : b.ids = falseBranch.elim [] AST.ids := by
    rw [Option.mem_def.1 hb, Option.elim]
  have hnot {ref : NodeId} (href : ref ∈ condition) :
      ref ∉ trueBranch.ids ∧ ref ∉ falseBranch.elim [] AST.ids :=
    not_or.1 fun hmem => hdisjoint (hcondition href) (List.mem_append.2 hmem)
  have reached {ref : NodeId} : ref ∈ (Undeclared.branch condition x y).references ↔
      ref ∈ condition ∨ ref ∈ x.references ∨ ref ∈ y.references := by
    rw [Undeclared.branch, List.mem_append, List.mem_append]
  refine ⟨?_, fun b hb => ?_, fun hd => ?_, fun hknown hd => ?_, fun hknown ref => ?_,
    fun hknown hknown₂ => ?_⟩
  · refine List.append_subset.2 ⟨fun _ hr => List.mem_append_left _ (hcondition hr), ?_⟩
    exact List.append_subset.2
      ⟨fun _ hr => List.mem_append_right _ (List.mem_append_left _ (h.refs_ids hr)),
        fun _ hr => List.mem_append_right _ (List.mem_append_right _ (h'.refs_ids hr))⟩
  · intro id hid
    refine List.mem_append_right _ (List.mem_append.2 ?_)
    rcases mem.1 hb with rfl | hb | hb | hb
    · exact .inl hid
    · exact .inr (mem_ids hb ▸ hid)
    · exact .inl (h.branches_ids b hb hid)
    · exact .inr (h'.branches_ids b hb hid)
  · simp only [List.mem_append, not_or] at hd
    rw [h.other hd.2.1, h'.other hd.2.2]
    rfl
  · simp only [List.mem_append, not_or] at hd
    obtain ⟨rfl, hknown₁⟩ := h.unknown hknown hd.2.1
    obtain ⟨rfl, hknown₂⟩ := h'.unknown hknown₁ hd.2.2
    rw [hunknown hknown₂]
    exact ⟨rfl, hknown₂⟩
  · rw [reached, List.mem_append, List.mem_append]
    by_cases hd : d ∈ trueBranch.ids
    · -- Declared in the true branch: what is outside of it is reached without the declaration.
      have hd' : d ∉ falseBranch.elim [] AST.ids := fun hmem => hbranches hd hmem
      have htrue (href : ref ∉ trueBranch.ids) :
          ∃ b ∈ trueBranch :: (falseBranch.toList ++ (branches ++ branches')),
            d ∈ b.ids ∧ ref ∉ b.ids := ⟨trueBranch, List.mem_cons_self, hd, href⟩
      rw [h'.other hd', h.reached hknown]
      constructor
      · rintro (href | ⟨href, b, hb, hspec⟩ | href)
        · exact ⟨.inl href, htrue (hnot href).1⟩
        · exact ⟨.inr (.inl href), b, mem.2 (.inr (.inr (.inl hb))), hspec⟩
        · exact ⟨.inr (.inr href), htrue fun hmem => hbranches hmem (h'.refs_ids href)⟩
      · rintro ⟨href | href | href, b, hb, hdb, hspec⟩
        · exact .inl href
        · rcases mem.1 hb with rfl | hb | hb | hb
          · exact absurd (h.refs_ids href) hspec
          · exact absurd (mem_ids hb ▸ hdb) hd'
          · exact .inr (.inl ⟨href, b, hb, hdb, hspec⟩)
          · exact absurd hdb (h'.not_mem_branch hd' hb)
        · exact .inr (.inr href)
    · obtain ⟨rfl, hknown₁⟩ := h.unknown hknown hd
      rw [h.other hd, h'.reached hknown₁]
      by_cases hd' : d ∈ falseBranch.elim [] AST.ids
      · obtain ⟨f, hf⟩ : ∃ f, f ∈ falseBranch := by
          cases falseBranch with
          | none => cases hd'
          | some f => exact ⟨f, rfl⟩
        have hids : f.ids = falseBranch.elim [] AST.ids := mem_ids hf
        constructor
        · rintro (href | href | ⟨href, b, hb, hspec⟩)
          · refine ⟨.inl href, f, mem.2 (.inr (.inl hf)), ?_⟩
            rw [hids]
            exact ⟨hd', (hnot href).2⟩
          · cases href
          · exact ⟨.inr (.inr href), b, mem.2 (.inr (.inr (.inr hb))), hspec⟩
        · rintro ⟨href | href | href, b, hb, hdb, hspec⟩
          · exact .inl href
          · cases href
          · rcases mem.1 hb with rfl | hb | hb | hb
            · exact absurd hdb hd
            · exact absurd (h'.refs_ids href) (mem_ids hb ▸ hspec)
            · exact absurd hdb (h.not_mem_branch hd hb)
            · exact .inr (.inr ⟨href, b, hb, hdb, hspec⟩)
      · obtain ⟨rfl, hknown₂⟩ := h'.unknown hknown₁ hd'
        rw [hunknown hknown₂]
        simp
  · show (x.passes || y.passes) = true ↔ _
    by_cases hd : d ∈ trueBranch.ids
    · rw [h'.other fun hmem => hbranches hd hmem, Bool.or_true]
      exact iff_of_true rfl ⟨trueBranch, List.mem_cons_self, hd⟩
    · have hd' : d ∈ falseBranch.elim [] AST.ids := by
        by_contra hd'
        exact (h'.unknown (h.unknown hknown hd).2 hd').2 hknown₂
      rw [h.other hd, Bool.true_or]
      cases falseBranch with
      | none => cases hd'
      | some f => exact iff_of_true rfl ⟨f, mem.2 (.inr (.inl rfl)), hd'⟩

end Located

/-! ## The values of the meta code -/

section Values

variable {ctx : IRContext} {s s' : CodegenState}

/-- A branch starts and ends with the values of its code. -/
theorem codegenBranch_values {c : BlockId → CodegenM (Option BlockId)} {cont : Option BlockId}
    {r : BlockId × Option BlockId} (h : FunctionCodegen.codegenBranch cont c s = .ok (r, s')) :
    ∃ block s₁ r₁ s₂, s₁.values = s.values ∧ c block s₁ = .ok (r₁, s₂) ∧ s'.values = s₂.values := by
  obtain ⟨-, r₁, s₂, hc, ⟨-, -, rfl⟩ | ⟨b, c', s₃, -, hcont, -, rfl⟩⟩ := codegenBranch_inv h
  · exact ⟨_, s.enterBlock, r₁, s', rfl, hc, rfl⟩
  · refine ⟨_, s.enterBlock, r₁, s₂, rfl, hc, ?_⟩
    cases cont <;> cases hcont <;> rfl

/-- The branches are generated one after the other, and behind them the condition. -/
theorem codegenIfStructure_values {block : BlockId} {condition : AST}
    {c : BlockId → CodegenM (Option BlockId)} {d : Option (BlockId → CodegenM (Option BlockId))}
    {r : Option BlockId}
    (h : FunctionCodegen.codegenIfStructure ctx block condition c d s = .ok (r, s')) :
    (∃ kind known, Check.codegenExpr ctx condition s'.values = some (kind, known)) ∧
      ∃ block₁ s₁ r₁ s₂, s₁.values = s.values ∧ c block₁ s₁ = .ok (r₁, s₂) ∧
        (d = none → s'.values = s₂.values) ∧
        ∀ e, d = some e → ∃ block₂ s₃ r₂ s₄, s₃.values = s₂.values ∧ e block₂ s₃ = .ok (r₂, s₄) ∧
          s'.values = s₄.values := by
  rw [FunctionCodegen.codegenIfStructure] at h
  obtain ⟨p, s₁, htrue, h⟩ := CodegenM.bind_ok.1 h
  obtain ⟨p', s₂, hfalse, h⟩ := CodegenM.bind_ok.1 h
  obtain ⟨_, s₃, hpoint, h⟩ := CodegenM.bind_ok.1 h
  obtain ⟨o, s₄, hcondition, h⟩ := CodegenM.bind_ok.1 h
  obtain ⟨q, s₅, hnull, h⟩ := CodegenM.bind_ok.1 h
  obtain ⟨_, s₆, hterminate, h⟩ := CodegenM.bind_ok.1 h
  cases hpoint
  cases hterminate
  -- neither the condition nor what is behind it changes the values
  obtain ⟨kind, hkind, hrel⟩ := (codegenExpr_abstracts ctx condition).of_ok hcondition
  obtain ⟨_, hpred, -⟩ := (createIsNotNull_abstracts hrel).of_ok hnull
  have hvalues₄ : s₄.values = s₂.values := Check.keeps_codegenExpr condition _ _ _ hkind
  have hvalues₅ : s₅.values = s₄.values := Check.keeps_createIsNotNull _ _ _ hpred
  have hvalues : s'.values = s₂.values := by
    refine Eq.trans ?_ (hvalues₅.trans hvalues₄)
    cases hcont : p'.2 with
    | none =>
      rw [hcont] at h
      cases h
      rfl
    | some b =>
      rw [hcont] at h
      cases h
      rfl
  rw [hvalues]
  obtain ⟨block₁, s₇, r₁, s₈, hstart, hc, hend⟩ := codegenBranch_values htrue
  refine ⟨⟨kind, _, hkind⟩, block₁, s₇, r₁, s₈, hstart, hc, fun hd => ?_, fun e hd => ?_⟩
  · subst hd
    rw [← hend]
    cases hcont : p.2 <;> rw [hcont] at hfalse <;> cases hfalse <;> rfl
  · subst hd
    obtain ⟨block₂, s₉, r₂, s₁₀, hstart', he, hend'⟩ := codegenBranch_values hfalse
    exact ⟨block₂, s₉, r₂, s₁₀, hstart'.trans hend, he, hend'⟩

theorem keeps_introduceDecls (decls : List Node) : Check.Keeps (Check.introduceDecls decls) := by
  induction decls with
  | nil => exact .pure
  | cons decl decls ih => exact Check.keeps_lookupLocal.bind fun _ => .ite ih .failure

theorem introduceDecls_values {decls : List Node}
    (h : MetaCodegen.introduceDecls decls s = .ok ((), s')) : s'.values = s.values := by
  obtain ⟨_, hcheck, -⟩ := introduceDecls_abstracts.of_ok h
  exact keeps_introduceDecls decls _ _ _ hcheck

/-- A contributed node leaves the values to its children. -/
theorem codegenContributed_values {node : Node} {block : BlockId}
    {children : BlockId → CodegenM (Option BlockId)} {r : Option BlockId}
    (h : MetaCodegen.codegenContributed node block children s = .ok (r, s')) :
    ∃ s₁ s₂, s₁.values = s.values ∧ children block s₁ = .ok (r, s₂) ∧ s'.values = s₂.values := by
  have ascended {s₁ : CodegenState} {current : Option BlockId}
      (h : (do
        MetaCodegen.ascend node.kind
        return current : CodegenM (Option BlockId)) s₁ = .ok (r, s')) :
      current = r ∧ s'.values = s₁.values := by
    obtain ⟨_, s₂, hascend, h⟩ := CodegenM.bind_ok.1 h
    obtain ⟨rfl, rfl⟩ := CodegenM.pure_ok.1 h
    unfold MetaCodegen.ascend at hascend
    split at hascend <;> cases hascend
    exact ⟨rfl, rfl⟩
  obtain ⟨_, s₁, hdescend, h⟩ := CodegenM.bind_ok.1 h
  obtain ⟨_, s₂, hcontribute, h⟩ := CodegenM.bind_ok.1 h
  obtain ⟨current, s₃, hchildren, h⟩ := CodegenM.bind_ok.1 h
  have hvalues : s₂.values = s.values := by
    cases hcontribute
    unfold MetaCodegen.descend at hdescend
    split at hdescend <;> cases hdescend
    rfl
  by_cases hmarker : node.isNodeRequiringReduceMarker = true
  · rw [if_pos hmarker] at h
    obtain ⟨_, s₄, hreduce, h⟩ := CodegenM.bind_ok.1 h
    cases hreduce
    obtain ⟨rfl, hend⟩ := ascended h
    exact ⟨s₂, s₃, hvalues, hchildren, hend⟩
  · rw [if_neg hmarker] at h
    obtain ⟨rfl, hend⟩ := ascended h
    exact ⟨s₂, s₃, hvalues, hchildren, hend⟩

end Values

/-! ## The meta code -/

section MetaCode

variable {d : NodeId} {ctx : IRContext}

theorem nodup_children {n : ASTNode} {cs : List AST} (h : (AST.ids (.node n cs)).Nodup) :
    (cs.flatMap AST.ids).Nodup := by
  rw [AST.ids_node] at h
  exact (List.nodup_cons.1 h).2

theorem located_metas {cs : List AST}
    (h : ∀ c ∈ cs, c.ids.Nodup → ∀ block s r s',
      MetaCodegen.codegenMeta ctx block c s = .ok (r, s') → Located d s.values s'.values c.ids
        (c.metaReferencesTo d) c.metaBranches (c.metaUndeclared d))
    (hids : (cs.flatMap AST.ids).Nodup) {current : Option BlockId} {s s' : CodegenState}
    {r : Option BlockId}
    (hok : MetaCodegen.codegenChildrenContribution ctx current cs s = .ok (r, s')) :
    Located d s.values s'.values (cs.flatMap AST.ids) (AST.allMetaReferencesTo d cs)
      (AST.allMetaBranches cs) (AST.allMetaUndeclared d cs) := by
  induction cs generalizing current s with
  | nil =>
    obtain ⟨-, rfl⟩ := CodegenM.pure_ok.1 hok
    exact .skip
  | cons c cs ih =>
    obtain ⟨block, s₁, hblock, hrest⟩ := CodegenM.bind_ok.1 hok
    obtain ⟨r₁, s₂, hc, hrest⟩ := CodegenM.bind_ok.1 hrest
    obtain rfl : s₁ = s := by
      cases current <;> cases hblock
      rfl
    rw [List.flatMap_cons] at hids ⊢
    obtain ⟨hc', hcs', hdisjoint⟩ := List.nodup_append'.1 hids
    exact (h c List.mem_cons_self hc' _ _ _ _ hc).andThen
      (ih (fun x hx => h x (List.mem_cons_of_mem _ hx)) hcs' hrest) hdisjoint

/-- A meta-if. -/
theorem located_metaIf {n : ASTNode} {condition trueBranch : AST} (falseBranch : Option AST)
    {cs : List AST} (hcs : cs = condition :: trueBranch :: falseBranch.toList)
    (hids : (AST.ids (.node n cs)).Nodup) {refs refs' : List NodeId} {branches branches' : List AST}
    {x y : Undeclared} {known known₁ : List (List NodeId)} {s' : CodegenState}
    (hcondition : ∃ kind known, Check.codegenExpr ctx condition s'.values = some (kind, known))
    (h : Located d known known₁ trueBranch.ids refs branches x)
    (h' : Located d known₁ s'.values (falseBranch.elim [] AST.ids) refs' branches' y) :
    Located d known s'.values (AST.ids (.node n cs))
      (AST.referencesTo d condition ++ (refs ++ refs'))
      (trueBranch :: (falseBranch.toList ++ (branches ++ branches')))
      (.branch (AST.referencesTo d condition) x y) := by
  obtain ⟨kind, known₂, hcondition⟩ := hcondition
  have hchildren := nodup_children hids
  have hflat : cs.flatMap AST.ids =
      condition.ids ++ (trueBranch.ids ++ falseBranch.elim [] AST.ids) := by
    rw [hcs]
    cases falseBranch <;> simp
  rw [hflat] at hchildren
  obtain ⟨-, hbranches, hdisjoint⟩ := List.nodup_append'.1 hchildren
  obtain ⟨-, -, hbranches⟩ := List.nodup_append'.1 hbranches
  refine (Located.branch (fun _ href => (AST.mem_referencesTo condition href).1)
    (referencesTo_of_check hcondition) h h' hdisjoint hbranches).mono ?_
  rw [AST.ids_node, hflat]
  exact List.subset_cons_self _ _

/-- What the meta code of a node gets to without the declaration. -/
theorem located_codegenMeta (a : AST) (ha : a.ScopesBranches) (hids : a.ids.Nodup) :
    ∀ block s r s', MetaCodegen.codegenMeta ctx block a s = .ok (r, s') →
      Located d s.values s'.values a.ids (a.metaReferencesTo d) a.metaBranches
        (a.metaUndeclared d) := by
  induction a using Rose.ind with
  | h n cs ih =>
    intro block s r s' hok
    have child (c : AST) (hc : c ∈ cs) (hids : c.ids.Nodup) := ih c hc (ha.child hc) hids
    have below (c : AST) (hc : c ∈ cs) := child c hc
      ((List.nodup_flatMap.1 (nodup_children hids)).1 c hc)
    have hsubset : cs.flatMap AST.ids ⊆ AST.ids (.node n cs) := by
      rw [AST.ids_node]
      exact List.subset_cons_self _ _
    have metas {current : Option BlockId} {s₁ s₂ : CodegenState} {r : Option BlockId}
        (hok : MetaCodegen.codegenChildrenContribution ctx current cs s₁ = .ok (r, s₂)) :=
      (located_metas child (nodup_children hids) hok).mono hsubset
    obtain ⟨⟨id, data⟩, decl, exportedDecls⟩ := n
    cases data with
    | metaDecl name | metaUnit inst => cases hok
    | metaContribution => exact metas hok
    | metaIfStmt =>
      rcases cs with _ | ⟨condition, _ | ⟨trueBranch, _ | ⟨falseBranch, _ | ⟨c, cs⟩⟩⟩⟩
      · cases hok
      · cases hok
      · obtain ⟨hcondition, block₁, s₁, r₁, s₂, hstart, htrue, hend, -⟩ :=
          codegenIfStructure_values hok
        have htrue := below trueBranch (by simp) _ _ _ _ htrue
        rw [hstart, ← hend rfl] at htrue
        have hif := located_metaIf none rfl hids hcondition htrue .skip
        simp only [Option.toList_none, List.nil_append, List.append_nil] at hif
        exact hif
      · obtain ⟨hcondition, block₁, s₁, r₁, s₂, hstart, htrue, -, hfalse⟩ :=
          codegenIfStructure_values hok
        obtain ⟨block₂, s₃, r₂, s₄, hstart', hfalse, hend⟩ := hfalse _ rfl
        have htrue := below trueBranch (by simp) _ _ _ _ htrue
        have hfalse := below falseBranch (by simp) _ _ _ _ hfalse
        rw [hstart] at htrue
        rw [hstart', ← hend] at hfalse
        exact located_metaIf (some falseBranch) rfl hids hcondition htrue hfalse
      · cases hok
    | metaCalculationStmt =>
      rcases cs with _ | ⟨stmt, _ | ⟨c, cs⟩⟩
      · cases hok
      · obtain ⟨created, s₁, hregion, hok⟩ := CodegenM.bind_ok.1 hok
        obtain ⟨current, s₂, hstmt, hok⟩ := CodegenM.bind_ok.1 hok
        have hstart : s₁.values = s.values := by
          cases hregion
          rfl
        have hfollows := FunctionCodegen.nothingFollows_of_ok ctx stmt hstmt
        have hterm := FunctionCodegen.codegenStmt_isSome ctx hfollows hstmt
        obtain ⟨_, hcheck, -⟩ := (codegenStmt_abstracts ctx stmt hfollows created).of_ok hstmt
        cases current with
        | none => exact (CodegenM.throw_ok.1 hok).elim
        | some b =>
          obtain ⟨_, s₃, hintroduce, hok⟩ := CodegenM.bind_ok.1 hok
          obtain ⟨-, rfl⟩ := CodegenM.pure_ok.1 hok
          have hterm : AST.terminates stmt = false := Bool.not_eq_true' _ ▸ hterm.symm
          rw [introduceDecls_values hintroduce, ← hstart]
          exact (Located.calculation (ha.child List.mem_cons_self) hcheck hfollows hterm).mono
            (AST.ids_subset List.mem_cons_self)
      · cases hok
    | _ =>
      obtain ⟨s₁, s₂, hstart, hchildren, hend⟩ := codegenContributed_values hok
      rw [← hstart, hend]
      exact metas hchildren

/-- In the meta function exactly those references are reached without the declaration that a branch
around the declaration is not around. -/
theorem mem_references_metaUndeclared {args contribution : AST} {cursor : ASTCursor}
    {s : CodegenState}
    (h : MetaCodegen.codegenMetaFunction ctx args contribution (.initial cursor) = .ok ((), s))
    (ha : contribution.ScopesBranches) (hids : contribution.ids.Nodup)
    (hargs : ∀ arg ∈ args.children, ∀ m ∈ arg.labels, m.node.id ≠ d) (ref : NodeId) :
    ref ∈ (contribution.metaUndeclared d).references ↔ ref ∈ contribution.metaReferencesTo d ∧
      ∃ branch ∈ contribution.metaBranches, d ∈ branch.ids ∧ ref ∉ branch.ids := by
  obtain ⟨s', h, -⟩ := codegenMetaFunction_ok ctx h
  obtain ⟨_, s₁, hstore, h⟩ := CodegenM.bind_ok.1 h
  obtain ⟨_, s₂, hintroduce, h⟩ := CodegenM.bind_ok.1 h
  obtain ⟨r, s₃, hmeta, -⟩ := CodegenM.bind_ok.1 h
  have hunknown : ¬ Known s₁.values d := by
    obtain ⟨_, hcheck, -⟩ := (storeArguments_abstracts args.children 0).of_ok hstore
    exact (Check.misses_storeArguments (n := ⟨d, .compoundStmt⟩) hargs _ _ _ hcheck
      (by simp [Known, FunctionCodegen.entered])).2
  rw [← introduceDecls_values hintroduce] at hunknown
  exact (located_codegenMeta contribution ha hids _ _ _ _ hmeta).reached hunknown ref

end MetaCode

/-! ## Runs of the meta function -/

section Runs

variable {ctx : IRContext}

theorem AST.ids_eq (a : AST) : a.ids = a.shape.labels.map Node.id := by
  rw [AST.shape, Rose.labels_map, List.map_map]
  rfl

/-- The nodes of a meta declaration have addresses of their own. -/
theorem metaDecl_ids {program : AST} (hp : program.shape.IsProgram) {a : AST}
    (ha : a ∈ program.children) : a.ids.Nodup := by
  obtain ⟨root, decls⟩ := program
  have hmem : AST.shape a ∈ decls.map AST.shape := List.mem_map_of_mem ha
  have hdistinct := hp.distinct
  rw [AST.shape_node] at hdistinct
  rw [AST.ids_eq]
  exact hdistinct.sublist ((Rose.labels_sublist (Rose.child_mem_subtrees hmem)).map Node.id)

/-- In every run of the meta function a reference is only reached behind the declaration of the
variable of a calculation, its allocation and the store of its initial value, iff every branch of a
meta-if around the declaration is around the reference as well. -/
theorem runMetaFunction_declares_iff {program : AST} (hp : program.shape.IsProgram) {n : ASTNode}
    {args contribution : AST} (hdecl : .node n [args, contribution] ∈ program.children)
    (hk : n.node.kind = .metaDecl) {metaFunction : CodegenState}
    (hmeta : MetaCodegen.codegen ctx (.node n [args, contribution]) (.initial .insideMetaDecl) =
      .ok ((), metaFunction))
    {d : NodeId} (hd : d ∈ contribution.calculatedVariables) (ref : NodeId) :
    (∀ rt fuel arguments trace,
      CodeExecutor.runMetaFunction rt fuel metaFunction.blocks arguments = some trace →
        DeclaredBefore d ref trace) ↔
      (ref ∈ contribution.metaReferencesTo d →
        ∀ branch ∈ contribution.metaBranches, d ∈ branch.ids → ref ∈ branch.ids) := by
  obtain ⟨-, -, hderived, -⟩ := metaDecl_parts hp hdecl hk
  have hids := metaDecl_ids hp hdecl
  have hflat : [args, contribution].flatMap AST.ids = args.ids ++ contribution.ids := by simp
  rw [AST.ids_node, hflat] at hids
  obtain ⟨hargs, hcontribution, hdisjoint⟩ := List.nodup_append'.1 (List.nodup_cons.1 hids).2
  have hd := AST.calculatedVariables_subset contribution hd
  have hargs (arg : AST) (harg : arg ∈ args.children) (m : ASTNode) (hm : m ∈ arg.labels) :
      m.node.id ≠ d := by
    rintro rfl
    refine hdisjoint ?_ hd
    obtain ⟨root, children⟩ := args
    exact AST.ids_subset harg (List.mem_map_of_mem hm)
  have hmem := mem_references_metaUndeclared hmeta
    (AST.scopesBranches_of_derived contribution hderived) hcontribution hargs ref
  have hanalysed (arguments : List Word) := analysed_execMetaFunction ctx arguments contribution
    fun arg harg => hargs arg harg arg.label (Rose.label_mem_labels (Rose.mem_subtrees_self arg))
  constructor
  · intro hruns href branch hbranch hdb
    by_contra hout
    obtain ⟨outcomes, hreached⟩ := (hanalysed []).reaches ref
      (hmem.2 ⟨href, branch, hbranch, hdb, hout⟩)
    obtain ⟨m, ⟨fuel, hhalts⟩, htrace⟩ :=
      codegenMetaFunction_halts (.ofOutcomes outcomes) [] ctx hmeta
    have hrun : CodeExecutor.runMetaFunction (.ofOutcomes outcomes) fuel metaFunction.blocks [] =
        some m.trace := by
      rw [CodeExecutor.runMetaFunction, hhalts fuel (Nat.le_refl _)]
    have hreached := hreached (.ofOutcomes outcomes) (Runtime.ofOutcomes outcomes).memory
      (Runtime.follows_ofOutcomes [] outcomes)
    rw [← htrace] at hreached
    exact hreached.not_declaredBefore (hruns _ _ _ _ hrun)
  · intro hdominated rt fuel arguments trace hrun
    rw [runMetaFunction_eq hmeta hrun]
    refine (hanalysed arguments).declared ref (fun href => ?_) rt rt.memory
    obtain ⟨href, branch, hbranch, hdb, hout⟩ := hmem.1 href
    exact hout (hdominated href branch hbranch hdb)

end Runs

/-! ## A variable of a branch that was not taken -/

namespace BranchVariable

/-- `c` -/
def parameter : AST :=
  .node { node := ⟨7, .declRefExpr "c"⟩, decl := some ⟨3, .namedArgumentDecl "c"⟩ } []

/-- `x` -/
def reference (id : NodeId) : AST :=
  .node { node := ⟨id, .declRefExpr "x"⟩, decl := some ⟨12, .declStmt "x"⟩ } []

def literal (id : NodeId) (value : Word) : AST :=
  .node { node := ⟨id, .integerLiteralExpr value⟩ } []

/-- `a < b` -/
def lessThan (id : NodeId) (left right : AST) : AST :=
  .node { node := ⟨id, .binaryOperatorExpr .lessThan⟩ } [left, right]

def args : AST :=
  .node { node := ⟨2, .argumentDeclList⟩ } [.node { node := ⟨3, .namedArgumentDecl "c"⟩ } []]

/-- `meta { int x = 1; x = 2; }` -/
def calculation : AST :=
  .node { node := ⟨10, .metaCalculationStmt⟩, exportedDecls := [⟨12, .declStmt "x"⟩] }
    [.node { node := ⟨11, .unscopedCompoundStmt⟩ }
      [.node { node := ⟨12, .declStmt "x"⟩ } [literal 13 1],
        .node { node := ⟨14, .expressionStmt⟩ }
          [.node { node := ⟨15, .binaryOperatorExpr .assign⟩ } [reference 16, literal 17 2]]]]

/-- `{ meta if c < 1 { meta { int x = 1; x = 2; } } meta if x < 1 { } m() -> { } }` -/
def contribution : AST :=
  .node { node := ⟨4, .metaContribution⟩ }
    [.node { node := ⟨5, .metaIfStmt⟩ } [lessThan 6 parameter (literal 8 1),
        .node { node := ⟨9, .metaContribution⟩ } [calculation]],
      .node { node := ⟨18, .metaIfStmt⟩ } [lessThan 19 (reference 20) (literal 21 1),
        .node { node := ⟨22, .metaContribution⟩ } []],
      .node { node := ⟨23, .functionDecl "m"⟩ } [.node { node := ⟨24, .argumentDeclList⟩ } [],
        .node { node := ⟨25, .compoundStmt⟩ } []]]

/-- `m<int c> -> contribution` -/
def decl : AST := .node { node := ⟨1, .metaDecl "m"⟩ } [args, contribution]

/-- `f() -> { m<1>(); }` -/
def caller : AST :=
  .node { node := ⟨26, .functionDecl "f"⟩ } [.node { node := ⟨27, .argumentDeclList⟩ } [],
    .node { node := ⟨28, .compoundStmt⟩ } [.node { node := ⟨29, .expressionStmt⟩ }
      [.node { node := ⟨30, .callOperatorExpr⟩ } [.node { node := ⟨31, .metaInstantiationExpr⟩ }
        [.node { node := ⟨32, .declRefExpr "m"⟩, decl := some ⟨1, .metaDecl "m"⟩ } [],
          literal 33 1]]]]]

def program : AST := .node { node := ⟨0, .compilationUnit⟩ } [decl, caller]

end BranchVariable

open BranchVariable in
/-- The assignment in the branch is only reached behind the declaration, the condition behind the
meta-if is not. -/
theorem runMetaFunction_declares_iff_branch :
    let ctx : IRContext := .ofUnits [program] fun _ => none
    ∃ metaFunction, MetaCodegen.codegen ctx decl (.initial .insideMetaDecl) =
        .ok ((), metaFunction) ∧
      (∀ rt fuel arguments trace,
        CodeExecutor.runMetaFunction rt fuel metaFunction.blocks arguments = some trace →
          DeclaredBefore 12 16 trace) ∧
      ¬ ∀ rt fuel arguments trace,
        CodeExecutor.runMetaFunction rt fuel metaFunction.blocks arguments = some trace →
          DeclaredBefore 12 20 trace := by
  intro ctx
  have hp : program.shape.IsProgram := ⟨rfl, by decide, by decide, by decide⟩
  obtain ⟨metaFunction, hmeta⟩ := exists_of_isOk (c := MetaCodegen.codegen ctx decl)
    (s := .initial .insideMetaDecl) (by decide +kernel)
  have hiff := runMetaFunction_declares_iff hp List.mem_cons_self rfl hmeta (d := 12)
    (by decide +kernel)
  refine ⟨metaFunction, hmeta, (hiff 16).2 (by decide +kernel), fun h => ?_⟩
  have hdominated := (hiff 20).1 h
  revert hdominated
  decide +kernel

open BranchVariable in
/-- `m<int c> -> { meta if c < 1 { meta { int x = 1; x = 2; } } meta if x < 1 { } m() -> { } }` and
`f() -> { m<1>(); }` are accepted without a diagnostic. For 1 the branch is not taken, and the
condition behind it refers to a variable that was not declared. -/
theorem runMetaFunction_not_declares :
    let ctx : IRContext := .ofUnits [program] fun _ => none
    ∃ (t : Tree) (s : ASTLayoutReader.State), t.IsProgram ∧
      ASTLayoutReader.AcceptsUnit (fun _ _ => none) .compilationUnit t.encode .empty program s ∧
      SemaAnalysis.checkAST ctx program = .ok [] ∧ decl ∈ program.children ∧
      12 ∈ contribution.calculatedVariables ∧ 20 ∈ contribution.metaReferencesTo 12 ∧
      ∃ metaFunction, MetaCodegen.codegen ctx decl (.initial .insideMetaDecl) =
          .ok ((), metaFunction) ∧
        ∃ rt fuel trace, rt.branchesOnCondition ∧
          CodeExecutor.runMetaFunction rt fuel metaFunction.blocks [1] = some trace ∧
          ¬ DeclaredBefore 12 20 trace := by
  intro ctx
  have hwell : program.shape.WellShaped := by decide
  have hread := ASTLayoutReader.consume_complete (fun _ _ => none) (p := .kind .compilationUnit)
    ⟨hwell, .inl rfl⟩ [] (.start .empty)
  have ha : (ASTLayoutReader.readTree (fun _ _ => none) program.shape (.start .empty)).1 =
    program := by rfl
  rw [List.append_nil, ha] at hread
  have haccept := ASTLayoutReader.AcceptsUnit.mk hread (by decide) (by decide)
  have hmeta := eq_ok_of_isOk (c := MetaCodegen.codegen ctx decl)
    (s := .initial .insideMetaDecl) (by decide +kernel)
  let rt : Runtime := ⟨fun _ _ => 0, fun _ condition => condition != 0, fun _ => 0⟩
  have hrun : (CodeExecutor.runMetaFunction rt 40 ((MetaCodegen.codegen ctx decl
      (.initial .insideMetaDecl)).toOption.getD ((), .initial .insideMetaDecl)).2.blocks [1]).map
        (fun trace => decide (.reference 20 12 ∈ trace ∧ .alloca 12 ∉ trace)) = some true := by
    decide +kernel
  obtain ⟨trace, htrace, hevents⟩ := Option.map_eq_some_iff.1 hrun
  obtain ⟨href, halloca⟩ := of_decide_eq_true hevents
  exact ⟨program.shape, _, ⟨rfl, hwell, by decide, by decide⟩, haccept, rfl, List.mem_cons_self,
    by decide +kernel, by decide +kernel, _, hmeta, rt, 40, trace, fun _ _ => rfl, htrace,
    (ReachedUndeclared.of_mem href halloca).not_declaredBefore⟩

end Swy
