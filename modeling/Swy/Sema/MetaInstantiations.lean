import Swy.Sema.DependencyAnalysis
import Swy.Sema.SemaSafety
import Mathlib.Data.List.Perm.Basic

/-!
# The instantiations of a meta function

Which instantiations occur in the conditions and calculations of a meta declaration, which of them
its meta function looks up, and which of them `consumeMetaInstantiationsOf` is called with. The
analysis does not go into the branches of a meta-if (`branchInstantiations`), and the meta function
does not look up what is in the arguments of another instantiation (`argumentInstantiations`).
-/

namespace Swy

open Library

/-- The instantiation that is looked up. -/
def Reference.instantiation? : Reference → Option AST
  | function _ => none
  | instantiation inst => some inst

namespace AST

/-- The instantiations in a tree. -/
def instantiationsIn (a : AST) : List AST :=
  a.subtrees.filter fun t => AST.kind t = .metaInstantiationExpr

mutual
/-- The instantiations in the conditions of the meta-ifs and in the meta calculations. -/
def metaInstantiations : AST → List AST
  | .node n cs =>
    match n.node.data, cs with
    | .metaIfStmt, condition :: branches =>
      instantiationsIn condition ++ allMetaInstantiations branches
    | .metaCalculationStmt, cs => cs.flatMap instantiationsIn
    | _, cs => allMetaInstantiations cs
/-- `metaInstantiations` of each tree of a list. -/
def allMetaInstantiations : List AST → List AST
  | [] => []
  | c :: cs => metaInstantiations c ++ allMetaInstantiations cs
end

mutual
/-- Those of them that are in a branch of a meta-if. -/
def branchInstantiations : AST → List AST
  | .node n cs =>
    match n.node.data, cs with
    | .metaIfStmt, _ :: branches => allMetaInstantiations branches
    | .metaCalculationStmt, _ => []
    | _, cs => allBranchInstantiations cs
/-- `branchInstantiations` of each tree of a list. -/
def allBranchInstantiations : List AST → List AST
  | [] => []
  | c :: cs => branchInstantiations c ++ allBranchInstantiations cs
end

mutual
/-- The instantiations in the arguments of another one. -/
def argumentInstantiations : AST → List AST
  | .node n cs =>
    match n.node.data, cs with
    | .metaInstantiationExpr, cs => cs.flatMap instantiationsIn
    | _, cs => allArgumentInstantiations cs
/-- `argumentInstantiations` of each tree of a list. -/
def allArgumentInstantiations : List AST → List AST
  | [] => []
  | c :: cs => argumentInstantiations c ++ allArgumentInstantiations cs
end

mutual
/-- Those in the conditions of the meta-ifs and in the meta calculations. -/
def metaArgumentInstantiations : AST → List AST
  | .node n cs =>
    match n.node.data, cs with
    | .metaIfStmt, condition :: branches =>
      argumentInstantiations condition ++ allMetaArgumentInstantiations branches
    | .metaCalculationStmt, cs => allArgumentInstantiations cs
    | _, cs => allMetaArgumentInstantiations cs
/-- `metaArgumentInstantiations` of each tree of a list. -/
def allMetaArgumentInstantiations : List AST → List AST
  | [] => []
  | c :: cs => metaArgumentInstantiations c ++ allMetaArgumentInstantiations cs
end

/-- The instantiations that the meta function looks up. -/
def compiledInstantiations (a : AST) : List AST :=
  a.metaFunctionReferences.filterMap Reference.instantiation?

@[simp] theorem allMetaInstantiations_eq (cs : List AST) :
    allMetaInstantiations cs = cs.flatMap metaInstantiations := by
  induction cs with
  | nil => rfl
  | cons c cs ih => rw [allMetaInstantiations, ih, List.flatMap_cons]

@[simp] theorem allBranchInstantiations_eq (cs : List AST) :
    allBranchInstantiations cs = cs.flatMap branchInstantiations := by
  induction cs with
  | nil => rfl
  | cons c cs ih => rw [allBranchInstantiations, ih, List.flatMap_cons]

@[simp] theorem allArgumentInstantiations_eq (cs : List AST) :
    allArgumentInstantiations cs = cs.flatMap argumentInstantiations := by
  induction cs with
  | nil => rfl
  | cons c cs ih => rw [allArgumentInstantiations, ih, List.flatMap_cons]

@[simp] theorem allMetaArgumentInstantiations_eq (cs : List AST) :
    allMetaArgumentInstantiations cs = cs.flatMap metaArgumentInstantiations := by
  induction cs with
  | nil => rfl
  | cons c cs ih => rw [allMetaArgumentInstantiations, ih, List.flatMap_cons]

theorem consumeAllChildren_eq (cs : List AST) : consumeAllChildren cs = cs.flatMap consumeAll := by
  induction cs with
  | nil => rfl
  | cons c cs ih => rw [consumeAllChildren, ih, List.flatMap_cons]

theorem consumeAllMeta_eq (cs : List AST) : consumeAllMeta cs = cs.flatMap consumeMeta := by
  induction cs with
  | nil => rfl
  | cons c cs ih => rw [consumeAllMeta, ih, List.flatMap_cons]

theorem allReferences_eq (cs : List AST) : allReferences cs = cs.flatMap references := by
  induction cs with
  | nil => rfl
  | cons c cs ih => rw [allReferences, ih, List.flatMap_cons]

theorem allMetaReferences_eq (cs : List AST) :
    allMetaReferences cs = cs.flatMap metaReferences := by
  induction cs with
  | nil => rfl
  | cons c cs ih => rw [allMetaReferences, ih, List.flatMap_cons]

theorem instantiationsIn_node (n : ASTNode) (cs : List AST) :
    instantiationsIn (.node n cs) =
      (if n.node.kind = .metaInstantiationExpr then [.node n cs] else []) ++
        cs.flatMap instantiationsIn := by
  unfold instantiationsIn
  rw [Rose.subtrees, Rose.subtreesAll_eq, List.filter_cons, List.filter_flatMap, kind_node]
  by_cases hk : n.node.kind = .metaInstantiationExpr
  · rw [if_pos hk, if_pos (decide_eq_true hk)]
    rfl
  · rw [if_neg hk, if_neg fun h => hk (of_decide_eq_true h)]
    rfl

/-- `consumeAll` calls the consumer with all instantiations. -/
theorem consumeAll_eq (a : AST) : a.consumeAll = a.instantiationsIn := by
  induction a using Rose.ind with
  | h n cs ih =>
    rw [consumeAll, consumeAllChildren_eq, instantiationsIn_node, List.flatMap_congr ih]

/-! ## The analysis leaves out the branches -/

theorem flatMap_perm_append {cs : List AST} {f g h : AST → List AST}
    (hf : ∀ c ∈ cs, (f c).Perm (g c ++ h c)) :
    (cs.flatMap f).Perm (cs.flatMap g ++ cs.flatMap h) :=
  (List.Perm.flatMap_left cs hf).trans (List.flatMap_append_perm cs g h).symm

/-- Only at a meta-if something is left out. -/
theorem metaInstantiations_perm (a : AST) :
    a.metaInstantiations.Perm (a.consumeMeta ++ a.branchInstantiations) := by
  induction a using Rose.ind with
  | h n cs ih =>
    have hchildren : (allMetaInstantiations cs).Perm
        (consumeAllMeta cs ++ allBranchInstantiations cs) := by
      rw [allMetaInstantiations_eq, consumeAllMeta_eq, allBranchInstantiations_eq]
      exact flatMap_perm_append ih
    obtain ⟨⟨id, data⟩, decl, exportedDecls⟩ := n
    cases data with
    | metaIfStmt =>
      cases cs with
      | nil => exact hchildren
      | cons condition branches =>
        change (instantiationsIn condition ++ _).Perm (consumeAll condition ++ _)
        rw [consumeAll_eq]
        exact .refl _
    | metaCalculationStmt =>
      change (cs.flatMap instantiationsIn).Perm (consumeAll _ ++ [])
      rw [consumeAll_eq, instantiationsIn_node, List.append_nil]
      rfl
    | _ => exact hchildren

theorem consumeMeta_perm_iff (a : AST) :
    a.consumeMeta.Perm a.metaInstantiations ↔ a.branchInstantiations = [] := by
  have hperm := a.metaInstantiations_perm
  constructor
  · intro h
    have hlength := (h.trans hperm).length_eq
    rw [List.length_append] at hlength
    apply List.eq_nil_of_length_eq_zero
    omega
  · intro h
    rw [h, List.append_nil] at hperm
    exact hperm.symm

/-! ## The meta function leaves out the arguments -/

theorem filterMap_allReferences (cs : List AST) :
    (allReferences cs).filterMap Reference.instantiation? =
      cs.flatMap fun c => (references c).filterMap Reference.instantiation? := by
  rw [allReferences_eq, List.filterMap_flatMap]

/-- An expression or a statement looks up its instantiations but for those in the arguments of
another one. -/
theorem instantiationsIn_perm (a : AST) (hw : a.shape.WellShaped) :
    a.instantiationsIn.Perm
      (a.references.filterMap Reference.instantiation? ++ a.argumentInstantiations) := by
  induction a using Rose.ind with
  | h n cs ih =>
    rw [shape_node, Tree.wellShaped_node] at hw
    obtain ⟨hfit, hcs⟩ := hw
    have hchildren : (cs.flatMap instantiationsIn).Perm
        ((allReferences cs).filterMap Reference.instantiation? ++
          allArgumentInstantiations cs) := by
      rw [filterMap_allReferences, allArgumentInstantiations_eq]
      exact flatMap_perm_append fun c hc => ih c hc (hcs _ (List.mem_map_of_mem hc))
    rw [instantiationsIn_node]
    obtain ⟨⟨id, data⟩, decl, exportedDecls⟩ := n
    cases data with
    | declRefExpr name =>
      rcases cs with _ | ⟨c, cs⟩
      · have hnone : (references
            (.node ⟨⟨id, .declRefExpr name⟩, decl, exportedDecls⟩ [])).filterMap
            Reference.instantiation? = [] := by
          unfold references
          dsimp only
          split
          · split
            · rfl
            · rfl
          · rfl
        rw [hnone]
        exact .refl _
      · exact Bool.noConfusion hfit
    | metaInstantiationExpr => exact .refl _
    | ifStmt =>
      cases cs with
      | nil => exact hchildren
      | cons condition branches =>
        refine hchildren.trans (List.Perm.append_right _ ?_)
        change ((references condition ++ allReferences branches).filterMap _).Perm
          ((allReferences branches ++ references condition).filterMap _)
        exact List.perm_append_comm.filterMap _
    | _ => exact hchildren

theorem filterMap_allMetaReferences (cs : List AST) :
    (allMetaReferences cs).filterMap Reference.instantiation? =
      cs.flatMap fun c => (metaReferences c).filterMap Reference.instantiation? := by
  rw [allMetaReferences_eq, List.filterMap_flatMap]

/-- The same for the meta function. -/
theorem metaInstantiations_perm_references (a : AST) (hw : a.shape.WellShaped) :
    a.metaInstantiations.Perm
      (a.metaReferences.filterMap Reference.instantiation? ++ a.metaArgumentInstantiations) := by
  induction a using Rose.ind with
  | h n cs ih =>
    rw [shape_node, Tree.wellShaped_node] at hw
    have hcs : ∀ c ∈ cs, (AST.shape c).WellShaped := fun c hc => hw.2 _ (List.mem_map_of_mem hc)
    have hchildren {ds : List AST} (hds : ∀ d ∈ ds, d ∈ cs) : (allMetaInstantiations ds).Perm
        ((allMetaReferences ds).filterMap Reference.instantiation? ++
          allMetaArgumentInstantiations ds) := by
      rw [allMetaInstantiations_eq, filterMap_allMetaReferences, allMetaArgumentInstantiations_eq]
      exact flatMap_perm_append fun d hd => ih d (hds d hd) (hcs d (hds d hd))
    obtain ⟨⟨id, data⟩, decl, exportedDecls⟩ := n
    cases data with
    | metaIfStmt =>
      cases cs with
      | nil => exact hchildren fun d hd => hd
      | cons condition branches =>
        have hcondition := instantiationsIn_perm condition (hcs condition List.mem_cons_self)
        have hbranches := hchildren fun d hd => List.mem_cons_of_mem condition hd
        refine (hcondition.append hbranches).trans ?_
        change List.Perm _ ((allMetaReferences branches ++ references condition).filterMap
          Reference.instantiation? ++ (argumentInstantiations condition ++ _))
        rw [List.filterMap_append, List.append_assoc, List.append_assoc]
        have hcomm : ∀ p q r s : List AST, (p ++ (q ++ (r ++ s))).Perm (r ++ (p ++ (q ++ s))) := by
          intro p q r s
          exact ((List.perm_append_comm_assoc q r s).append_left p).trans
            (List.perm_append_comm_assoc p r (q ++ s))
        exact hcomm _ _ _ _
    | metaCalculationStmt =>
      change (cs.flatMap instantiationsIn).Perm
        ((allReferences cs).filterMap Reference.instantiation? ++ allArgumentInstantiations cs)
      rw [filterMap_allReferences, allArgumentInstantiations_eq]
      exact flatMap_perm_append fun c hc => instantiationsIn_perm c (hcs c hc)
    | _ => exact hchildren fun d hd => hd

/-! ## The meta declaration -/

/-- Arguments have no instantiations. -/
theorem metaInstantiations_argumentDeclList {a : AST} (hw : a.shape.WellShaped)
    (hk : AST.kind a = .argumentDeclList) :
    a.metaInstantiations = [] ∧ a.metaArgumentInstantiations = [] := by
  obtain ⟨⟨⟨id, data⟩, decl, exportedDecls⟩, cs⟩ := a
  cases data <;> try cases hk
  rw [shape_node, Tree.wellShaped_node] at hw
  obtain ⟨hfit, hcs⟩ := hw
  have hnone : ∀ c ∈ cs, metaInstantiations c = [] ∧ metaArgumentInstantiations c = [] := by
    intro c hc
    have harg : (AST.kind c).isArgumentDecl = true := by
      rw [← kind_shape]
      exact List.all_eq_true.1 hfit _ (List.mem_map_of_mem (List.mem_map_of_mem hc))
    have hleaf := hcs _ (List.mem_map_of_mem hc)
    obtain ⟨⟨⟨id, data⟩, decl, exportedDecls⟩, ds⟩ := c
    rw [shape_node] at hleaf
    have hchildren : ds = [] := by
      have hhas : data.kind.hasChildren = false := by
        cases data <;> first | rfl | exact Bool.noConfusion harg
      exact List.map_eq_nil_iff.1 (hleaf.leaf hhas)
    subst hchildren
    cases data <;> exact ⟨rfl, rfl⟩
  change allMetaInstantiations cs = [] ∧ allMetaArgumentInstantiations cs = []
  rw [allMetaInstantiations_eq, allMetaArgumentInstantiations_eq, List.flatMap_eq_nil_iff,
    List.flatMap_eq_nil_iff]
  exact ⟨fun c hc => (hnone c hc).1, fun c hc => (hnone c hc).2⟩

theorem metaInstantiations_perm_compiled {a : AST} (hw : a.shape.WellShaped)
    (hk : AST.kind a = .metaDecl) :
    a.metaInstantiations.Perm (a.compiledInstantiations ++ a.metaArgumentInstantiations) := by
  obtain ⟨⟨⟨id, data⟩, decl, exportedDecls⟩, cs⟩ := a
  cases data <;> try cases hk
  rename_i name
  have hshape := hw
  rw [shape_node] at hshape
  obtain ⟨args', contribution', hcs, hargs, -⟩ := hshape.metaDecl rfl
  rcases cs with _ | ⟨args, _ | ⟨contribution, _ | ⟨c, cs⟩⟩⟩
  · cases hcs
  · cases hcs
  · simp only [List.map_cons, List.map_nil, List.cons.injEq, and_true] at hcs
    have hwell := (Tree.wellShaped_node.1 hshape).2
    have hargsWell : (AST.shape args).WellShaped := hwell _ (by simp)
    have hcontribution : (AST.shape contribution).WellShaped := hwell _ (by simp)
    have hkind : AST.kind args = .argumentDeclList := by
      rw [← kind_shape, hcs.1]
      exact hargs
    obtain ⟨hnone, hnone'⟩ := metaInstantiations_argumentDeclList hargsWell hkind
    have hperm := metaInstantiations_perm_references contribution hcontribution
    have hoccur : metaInstantiations
        (.node ⟨⟨id, .metaDecl name⟩, decl, exportedDecls⟩ [args, contribution]) =
        metaInstantiations contribution := by
      change metaInstantiations args ++ (metaInstantiations contribution ++ []) = _
      rw [hnone, List.nil_append, List.append_nil]
    have harguments :
        metaArgumentInstantiations
          (.node ⟨⟨id, .metaDecl name⟩, decl, exportedDecls⟩ [args, contribution]) =
          metaArgumentInstantiations contribution := by
      change metaArgumentInstantiations args ++ (metaArgumentInstantiations contribution ++ []) = _
      rw [hnone', List.nil_append, List.append_nil]
    rw [hoccur, harguments]
    exact hperm
  · cases hcs

/-- The consumer is called with exactly the instantiations that occur in the conditions and
calculations of a meta declaration, if and only if none of them is in a branch of a meta-if, and
these are exactly the ones that the meta function looks up, if and only if moreover none of them is
in the arguments of another one. -/
theorem consumeMeta_exact {a : AST} (hw : a.shape.WellShaped) (hk : AST.kind a = .metaDecl) :
    (a.consumeMeta.Perm a.metaInstantiations ↔ a.branchInstantiations = []) ∧
    (a.consumeMeta.Perm a.compiledInstantiations ∧ a.consumeMeta.Perm a.metaInstantiations ↔
      a.branchInstantiations = [] ∧ a.metaArgumentInstantiations = []) := by
  refine ⟨a.consumeMeta_perm_iff, ?_⟩
  have hcompiled := metaInstantiations_perm_compiled hw hk
  constructor
  · rintro ⟨hlookup, hoccur⟩
    refine ⟨a.consumeMeta_perm_iff.1 hoccur, ?_⟩
    have hlength := ((hlookup.symm.trans hoccur).trans hcompiled).length_eq
    rw [List.length_append] at hlength
    apply List.eq_nil_of_length_eq_zero
    omega
  · rintro ⟨hbranch, harguments⟩
    have hoccur := a.consumeMeta_perm_iff.2 hbranch
    rw [harguments, List.append_nil] at hcompiled
    exact ⟨hoccur.trans hcompiled, hoccur⟩

/-- `e<>`. -/
def instantiationOfE : AST :=
  .node { node := ⟨18, .metaInstantiationExpr⟩ }
    [.node { node := ⟨19, .declRefExpr "e"⟩, decl := some ⟨1, .metaDecl "e"⟩ } []]

/-- `meta { e<>(); }`. -/
def callCalculation : AST :=
  .node { node := ⟨14, .metaCalculationStmt⟩ }
    [.node { node := ⟨15, .unscopedCompoundStmt⟩ }
      [.node { node := ⟨16, .expressionStmt⟩ }
        [.node { node := ⟨17, .callOperatorExpr⟩ } [instantiationOfE]]]]

/-- `m<int c> -> { ... m() -> {} }`. -/
def metaDeclWith (stmt : AST) : AST :=
  .node { node := ⟨7, .metaDecl "m"⟩ }
    [.node { node := ⟨8, .argumentDeclList⟩ } [.node { node := ⟨9, .namedArgumentDecl "c"⟩ } []],
      .node { node := ⟨10, .metaContribution⟩ }
        [stmt,
          .node { node := ⟨20, .functionDecl "m"⟩ }
            [.node { node := ⟨21, .argumentDeclList⟩ } [],
              .node { node := ⟨22, .compoundStmt⟩ } []]]]

/-- A calculation that is not in a branch. -/
theorem consumeMeta_exact_calculation :
    (metaDeclWith callCalculation).consumeMeta.Perm
        (metaDeclWith callCalculation).compiledInstantiations ∧
      (metaDeclWith callCalculation).consumeMeta.Perm
        (metaDeclWith callCalculation).metaInstantiations :=
  (consumeMeta_exact (a := metaDeclWith callCalculation) (by decide) rfl).2.2 ⟨rfl, rfl⟩

/-- `e<> -> { e() -> {} } m<int c> -> { meta if c { meta { e<>(); } } m() -> {} }`. -/
def metaIfProgram : AST :=
  .node { node := ⟨0, .compilationUnit⟩ }
    [.node { node := ⟨1, .metaDecl "e"⟩ }
      [.node { node := ⟨2, .argumentDeclList⟩ } [],
        .node { node := ⟨3, .metaContribution⟩ }
          [.node { node := ⟨4, .functionDecl "e"⟩ }
            [.node { node := ⟨5, .argumentDeclList⟩ } [],
              .node { node := ⟨6, .compoundStmt⟩ } []]]],
      metaDeclWith (.node { node := ⟨11, .metaIfStmt⟩ }
        [.node { node := ⟨12, .declRefExpr "c"⟩, decl := some ⟨9, .namedArgumentDecl "c"⟩ } [],
          .node { node := ⟨13, .metaContribution⟩ } [callCalculation]])]

/-- The program is accepted without a diagnostic. Nothing of `m` is consumed, but the meta function
looks up `e<>`. -/
theorem consumeMeta_not_branch :
    ∃ (t : Tree) (m : AST) (s : ASTLayoutReader.State), t.IsProgram ∧
      ASTLayoutReader.AcceptsUnit (fun _ _ => none) .compilationUnit t.encode
        .empty metaIfProgram s ∧
      SemaAnalysis.checkAST (.ofUnits [metaIfProgram] fun _ => none) metaIfProgram = .ok [] ∧
      m ∈ metaIfProgram.children ∧ AST.kind m = .metaDecl ∧ m.consumeMeta = [] ∧
      m.metaInstantiations = [instantiationOfE] ∧ ¬m.consumeMeta.Perm m.metaInstantiations ∧
      MetaCodegen.codegen (.ofUnits [metaIfProgram] fun _ => none) m (.initial .insideMetaDecl) =
        .error .instantiationIncomplete := by
  have hwell : metaIfProgram.shape.WellShaped := by decide
  have hread := ASTLayoutReader.consume_complete (fun _ _ => none) (p := .kind .compilationUnit)
    ⟨hwell, .inl rfl⟩ [] (.start .empty)
  have ha : (ASTLayoutReader.readTree (fun _ _ => none) metaIfProgram.shape (.start .empty)).1 =
    metaIfProgram := by rfl
  rw [List.append_nil, ha] at hread
  have haccept := ASTLayoutReader.AcceptsUnit.mk hread (by decide) (by decide)
  obtain ⟨m, hm, hkind, hconsumed, hinstantiations, hlookup⟩ : ∃ m ∈ metaIfProgram.children,
      AST.kind m = .metaDecl ∧ consumeMeta m = [] ∧ metaInstantiations m = [instantiationOfE] ∧
      (match MetaCodegen.codegen (.ofUnits [metaIfProgram] fun _ => none) m
          (.initial .insideMetaDecl) with
        | .error fault => decide (fault = .instantiationIncomplete)
        | .ok _ => false) = true :=
    ⟨_, .tail _ (.head _), rfl, rfl, rfl, by decide +kernel⟩
  refine ⟨metaIfProgram.shape, m, _, ⟨rfl, hwell, by decide, by decide⟩, haccept, rfl, hm, hkind,
    hconsumed, hinstantiations, fun hperm => ?_, ?_⟩
  · rw [hconsumed, hinstantiations] at hperm
    cases hperm.length_eq
  · split at hlookup
    next fault hfault => rw [hfault, of_decide_eq_true hlookup]
    next => cases hlookup

end AST

end Swy
