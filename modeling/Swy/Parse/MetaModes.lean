import Swy.Parse.ASTLayout
import Swy.Parse.LayoutTree
import Swy.Parse.Grammar

/-!
# The modes of the reader

Reading the layout of a program enters the meta decl mode only outside of any mode, and the
computation mode only inside of the meta decl mode (`readTree_program_modes`): the modes of the
reader follow the depths at which the nodes were derived.
-/

namespace Swy

open Library ASTLayoutReader

/-- The assertions on the mode. -/
def BuilderAssertion.isModeAssertion : BuilderAssertion → Bool
  | .enterMetaDeclMode | .enterMetaComputationMode => true
  | _ => false

/-- The one builder became the other one without a failed assertion on the mode, and is in the same
mode again. -/
structure KeepsModes (b b' : BasicASTBuilder) : Prop where
  mode : b'.metaDeclMode = b.metaDeclMode
  asserted : ∀ a ∈ b'.failedAssertions, a.isModeAssertion = true → a ∈ b.failedAssertions

namespace KeepsModes

variable {b b' b'' : BasicASTBuilder} {similarTo : ScopeChain → Identifier → Option Node}

theorem refl (b : BasicASTBuilder) : KeepsModes b b := ⟨rfl, fun _ h _ => h⟩

theorem trans (h : KeepsModes b b') (h' : KeepsModes b' b'') : KeepsModes b b'' :=
  ⟨h'.mode.trans h.mode, fun a ha hm => h.asserted a (h'.asserted a ha hm) hm⟩

/-- An action on what is neither the mode nor the list of failed assertions. -/
theorem of_eq (hmode : b'.metaDeclMode = b.metaDeclMode)
    (hfailed : b'.failedAssertions = b.failedAssertions) : KeepsModes b b' :=
  ⟨hmode, fun _ ha _ => hfailed ▸ ha⟩

theorem fail {a : BuilderAssertion} (ha : a.isModeAssertion = false) (b : BasicASTBuilder) :
    KeepsModes b (b.fail a) := by
  refine ⟨rfl, fun a' ha' hm => ?_⟩
  rcases List.mem_append.1 ha' with h | h
  · exact h
  · rw [List.mem_singleton.1 h, ha] at hm
    cases hm

theorem require {a : BuilderAssertion} (ha : a.isModeAssertion = false) (c : Bool)
    (b : BasicASTBuilder) : KeepsModes b (b.require c a) := by
  unfold BasicASTBuilder.require
  split
  · exact .refl b
  · exact .fail ha b

theorem diagnose (d : Diagnostic) (b : BasicASTBuilder) : KeepsModes b (b.diagnose d) :=
  .of_eq rfl rfl

theorem setScope (s : ScopeChain) (b : BasicASTBuilder) : KeepsModes b (b.setScope s) :=
  .of_eq rfl rfl

theorem setContainingUnit (id : NodeId) (unit : Node) (b : BasicASTBuilder) :
    KeepsModes b (b.setContainingUnit id unit) := .of_eq rfl rfl

theorem setUnitScope (id : NodeId) (scope : ScopeChain) (b : BasicASTBuilder) :
    KeepsModes b (b.setUnitScope id scope) := .of_eq rfl rfl

theorem setExportedNode (id : NodeId) (decl : Node) (b : BasicASTBuilder) :
    KeepsModes b (b.setExportedNode id decl) := .of_eq rfl rfl

theorem enterTemporaryScope (b : BasicASTBuilder) : KeepsModes b b.enterTemporaryScope :=
  (require rfl _ b).trans (setScope _ _)

theorem enterInplaceScope (b : BasicASTBuilder) : KeepsModes b b.enterInplaceScope :=
  (require rfl _ b).trans (setScope _ _)

theorem enterConsistentScope (parent : ScopeChain) (b : BasicASTBuilder) :
    KeepsModes b (b.enterConsistentScope parent) :=
  (require rfl _ b).trans (setScope _ _)

theorem lookup (name : Identifier) (b : BasicASTBuilder) :
    KeepsModes b (b.lookup similarTo name).2 := by
  have hscope : KeepsModes b b.requireScope := require rfl _ b
  unfold BasicASTBuilder.lookup
  simp only
  split
  · exact hscope
  · split
    · exact hscope.trans (diagnose _ _)
    · exact (hscope.trans (diagnose _ _)).trans (diagnose _ _)

theorem insert (name : Identifier) (n : Node) (b : BasicASTBuilder) :
    KeepsModes b (b.insert name n) :=
  (require rfl _ b).trans (setScope _ _)

theorem rejectDecl (name : Identifier) (n previous : Node) (b : BasicASTBuilder) :
    KeepsModes b (b.rejectDecl name n previous) :=
  ((require rfl _ b).trans (diagnose _ _)).trans (diagnose _ _)

theorem isModeAssertion_of_shadowing {heap : ASTHeap} {n previous : Node} {a : BuilderAssertion}
    (h : BasicASTBuilder.isAllowedToShadowDecl heap n previous = .error a) :
    a.isModeAssertion = false := by
  unfold BasicASTBuilder.isAllowedToShadowDecl BasicASTBuilder.isShadowingDeclFromExportedNode at h
  split at h
  · cases h
  · split at h
    · cases h
    · split at h
      · cases h
        rfl
      · split at h
        · split at h
          · cases h
            rfl
          · split at h <;> cases h
        · cases h

theorem introduce (n : Node) (b : BasicASTBuilder) : KeepsModes b (b.introduce n) := by
  have hscope : KeepsModes b b.requireScope := require rfl _ b
  unfold BasicASTBuilder.introduce
  split
  · exact .refl b
  · split
    · exact .refl b
    · simp only
      split
      · exact hscope.trans (insert _ _ _)
      · split
        · exact hscope.trans (insert _ _ _)
        · exact hscope.trans (rejectDecl _ _ _ _)
        · rename_i a ha
          have hfail : KeepsModes b.requireScope (b.requireScope.fail a) :=
            fail (isModeAssertion_of_shadowing ha) _
          exact (hscope.trans hfail).trans (rejectDecl _ _ _ _)

theorem introduceChild (parent child : Node) (b : BasicASTBuilder) :
    KeepsModes b (introduceChild parent b child) := by
  have hcontaining : KeepsModes b
      (if child.kind.isTopLevelNode then b.setContainingUnit child.id parent else b) := by
    split
    · exact setContainingUnit _ _ b
    · exact .refl b
  unfold ASTLayoutReader.introduceChild
  simp only
  split
  · exact hcontaining
  · split
    · split
      · exact (hcontaining.trans (setExportedNode _ _ _)).trans (introduce _ _)
      · exact hcontaining.trans (introduce _ _)
    · exact hcontaining.trans (introduce _ _)

theorem introduceChildren (parent : Node) (children : List Node) (b : BasicASTBuilder) :
    KeepsModes b (children.foldl (ASTLayoutReader.introduceChild parent) b) := by
  induction children generalizing b with
  | nil => exact .refl b
  | cons child children ih => exact (introduceChild parent child b).trans (ih _)

theorem enterUnit (parent : ScopeChain) (unit : Node) (cs : List Tree) (b : BasicASTBuilder) :
    KeepsModes b (ASTLayoutReader.enterUnit parent unit cs b) := by
  have hintroduced : KeepsModes b
      ((crawled cs).foldl (ASTLayoutReader.introduceChild unit) (b.enterConsistentScope parent)) :=
    (enterConsistentScope parent b).trans (introduceChildren unit (crawled cs) _)
  exact hintroduced.trans (setUnitScope _ _ _)

theorem enterMetaUnit (unit : Node) (b : BasicASTBuilder) :
    KeepsModes b (ASTLayoutReader.enterMetaUnit unit b).1 := by
  unfold ASTLayoutReader.enterMetaUnit
  split
  · split
    · exact fail rfl b
    · rename_i decl kind _
      have hb : KeepsModes b (b.require (kind == .metaDecl) .instantiationOfNonMetaDecl) :=
        require rfl _ b
      simp only
      split
      · exact hb.trans (fail rfl _)
      · rename_i node _
        have hcontaining := hb.trans (setContainingUnit unit.id node _)
        split
        · exact hcontaining.trans (fail rfl _)
        · exact hcontaining
  · exact .refl b

/-- A mode that is entered, and left again after a body that keeps it. -/
theorem metaDeclMode (hmode : b.currentMode = .outside) (h : KeepsModes b.enterMetaDeclMode b') :
    KeepsModes b b'.leaveMode := by
  have henter : b.enterMetaDeclMode =
      { b with metaDeclMode := .insideMetaDecl :: b.metaDeclMode } := by
    unfold BasicASTBuilder.enterMetaDeclMode BasicASTBuilder.require
    rw [hmode]
    rfl
  rw [henter] at h
  refine ⟨?_, h.asserted⟩
  show b'.metaDeclMode.tail = _
  rw [h.mode]
  rfl

theorem metaComputationMode (hmode : b.currentMode = .insideMetaDecl)
    (h : KeepsModes b.enterMetaComputationMode b') : KeepsModes b b'.leaveMode := by
  have henter : b.enterMetaComputationMode =
      { b with metaDeclMode := .insideComputation :: b.metaDeclMode } := by
    unfold BasicASTBuilder.enterMetaComputationMode BasicASTBuilder.require
    rw [hmode]
    rfl
  rw [henter] at h
  refine ⟨?_, h.asserted⟩
  show b'.metaDeclMode.tail = _
  rw [h.mode]
  rfl

/-- No assertion on the mode failed in a builder that was just started. -/
theorem asserts {heap : ASTHeap} (h : KeepsModes (.start heap) b) :
    ∀ a ∈ b.failedAssertions, a.isModeAssertion = false := by
  intro a ha
  by_contra hm
  exact absurd (h.asserted a ha (Bool.not_eq_false _ ▸ hm)) List.not_mem_nil

theorem currentMode (h : KeepsModes b b') : b'.currentMode = b.currentMode := by
  rw [BasicASTBuilder.currentMode, h.mode, BasicASTBuilder.currentMode]

end KeepsModes

/-! ## Trees -/

section Trees

variable {similarTo : ScopeChain → Identifier → Option Node} {P : BasicASTBuilder → Prop}

theorem readTrees_modes {cs : List Tree} (hP : ∀ b b', KeepsModes b b' → P b → P b')
    (h : ∀ c ∈ cs, ∀ b, P b → KeepsModes b (readTree similarTo c b).2) (b : BasicASTBuilder)
    (hb : P b) : KeepsModes b (readTrees similarTo cs b).2 := by
  induction cs generalizing b with
  | nil => exact .refl b
  | cons c cs ih =>
    have hc := h c List.mem_cons_self b hb
    exact hc.trans (ih (fun d hd => h d (List.mem_cons_of_mem _ hd)) _ (hP _ _ hc hb))

/-- The nodes that are read in a mode of their own. -/
def ASTKind.entersMode : ASTKind → Bool
  | .metaDecl | .metaIfStmt | .metaCalculationStmt => true
  | _ => false

/-- Reading any other node keeps the modes if reading its children does. -/
theorem readNode_modes {n : Node} {cs : List Tree} (hP : ∀ b b', KeepsModes b b' → P b → P b')
    (hn : n.kind.entersMode = false)
    (h : ∀ c ∈ cs, ∀ b, P b → KeepsModes b (readTree similarTo c b).2) (b : BasicASTBuilder)
    (hb : P b) : KeepsModes b (readTree similarTo (.node n cs) b).2 := by
  have all {b' : BasicASTBuilder} (henter : KeepsModes b b') :
      KeepsModes b (readTrees similarTo cs b').2 :=
    henter.trans (readTrees_modes hP h b' (hP _ _ henter hb))
  obtain ⟨id, data⟩ := n
  cases data with
  | metaDecl | metaIfStmt | metaCalculationStmt => cases hn
  | compilationUnit => exact (all (.enterUnit [] _ cs b)).trans (.setScope _ _)
  | metaUnit inst =>
    have henter := KeepsModes.enterMetaUnit ⟨id, .metaUnit inst⟩ b
    exact (all (henter.trans (.enterUnit _ _ cs _))).trans (.setScope _ _)
  | functionDecl | compoundStmt => exact (all (.enterTemporaryScope b)).trans (.setScope _ _)
  | namedArgumentDecl name => exact .introduce ⟨id, .namedArgumentDecl name⟩ b
  | declStmt name => exact (all (.refl b)).trans (.introduce ⟨id, .declStmt name⟩ _)
  | declRefExpr name =>
    show KeepsModes b (if b.isAllowedToResolveDecls then _ else _ : AST × BasicASTBuilder).2
    split
    · exact .lookup name b
    · exact .refl b
  | _ => exact all (.refl b)

/-- The mode in which a tree of the depth is read. -/
def MetaDepth.IsReadIn (depth : MetaDepth) (b : BasicASTBuilder) : Prop :=
  depth.allowsMeta = true → b.currentMode = .insideMetaDecl

theorem MetaDepth.IsReadIn.keeps {depth : MetaDepth} (b b' : BasicASTBuilder)
    (h : KeepsModes b b') (hb : depth.IsReadIn b) : depth.IsReadIn b' := fun hd => by
  rw [h.currentMode]
  exact hb hd

theorem MetaDepth.isReadIn_depthNone (b : BasicASTBuilder) : MetaDepth.depthNone.IsReadIn b :=
  fun h => by cases h

/-- Reading a tree at its depth keeps the modes. -/
theorem readTree_modes (t : Tree) (depth : MetaDepth) (hd : t.derived depth = true)
    (b : BasicASTBuilder) (hb : depth.IsReadIn b) : KeepsModes b (readTree similarTo t b).2 := by
  induction t using Rose.ind generalizing depth b with
  | h n cs ih =>
    have all {depth : MetaDepth} (hd : Tree.derivedAll depth cs = true) (c : Tree) (hc : c ∈ cs)
        (b : BasicASTBuilder) (hb : depth.IsReadIn b) : KeepsModes b (readTree similarTo c b).2 :=
      ih c hc depth (Tree.derivedAll_iff.1 hd c hc) b hb
    obtain ⟨id, data⟩ := n
    cases data with
    | compilationUnit | metaUnit | metaDecl | globalConstantDecl | erroneousExpr => cases hd
    | functionDecl =>
      obtain ⟨hdepth, hd⟩ := Bool.and_eq_true_iff.1 hd
      have hglobal : depth = .depthGlobalScope := eq_of_beq (Bool.and_eq_true_iff.1 hdepth).1
      have hlocal : MetaDepth.depthLocalScope.IsReadIn b := fun _ => hb (by rw [hglobal]; rfl)
      exact readNode_modes .keeps rfl (all hd) b hlocal
    | metaIfStmt =>
      cases cs with
      | nil => exact .refl b
      | cons expression branches =>
        have hd : (depth.allowsMeta && (Tree.derived .depthNone expression &&
          Tree.derivedAll depth branches)) = true := hd
        obtain ⟨hallowed, hd⟩ := Bool.and_eq_true_iff.1 hd
        obtain ⟨he, hbranches⟩ := Bool.and_eq_true_iff.1 hd
        have hexpression := ih _ List.mem_cons_self .depthNone he b.enterMetaComputationMode
          (MetaDepth.isReadIn_depthNone _)
        have hmode := KeepsModes.metaComputationMode (hb hallowed) hexpression
        have hread := readTrees_modes .keeps (fun c hc =>
          ih c (List.mem_cons_of_mem _ hc) depth (Tree.derivedAll_iff.1 hbranches c hc)) _
          (hb.keeps _ _ hmode)
        exact hmode.trans hread
    | metaCalculationStmt =>
      obtain ⟨hallowed, hd⟩ := Bool.and_eq_true_iff.1 hd
      have hallowed := (Bool.and_eq_true_iff.1 hallowed).1
      have henter := KeepsModes.enterInplaceScope b
      have hin : depth.IsReadIn b.enterInplaceScope := hb.keeps _ _ henter
      have hread := readTrees_modes .keeps (all hd) b.enterInplaceScope.enterMetaComputationMode
        (MetaDepth.isReadIn_depthNone _)
      exact (henter.trans (.metaComputationMode (hin hallowed) hread)).trans (.setScope _ _)
    | metaContribution | unscopedCompoundStmt | compoundStmt | ifStmt | callOperatorExpr =>
      exact readNode_modes .keeps rfl (all (Bool.and_eq_true_iff.1 hd).2) b hb
    | _ => exact readNode_modes .keeps rfl (all hd) b hb

/-- Reading a function or a meta declaration outside of any mode. -/
theorem readTree_topLevel_modes (t : Tree) (hd : Tree.derivedTopLevel t = true)
    (b : BasicASTBuilder) (hb : b.currentMode = .outside) :
    KeepsModes b (readTree similarTo t b).2 := by
  obtain ⟨⟨id, data⟩, cs⟩ := t
  cases data with
  | functionDecl =>
    exact readNode_modes .keeps rfl (fun c hc => readTree_modes c .depthNone
      (Tree.derivedAll_iff.1 (Bool.and_eq_true_iff.1 hd).2 c hc)) b (MetaDepth.isReadIn_depthNone b)
  | metaDecl =>
    match cs, hd with
    | [args, contribution], hd =>
      obtain ⟨hargs, hcontribution⟩ := Bool.and_eq_true_iff.1 hd
      have henter : KeepsModes b (readTree similarTo args b.enterTemporaryScope).2 :=
        (KeepsModes.enterTemporaryScope b).trans
          (readTree_modes args .depthNone hargs _ (MetaDepth.isReadIn_depthNone _))
      have hmode := henter.currentMode.trans hb
      have hread : KeepsModes _ (readTree similarTo contribution _).2 :=
        readTree_modes contribution .depthGlobalScope hcontribution
          (readTree similarTo args b.enterTemporaryScope).2.enterMetaDeclMode (fun _ => rfl)
      exact (henter.trans (.metaDeclMode hmode hread)).trans (.setScope _ _)
  | _ => cases cs <;> cases hd

/-- Reading a program keeps the modes. -/
theorem readTree_program_modes {t : Tree} (h : t.IsProgram) (b : BasicASTBuilder)
    (hb : b.currentMode = .outside) : KeepsModes b (readTree similarTo t b).2 := by
  obtain ⟨n, cs⟩ := t
  refine readNode_modes (fun _ _ hkeeps hmode => hkeeps.currentMode.trans hmode) ?_
    (fun c hc => readTree_topLevel_modes c (h.topLevel c hc)) b hb
  have hk : n.kind = .compilationUnit := h.kind
  rw [hk]
  rfl

/-- Reading a tree in which no node has a mode of its own keeps the modes. -/
theorem readTree_runtime_modes {t : Tree} (h : ∀ n ∈ t.labels, n.kind.entersMode = false)
    (b : BasicASTBuilder) : KeepsModes b (readTree similarTo t b).2 := by
  induction t using Rose.ind generalizing b with
  | h n cs ih =>
    have below (c : Tree) (hc : c ∈ cs) : ∀ m ∈ c.labels, m.kind.entersMode = false :=
      fun m hm => h m (Rose.mem_labels_node.2 (.inr ⟨c, hc, hm⟩))
    exact readNode_modes (P := fun _ => True) (fun _ _ _ _ => True.intro)
      (h n (Rose.mem_labels_node.2 (.inl rfl))) (fun c hc b _ => ih c hc (below c hc) b) b
      True.intro

end Trees

end Swy
