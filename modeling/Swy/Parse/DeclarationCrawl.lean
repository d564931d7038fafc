import Swy.Parse.LayoutTree

/-!
# The crawl over the declarations of a unit

`crawlCurrentScope` skips what is framed by a reduce marker and steps flat over the other nodes. Of
the declarations of a layout it meets exactly those of the unit itself: what it steps over flat
below a top level declaration declares nothing (`unframed_topLevel`).
-/

namespace Swy

open Library

/-- A function, an argument, a variable, a constant or a meta declaration. -/
def ASTKind.isDeclaration (k : ASTKind) : Bool := k.isNamedDeclContext || k.isArgumentDecl

namespace ASTLayoutReader

/-- A framed tree hands over its root only. -/
theorem unframed_of_kind {t : Tree} {k : ASTKind} (hk : t.kind = k)
    (hframed : k.isRequiringReduceMarker = true) :
    Rose.unframed Node.isNodeRequiringReduceMarker t = [t.label] := by
  apply Rose.unframed_of_framed
  subst hk
  exact hframed

/-- The crawl meets a top level declaration first. What it meets below it is no declaration. -/
theorem unframed_topLevel {t : Tree} (ht : t.WellShaped) (hk : t.kind.isTopLevelNode = true) :
    ∃ others, Rose.unframed Node.isNodeRequiringReduceMarker t = t.label :: others ∧
      ∀ n ∈ others, n.kind.isTopLevelNode = false ∧ n.kind.isDeclaration = false := by
  obtain ⟨⟨id, data⟩, cs⟩ := t
  obtain ⟨-, hcs⟩ := Tree.wellShaped_node.1 ht
  have hframed (h : NodeData.kind data = .metaUnit ∨ NodeData.kind data = .functionDecl) :
      Rose.unframed Node.isNodeRequiringReduceMarker (.node ⟨id, data⟩ cs) = [⟨id, data⟩] := by
    rcases h with h | h
    · exact unframed_of_kind (t := .node ⟨id, data⟩ cs) h rfl
    · exact unframed_of_kind (t := .node ⟨id, data⟩ cs) h rfl
  cases data with
  | metaUnit inst => exact ⟨[], hframed (.inl rfl), by simp⟩
  | functionDecl name => exact ⟨[], hframed (.inr rfl), by simp⟩
  | metaDecl name =>
    obtain ⟨args, contribution, rfl, hargs, hcontribution⟩ := ht.metaDecl rfl
    refine ⟨[args.label, contribution.label], ?_, ?_⟩
    · have hflat : Rose.unframed Node.isNodeRequiringReduceMarker
          (.node ⟨id, .metaDecl name⟩ [args, contribution]) = ⟨id, .metaDecl name⟩ ::
            (Rose.unframed Node.isNodeRequiringReduceMarker args ++
              (Rose.unframed Node.isNodeRequiringReduceMarker contribution ++ [])) := rfl
      rw [hflat, unframed_of_kind hargs rfl, unframed_of_kind hcontribution rfl]
      rfl
    · intro n hn
      rcases List.mem_pair.1 hn with rfl | rfl
      · rw [show args.label.kind = .argumentDeclList from hargs]
        exact ⟨rfl, rfl⟩
      · rw [show contribution.label.kind = .metaContribution from hcontribution]
        exact ⟨rfl, rfl⟩
  | globalConstantDecl name =>
    obtain ⟨⟨expr, exprs⟩, rfl, hexpr⟩ := ht.globalConstantDecl rfl
    have hleaf : exprs = [] := by
      refine (hcs _ List.mem_cons_self).leaf ?_
      cases hkind : expr.kind <;> rw [Tree.kind_node, hkind] at hexpr <;>
        first | rfl | cases hexpr
    subst hleaf
    have hflat : Rose.unframed Node.isNodeRequiringReduceMarker (.node expr []) = [expr] := by
      rw [Rose.unframed]
      split <;> rfl
    refine ⟨[expr], ?_, ?_⟩
    · have hnode : Rose.unframed Node.isNodeRequiringReduceMarker
          (.node ⟨id, .globalConstantDecl name⟩ [.node expr []]) = ⟨id, .globalConstantDecl name⟩ ::
            (Rose.unframed Node.isNodeRequiringReduceMarker (.node expr []) ++ []) := rfl
      rw [hnode, hflat]
      rfl
    · intro n hn
      obtain rfl := List.mem_singleton.1 hn
      rw [Tree.kind_node] at hexpr
      cases hkind : n.kind <;> rw [hkind] at hexpr <;>
        first | exact ⟨rfl, rfl⟩ | cases hexpr
  | _ => cases hk

/-- The declarations that the crawl over the children of a unit meets are the children. -/
theorem filter_crawled {cs : List Tree} (hcs : ∀ c ∈ cs, c.WellShaped)
    (htop : ∀ c ∈ cs, c.kind.isTopLevelNode = true ∧ c.kind.isDeclaration = true) :
    (crawled cs).filter (fun n => n.kind.isDeclaration) = cs.map Rose.label := by
  induction cs with
  | nil => rfl
  | cons c cs ih =>
    obtain ⟨others, hothers, hall⟩ := unframed_topLevel (hcs c List.mem_cons_self)
      (htop c List.mem_cons_self).1
    have hc : c.label.kind.isDeclaration = true := (htop c List.mem_cons_self).2
    have hnone : others.filter (fun n => n.kind.isDeclaration) = [] := by
      rw [List.filter_eq_nil_iff]
      intro n hn hdecl
      rw [(hall n hn).2] at hdecl
      cases hdecl
    have hrest : (crawled cs).filter (fun n => n.kind.isDeclaration) = cs.map Rose.label :=
      ih (fun x hx => hcs x (List.mem_cons_of_mem _ hx))
        fun x hx => htop x (List.mem_cons_of_mem _ hx)
    have hcrawled : crawled (c :: cs) = c.label :: (others ++ crawled cs) := by
      unfold crawled
      rw [Rose.unframedAll, hothers, List.cons_append]
    rw [hcrawled, List.filter_cons_of_pos (p := fun n : Node => n.kind.isDeclaration) hc,
      List.filter_append, hnone, List.nil_append, hrest, List.map_cons]

/-- The declarations that a unit contains: functions and meta declarations, or what a meta unit
consists of. -/
def IsUnit (unit : Node) (cs : List Tree) : Prop :=
  Tree.WellShaped (.node unit cs) ∧
    (unit.kind = .compilationUnit ∧
        (∀ c ∈ cs, c.kind = .functionDecl ∨ c.kind = .metaDecl) ∨
      unit.kind = .metaUnit ∧
        ∀ c ∈ cs, c.kind = .functionDecl ∨ c.kind = .globalConstantDecl)

/-- The crawl behind the node of a unit ends at the reduce marker of the unit, and the cursor is put
back. Of the declarations in the layout it hands over those of the unit, each once and in order, and
none that is nested in one of them. -/
theorem crawlScope_unit {unit : Node} {cs : List Tree} (h : IsUnit unit cs) (rest : Layout)
    (b : BasicASTBuilder) (fuel : Nat) (hfuel : (Tree.encode (.node unit cs)).length ≤ fuel) :
    ∃ handed : List Node,
      Tree.encode (.node unit cs) ++ rest = some unit :: (Tree.encodeAll cs ++ none :: rest) ∧
      crawl fuel (Tree.encodeAll cs ++ none :: rest) = .ok (handed, none :: rest) ∧
      crawlScope fuel ⟨Tree.encodeAll cs ++ none :: rest, b⟩ =
        .ok (handed, ⟨Tree.encodeAll cs ++ none :: rest, b⟩) ∧
      handed.filter (fun n => n.kind.isDeclaration) = cs.map Rose.label := by
  obtain ⟨hshaped, hkinds⟩ := h
  have hmarker : unit.isNodeRequiringReduceMarker = true := by
    rw [Node.isNodeRequiringReduceMarker]
    rcases hkinds with ⟨hk, -⟩ | ⟨hk, -⟩
    · rw [hk]
      rfl
    · rw [hk]
      rfl
  have htop : ∀ c ∈ cs, c.kind.isTopLevelNode = true ∧ c.kind.isDeclaration = true := by
    intro c hc
    rcases hkinds with ⟨-, hall⟩ | ⟨-, hall⟩
    · rcases hall c hc with hk | hk
      · rw [hk]
        exact ⟨rfl, rfl⟩
      · rw [hk]
        exact ⟨rfl, rfl⟩
    · rcases hall c hc with hk | hk
      · rw [hk]
        exact ⟨rfl, rfl⟩
      · rw [hk]
        exact ⟨rfl, rfl⟩
  have hlength : (Tree.encodeAll cs).length < fuel := by
    rw [Tree.encode_node, List.length_cons, List.length_append] at hfuel
    omega
  refine ⟨crawled cs, ?_, crawl_encodeAll cs rest hlength, crawlScope_encodeAll cs rest b hlength,
    filter_crawled (Tree.wellShaped_node.1 hshaped).2 htop⟩
  rw [Tree.encode_node, if_pos hmarker, List.cons_append, List.append_assoc]
  rfl

/-- `f(int a) -> { int x = 1; } m<> -> { m() -> {} }`, with the argument and the variable of `f` and
the function of `m`. -/
theorem crawlScope_unit_nested :
    ∃ (unit : Node) (cs : List Tree) (handed : List Node), IsUnit unit cs ∧ cs.length = 2 ∧
      crawl 30 (Tree.encodeAll cs ++ [none]) = .ok (handed, [none]) ∧
      handed.length = 4 ∧
      handed.filter (fun n => n.kind.isDeclaration) = cs.map Rose.label := by
  let cs : List Tree :=
    [.node ⟨1, .functionDecl "f"⟩
        [.node ⟨2, .argumentDeclList⟩ [.node ⟨3, .namedArgumentDecl "a"⟩ []],
          .node ⟨4, .compoundStmt⟩
            [.node ⟨5, .declStmt "x"⟩ [.node ⟨6, .integerLiteralExpr 1⟩ []]]],
      .node ⟨7, .metaDecl "m"⟩
        [.node ⟨8, .argumentDeclList⟩ [],
          .node ⟨9, .metaContribution⟩
            [.node ⟨10, .functionDecl "m"⟩
              [.node ⟨11, .argumentDeclList⟩ [], .node ⟨12, .compoundStmt⟩ []]]]]
  have hunit : IsUnit ⟨0, .compilationUnit⟩ cs := by
    refine ⟨by decide, .inl ⟨rfl, fun c hc => ?_⟩⟩
    rcases List.mem_pair.1 hc with rfl | rfl
    · exact .inl rfl
    · exact .inr rfl
  obtain ⟨handed, -, hcrawl, -, hfilter⟩ :=
    crawlScope_unit hunit [] (.start .empty) 30 (by decide)
  have hhanded : handed = [⟨1, .functionDecl "f"⟩, ⟨7, .metaDecl "m"⟩, ⟨8, .argumentDeclList⟩,
      ⟨9, .metaContribution⟩] := by
    have hrun : crawl 30 (Tree.encodeAll cs ++ [none]) = .ok ([⟨1, .functionDecl "f"⟩,
        ⟨7, .metaDecl "m"⟩, ⟨8, .argumentDeclList⟩, ⟨9, .metaContribution⟩], [none]) := by rfl
    exact (Prod.mk.inj (Except.ok.inj (hcrawl.symm.trans hrun))).1
  exact ⟨_, cs, handed, hunit, rfl, hcrawl, by rw [hhanded]; rfl, hfilter⟩

end ASTLayoutReader

end Swy
