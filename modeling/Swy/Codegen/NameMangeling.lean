import Swy.Codegen.ExportedNode

/-!
# Mangled names

The symbols of the generated functions: those of functions and meta declarations, of the jump pads
and of the callbacks. A symbol is a list of pieces without a separator that are joined by
separators, so the pieces can be read back (`splitOn_symbol`), and what a symbol is generated for is
told by its pieces (`symbol_injective`).
-/

namespace Swy

open Library

namespace Mangeling

/-- `getMangleSeparator`. -/
def getMangleSeparator : String := "@"

/-- `mangleSymbol`. -/
def mangleSymbol (symbol : String) : String := getMangleSeparator ++ symbol ++ getMangleSeparator

section

variable (print : NodeId → String)

/-- `mangleNameOf` of an instantiation: the address of its node. -/
def mangleNameOf (inst : Instantiation) : String := mangleSymbol (print inst.node)

/-- `mangleUnitEntity`, `none` where it writes nothing and returns false. The unit that contains a
meta unit is passed on as an `ASTNode`, for which nothing is written. -/
def mangleUnitEntity (unit : Node) : Option String :=
  match unit.data with
  | .metaUnit inst => some (mangleNameOf print inst)
  | _ => none

/-- `mangleTopLevelEntity`: the symbol of a function or a meta declaration in a unit. -/
def mangleTopLevelEntity (unit : Node) (name : Identifier) : String :=
  match mangleUnitEntity print unit with
  | some entity => entity ++ getMangleSeparator ++ name
  | none => name

/-- The name that `createJumpPadTo` gives to the jump pad of an instantiation. -/
def jumpPadName (inst : Instantiation) : String :=
  "jumppad_" ++ inst.name ++ "_" ++ mangleNameOf print inst

/-- The names of the `create*CallbackPrototype` functions. -/
def callbackNames : List String :=
  [mangleSymbol "callback_contribute", mangleSymbol "callback_reduce",
    mangleSymbol "callback_introduce"]

/-- The names of the functions and meta declarations of a unit. -/
def functionNames (unit : AST) : List Identifier :=
  (unit.children.filter fun c => AST.kind c = .functionDecl ∨ AST.kind c = .metaDecl).filterMap
    fun c => c.label.node.name?

/-- The symbols of the functions and meta declarations of units, of the jump pads of instantiations
and of the callbacks. -/
def symbols (units : List AST) (insts : List Instantiation) : List String :=
  units.flatMap (fun unit =>
    (functionNames unit).map (mangleTopLevelEntity print unit.label.node)) ++
    (insts.map (jumpPadName print) ++ callbackNames)

end

/-! ## Reading symbols back -/

/-- What a symbol is generated for. A unit is told by the instantiation it stems from. -/
inductive Entity where
  | topLevel (unit : Option NodeId) (name : Identifier)
  | jumpPad (inst : NodeId) (name : Identifier)
  | callback (name : Identifier)
deriving DecidableEq

namespace Entity

variable (print : NodeId → String)

/-- The pieces of a symbol between its separators. -/
def pieces : Entity → List String
  | topLevel none name => [name]
  | topLevel (some inst) name => ["", print inst, "", name]
  | jumpPad inst name => ["jumppad_" ++ name ++ "_", print inst, ""]
  | callback name => ["", name, ""]

/-- The pieces, joined by separators. -/
def symbol (e : Entity) : String := getMangleSeparator.intercalate (e.pieces print)

/-- The separator only stands between the pieces. -/
def Clean (e : Entity) : Prop := ∀ piece ∈ e.pieces print, '@' ∉ piece.toList

variable {print}

/-- The pieces of a symbol are read back. -/
theorem splitOn_symbol {e : Entity} (h : e.Clean print) :
    (e.symbol print).toList.splitOn '@' = (e.pieces print).map String.toList := by
  have hpieces : e.pieces print ≠ [] := by
    rcases e with ⟨_ | inst, name⟩ | ⟨inst, name⟩ | name <;> exact List.cons_ne_nil _ _
  have hseparator : getMangleSeparator.toList = ['@'] := rfl
  rw [symbol, String.toList_intercalate, hseparator]
  apply List.splitOn_intercalate
  · intro l hl
    obtain ⟨piece, hpiece, rfl⟩ := List.mem_map.1 hl
    exact h piece hpiece
  · simpa using hpieces

/-- The pieces tell what a symbol is generated for. -/
theorem pieces_injective (hprint : Function.Injective print) :
    Function.Injective (pieces print) := by
  intro e e' h
  rcases e with ⟨_ | inst, name⟩ | ⟨inst, name⟩ | name <;>
    rcases e' with ⟨_ | inst', name'⟩ | ⟨inst', name'⟩ | name' <;>
    simp only [pieces, List.cons.injEq, reduceCtorEq, and_false, and_true, true_and] at h
  · rw [h]
  · obtain ⟨hinst, rfl⟩ := h
    rw [hprint hinst]
  · obtain ⟨hname, hinst⟩ := h
    rw [hprint hinst]
    have hname := congrArg String.toList hname
    rw [jumpPad.injEq, ← String.toList_inj]
    simpa using hname
  · exact absurd (congrArg String.toList h.1) (by simp)
  · exact absurd (congrArg String.toList h.1) (by simp)
  · rw [h]

/-- Distinct entities have distinct symbols. -/
theorem symbol_injective (hprint : Function.Injective print) {e e' : Entity}
    (he : e.Clean print) (he' : e'.Clean print)
    (h : e.symbol print = e'.symbol print) : e = e' := by
  apply pieces_injective hprint
  apply List.map_injective_iff.2 (fun _ _ => String.toList_injective)
  rw [← splitOn_symbol he, ← splitOn_symbol he', h]

end Entity

section

variable (print : NodeId → String)

/-- The instantiation a unit stems from. -/
def instantiationOf (unit : Node) : Option NodeId :=
  match unit.data with
  | .metaUnit inst => some inst.node
  | _ => none

theorem mangleTopLevelEntity_eq (unit : Node) (name : Identifier) :
    mangleTopLevelEntity print unit name =
      (Entity.topLevel (instantiationOf unit) name).symbol print := by
  obtain ⟨id, data⟩ := unit
  apply String.toList_injective
  cases data <;> simp [mangleTopLevelEntity, mangleUnitEntity, instantiationOf, mangleNameOf,
    mangleSymbol, getMangleSeparator, Entity.symbol, Entity.pieces]

theorem jumpPadName_eq (inst : Instantiation) :
    jumpPadName print inst = (Entity.jumpPad inst.node inst.name).symbol print := by
  apply String.toList_injective
  simp [jumpPadName, mangleNameOf, mangleSymbol, getMangleSeparator, Entity.symbol, Entity.pieces]

theorem mangleSymbol_eq (name : Identifier) :
    mangleSymbol name = (Entity.callback name).symbol print := by
  apply String.toList_injective
  simp [mangleSymbol, getMangleSeparator, Entity.symbol, Entity.pieces]

end

/-! ## The symbols of a program -/

/-- `LETTER`. -/
def isLetter (c : Char) : Bool := c.isAlpha || c == '_'

/-- `Identifier: LETTER (LETTER | Digit)*`. -/
def IsIdentifier (name : Identifier) : Prop :=
  ∃ c cs, name.toList = c :: cs ∧ isLetter c = true ∧ ∀ d ∈ cs, isLetter d = true ∨ d.isDigit = true

theorem IsIdentifier.separator_notMem {name : Identifier} (h : IsIdentifier name) :
    '@' ∉ name.toList := by
  obtain ⟨c, cs, hname, hc, hcs⟩ := h
  rw [hname]
  intro hmem
  rcases List.mem_cons.1 hmem with rfl | hmem
  · exact absurd hc (by decide)
  · rcases hcs '@' hmem with h | h
    · exact absurd h (by decide)
    · exact absurd h (by decide)

/-- A meta unit that was instantiated from a meta declaration of a program and read without an
error. -/
inductive InstantiatedFrom (similarTo : ScopeChain → Identifier → Option Node) (a : AST) :
    Instantiation → AST → Prop
  | intro {inst : Instantiation} {decl : AST} {ctx : IRContext} {metaFunction : CodegenState}
      {rt : Runtime} {fuel : Nat} {pad : Blocks Instruction} {nextId : NodeId}
      {contributor : NodeContributor} {heap : ASTHeap} {unit : AST} {s : ASTLayoutReader.State} :
    decl ∈ a.children → decl.label.node.data = .metaDecl inst.name →
    MetaCodegen.codegen ctx decl (.initial .insideMetaDecl) = .ok ((), metaFunction) →
    CodeExecutor.instantiatedLayout rt fuel pad metaFunction.blocks inst nextId = some contributor →
    ASTLayoutReader.AcceptsUnit similarTo .metaUnit contributor.layout heap unit s →
    InstantiatedFrom similarTo a inst unit

section

variable {similarTo : ScopeChain → Identifier → Option Node} {t : Tree} {a : AST}
  {s : ASTLayoutReader.State}

theorem functionNames_sublist (unit : AST) : List.Sublist (functionNames unit)
    ((unit.shape.children.map Rose.label).filterMap Node.name?) := by
  have hlabels : unit.shape.children.map Rose.label = unit.children.map fun c => c.label.node := by
    rw [AST.shape, Rose.children_map, List.map_map]
    exact List.map_congr_left fun c _ => Rose.label_map ASTNode.node c
  rw [hlabels, List.filterMap_map]
  exact List.filter_sublist.filterMap _

/-- The functions and meta declarations of a program have distinct names. -/
theorem functionNames_nodup (ht : t.IsProgram)
    (haccept : ASTLayoutReader.AcceptsUnit similarTo .compilationUnit t.encode .empty a s) :
    a.label.node.data = .compilationUnit ∧ (functionNames a).Nodup := by
  obtain ⟨-, herrors⟩ := haccept.resolve
  have hshape := haccept.shape ht.wellShaped ht.kind
  have hsublist := functionNames_sublist a
  have hlabel : a.label.node = t.label := by rw [← hshape, AST.shape, Rose.label_map]
  rw [hshape] at herrors hsublist
  have hkind := ht.kind
  obtain ⟨⟨id, data⟩, cs⟩ := t
  cases data <;> try cases hkind
  have hunit := Resolution.errors_resolveAll (fun u _ => Resolution.errors_resolve u) herrors
  exact ⟨congrArg Node.data hlabel,
    (Resolution.nodup_enterUnit (.inl rfl) hunit).1.sublist hsublist⟩

/-- The functions of a meta unit have distinct names. -/
theorem InstantiatedFrom.functionNames_nodup (ht : t.IsProgram)
    (haccept : ASTLayoutReader.AcceptsUnit similarTo .compilationUnit t.encode .empty a s)
    {inst : Instantiation} {unit : AST} (h : InstantiatedFrom similarTo a inst unit) :
    unit.label.node.data = .metaUnit inst ∧ (functionNames unit).Nodup := by
  obtain ⟨hdecl, hdata, hmeta, hlayout, hunit⟩ := h
  obtain ⟨-, herrors⟩ := hunit.resolve
  have hsublist := functionNames_sublist unit
  obtain ⟨root, cs⟩ := unit
  obtain ⟨hroot, hbelow⟩ := ASTLayoutReader.metaUnit_spares ht haccept hdecl hdata hmeta hlayout
    hunit
  rw [AST.shape_node, hroot] at herrors hsublist
  have hnounit : ∀ c ∈ cs.map AST.shape, ∀ n ∈ c.labels, n.kind.isUnitNode = false :=
    fun c hc n hn => (hbelow c hc n hn).1
  have hnodes : ∀ n ∈ (cs.map AST.shape).map Rose.label, n.kind ≠ .metaDecl := by
    intro n hn
    obtain ⟨c, hc, rfl⟩ := List.mem_map.1 hn
    exact (hbelow c hc _ (Rose.label_mem_labels (Rose.mem_subtrees_self c))).2.1
  have hnodup := (Resolution.resolve_metaUnit hnounit hnodes herrors).1
  exact ⟨congrArg Node.data hroot, hnodup.sublist hsublist⟩

/-- What the functions of units are generated for. -/
def entities (units : List AST) (insts : List Instantiation) : List Entity :=
  units.flatMap (fun unit =>
      (functionNames unit).map (.topLevel (instantiationOf unit.label.node))) ++
    (insts.map (fun inst => .jumpPad inst.node inst.name) ++
      [.callback "callback_contribute", .callback "callback_reduce",
        .callback "callback_introduce"])

theorem symbols_eq (print : NodeId → String) (units : List AST) (insts : List Instantiation) :
    symbols print units insts = (entities units insts).map (Entity.symbol print) := by
  have htopLevel (unit : AST) : (functionNames unit).map
      (mangleTopLevelEntity print unit.label.node) = ((functionNames unit).map
        (.topLevel (instantiationOf unit.label.node))).map (Entity.symbol print) := by
    rw [List.map_map]
    exact List.map_congr_left fun name _ => mangleTopLevelEntity_eq print _ name
  have hjumpPads : insts.map (jumpPadName print) =
      (insts.map fun inst => Entity.jumpPad inst.node inst.name).map (Entity.symbol print) := by
    rw [List.map_map]
    exact List.map_congr_left fun inst _ => jumpPadName_eq print inst
  simp only [symbols, entities, callbackNames, List.map_append, List.map_flatMap, htopLevel,
    hjumpPads, List.map_cons, List.map_nil, ← mangleSymbol_eq]

theorem entities_nodup {units : List AST} {insts : List Instantiation}
    (hnames : ∀ unit ∈ units, (functionNames unit).Nodup)
    (hunits : (units.map fun unit => instantiationOf unit.label.node).Nodup)
    (hinsts : (insts.map Instantiation.node).Nodup) : (entities units insts).Nodup := by
  have htopLevel : (units.flatMap fun unit =>
      (functionNames unit).map (Entity.topLevel (instantiationOf unit.label.node))).Nodup := by
    refine List.nodup_flatMap.2 ⟨fun unit hunit => ?_, ?_⟩
    · refine (hnames unit hunit).map fun name name' h => ?_
      cases h
      rfl
    · refine (List.pairwise_map.1 hunits).imp fun {unit unit'} hne e he he' => ?_
      obtain ⟨name, -, rfl⟩ := List.mem_map.1 he
      obtain ⟨name', -, h⟩ := List.mem_map.1 he'
      exact hne (Entity.topLevel.inj h).1.symm
  have hjumpPads : (insts.map fun inst => Entity.jumpPad inst.node inst.name).Nodup := by
    refine List.pairwise_map.2 ((List.pairwise_map.1 hinsts).imp fun {inst inst'} hne h => ?_)
    exact hne (Entity.jumpPad.inj h).1
  have hcallbacks : [Entity.callback "callback_contribute", .callback "callback_reduce",
      .callback "callback_introduce"].Nodup := by decide
  refine List.nodup_append'.2 ⟨htopLevel, List.nodup_append'.2 ⟨hjumpPads, hcallbacks, ?_⟩, ?_⟩
  · intro e he he'
    obtain ⟨inst, -, rfl⟩ := List.mem_map.1 he
    simp at he'
  · intro e he he'
    obtain ⟨unit, -, he⟩ := List.mem_flatMap.1 he
    obtain ⟨name, -, rfl⟩ := List.mem_map.1 he
    simp at he'

/-- Mangled names never clash. For every program that is accepted and every set of meta units that
were instantiated from it, the symbols of all functions and meta declarations, of the jump pads of
instantiations and of the callbacks are distinct. -/
theorem symbols_nodup {print : NodeId → String} (hprint : Function.Injective print)
    (hseparator : ∀ id, '@' ∉ (print id).toList) (ht : t.IsProgram)
    (haccept : ASTLayoutReader.AcceptsUnit similarTo .compilationUnit t.encode .empty a s)
    {units : List (Instantiation × AST)}
    (hunits : ∀ unit ∈ units, InstantiatedFrom similarTo a unit.1 unit.2)
    (hcached : (units.map fun unit => unit.1.node).Nodup) {insts : List Instantiation}
    (hinsts : (insts.map Instantiation.node).Nodup)
    (hnames : ∀ unit ∈ a :: units.map Prod.snd, ∀ name ∈ functionNames unit, IsIdentifier name)
    (hinstNames : ∀ inst ∈ insts, IsIdentifier inst.name) :
    (symbols print (a :: units.map Prod.snd) insts).Nodup := by
  rw [symbols_eq]
  obtain ⟨hprogram, hprogramNames⟩ := functionNames_nodup ht haccept
  have hunit (unit : Instantiation × AST) (h : unit ∈ units) :=
    (hunits unit h).functionNames_nodup ht haccept
  have hentities : (entities (a :: units.map Prod.snd) insts).Nodup := by
    refine entities_nodup (List.forall_mem_cons.2 ⟨hprogramNames, ?_⟩) ?_ hinsts
    · rw [List.forall_mem_map]
      exact fun unit h => (hunit unit h).2
    · have hinst : ∀ unit ∈ units, instantiationOf unit.2.label.node = some unit.1.node := by
        intro unit h
        rw [instantiationOf, (hunit unit h).1]
      have hnone : instantiationOf a.label.node = none := by rw [instantiationOf, hprogram]
      rw [List.map_cons, List.map_map, hnone]
      refine List.nodup_cons.2 ⟨fun h => ?_, ?_⟩
      · obtain ⟨unit, hmem, h⟩ := List.mem_map.1 h
        exact Option.some_ne_none _ ((hinst unit hmem).symm.trans h)
      · refine List.pairwise_map.2 ((List.pairwise_map.1 hcached).imp_of_mem ?_)
        intro unit unit' h h' hne heq
        exact hne (Option.some.inj ((hinst unit h).symm.trans (heq.trans (hinst unit' h'))))
  have hclean : ∀ e ∈ entities (a :: units.map Prod.snd) insts, e.Clean print := by
    intro e he
    rcases List.mem_append.1 he with he | he
    · obtain ⟨unit, hunit, he⟩ := List.mem_flatMap.1 he
      obtain ⟨name, hname, rfl⟩ := List.mem_map.1 he
      have hname := (hnames unit hunit name hname).separator_notMem
      cases instantiationOf unit.label.node with
      | none => simpa [Entity.Clean, Entity.pieces] using hname
      | some inst => simpa [Entity.Clean, Entity.pieces] using ⟨hseparator inst, hname⟩
    · rcases List.mem_append.1 he with he | he
      · obtain ⟨inst, hinst, rfl⟩ := List.mem_map.1 he
        have hname := (hinstNames inst hinst).separator_notMem
        simpa [Entity.Clean, Entity.pieces] using ⟨hname, hseparator inst.node⟩
      · have hcallback {name : String} (h : '@' ∉ name.toList) :
            (Entity.callback name).Clean print := by
          simpa [Entity.Clean, Entity.pieces] using h
        simp only [List.mem_cons, List.not_mem_nil, or_false] at he
        rcases he with rfl | rfl | rfl
        · exact hcallback (by decide)
        · exact hcallback (by decide)
        · exact hcallback (by decide)
  exact hentities.map_on fun e he e' he' h =>
    Entity.symbol_injective hprint (hclean e he) (hclean e' he') h

/-- `m<int n> -> { m() -> {} }`, instantiated at two nodes. -/
theorem symbols_nodup_twice :
    let print (id : NodeId) : String := "0x" ++ id.repr
    let inst (node : NodeId) : Instantiation := ⟨node, "m", some (1, .metaDecl)⟩
    ∃ (a : AST) (first second : AST),
      InstantiatedFrom (fun _ _ => none) a (inst 20) first ∧
      InstantiatedFrom (fun _ _ => none) a (inst 21) second ∧
      symbols print [a, first, second] [inst 20, inst 21] =
        ["m", "@0x20@@m", "@0x21@@m", "jumppad_m_@0x20@", "jumppad_m_@0x21@",
          "@callback_contribute@", "@callback_reduce@", "@callback_introduce@"] ∧
      (symbols print [a, first, second] [inst 20, inst 21]).Nodup := by
  intro print inst
  let root : Node := ⟨0, .compilationUnit⟩
  let decl : AST := .node { node := ⟨1, .metaDecl "m"⟩ }
    [.node { node := ⟨2, .argumentDeclList⟩ } [.node { node := ⟨3, .namedArgumentDecl "n"⟩ } []],
      .node { node := ⟨4, .metaContribution⟩ } [.node { node := ⟨5, .functionDecl "m"⟩ }
        [.node { node := ⟨6, .argumentDeclList⟩ } [], .node { node := ⟨7, .compoundStmt⟩ } []]]]
  let a : AST := .node ⟨root, none, []⟩ [decl]
  let ctx : IRContext := ⟨fun _ => none, fun _ => none⟩
  let result := MetaCodegen.codegen ctx decl (.initial .insideMetaDecl)
  let metaFunction := (result.toOption.getD ((), .initial .insideMetaDecl)).2
  let pad : Blocks Instruction := [[.operation (.callMeta [.constant 7]), .terminator .retVoid]]
  let unit (node : NodeId) : AST := .node { node := ⟨30, .metaUnit (inst node)⟩ }
    [.node { node := ⟨31, .globalConstantDecl "n"⟩ }
        [.node { node := ⟨32, .integerLiteralExpr 7⟩ } []],
      .node { node := ⟨33, .functionDecl "m"⟩ } [.node { node := ⟨34, .argumentDeclList⟩ } [],
        .node { node := ⟨35, .compoundStmt⟩ } []]]
  let heap : ASTHeap :=
    { containingUnit := fun _ => some root
      scope := fun _ => some [.allocated true [("m", ⟨1, .metaDecl "m"⟩)]]
      exportedNode := fun _ => none }
  have hread := ASTLayoutReader.consume_complete (fun _ _ => none) (p := .kind .compilationUnit)
    (t := a.shape) ⟨by decide, .inl rfl⟩ [] (.start .empty)
  have ha : (ASTLayoutReader.readTree (fun _ _ => none) a.shape (.start .empty)).1 = a := by rfl
  rw [List.append_nil, ha] at hread
  have haccept := ASTLayoutReader.AcceptsUnit.mk hread (by decide) (by decide)
  have hmeta : result = .ok ((), metaFunction) :=
    eq_ok_of_isOk (c := MetaCodegen.codegen ctx decl) (s := .initial .insideMetaDecl)
      (by decide +kernel)
  have hinstantiated (node : NodeId) (hnode : node = 20 ∨ node = 21) :
      InstantiatedFrom (fun _ _ => none) a (inst node) (unit node) := by
    have hlayout : CodeExecutor.instantiatedLayout default 20 pad metaFunction.blocks (inst node)
        30 = some ⟨(unit node).shape.encode, 36⟩ := by
      rcases hnode with rfl | rfl <;> decide +kernel
    have hread' := ASTLayoutReader.consume_complete (fun _ _ => none) (p := .kind .metaUnit)
      (t := (unit node).shape) ⟨by rcases hnode with rfl | rfl <;> decide, .inl rfl⟩ []
      (.start heap)
    have hunit : (ASTLayoutReader.readTree (fun _ _ => none) (unit node).shape (.start heap)).1 =
        unit node := by rcases hnode with rfl | rfl <;> rfl
    rw [List.append_nil, hunit] at hread'
    exact .intro List.mem_cons_self rfl hmeta hlayout
      ⟨hread', by rcases hnode with rfl | rfl <;> decide,
        by rcases hnode with rfl | rfl <;> decide⟩
  have hprint : Function.Injective print := by
    intro x y h
    have hdigits : x.repr.toList = y.repr.toList := by simpa [print] using congrArg String.toList h
    rw [Nat.toList_repr, Nat.toList_repr] at hdigits
    rw [← Nat.ofDigitChars_ten_toDigits (n := x), hdigits, Nat.ofDigitChars_ten_toDigits]
  have hseparator (id : NodeId) : '@' ∉ (print id).toList := by
    intro h
    have hdigit : '@' ∈ Nat.toDigits 10 id := by
      rw [← Nat.toList_repr]
      simpa [print] using h
    exact absurd (Nat.isDigit_of_mem_toDigits (by decide) (by decide) hdigit) (by decide)
  have hm : IsIdentifier "m" := ⟨'m', [], rfl, by decide, nofun⟩
  have h20 := hinstantiated 20 (.inl rfl)
  have h21 := hinstantiated 21 (.inr rfl)
  have hunits : ∀ u ∈ [(inst 20, unit 20), (inst 21, unit 21)],
      InstantiatedFrom (fun _ _ => none) a u.1 u.2 := by
    simpa using ⟨h20, h21⟩
  have hnames : ∀ u ∈ a :: [(inst 20, unit 20), (inst 21, unit 21)].map Prod.snd,
      ∀ name ∈ functionNames u, IsIdentifier name := by
    intro u hu name hname
    have hu : functionNames u = ["m"] := by
      simp only [List.map_cons, List.map_nil, List.mem_cons, List.not_mem_nil, or_false] at hu
      rcases hu with rfl | rfl | rfl <;> rfl
    rw [hu] at hname
    rwa [List.mem_singleton.1 hname]
  have hinstNames : ∀ i ∈ [inst 20, inst 21], IsIdentifier i.name := by
    simpa [inst] using hm
  refine ⟨a, unit 20, unit 21, h20, h21, by decide, ?_⟩
  exact symbols_nodup hprint hseparator ⟨rfl, by decide, by decide, by decide⟩ haccept hunits
    (by decide) (by decide) hnames hinstNames

end

end Mangeling

end Swy
