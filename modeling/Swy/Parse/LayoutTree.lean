import Swy.Parse.ASTLayout

/-!
# The reader on encoded trees

`readTree` is the reader without the layout: what consuming the encoding of a tree does to the
builder, and the AST that comes out, by recursion on the tree.

* `consume_complete`: on a layout that starts with the encoding of a well shaped tree, the consume
  method of its production returns `readTree` of it and stops right behind the encoding.
* `consume_sound`: a consume method that returns has read the encoding of a well shaped tree of its
  production, and returns an AST of exactly that shape.
-/

namespace Swy

open Library

namespace ASTLayoutReader

/-! ## Reading a tree -/

section ReadTree

variable (similarTo : ScopeChain → Identifier → Option Node)

/-- The nodes that the crawl over the children of a unit hands to its consumer. -/
def crawled (cs : List Tree) : List Node := Rose.unframedAll Node.isNodeRequiringReduceMarker cs

/-- The builder in which the children of a unit are read. -/
def enterUnit (parent : ScopeChain) (node : Node) (cs : List Tree) (b : BasicASTBuilder) :
    BasicASTBuilder :=
  let b := (crawled cs).foldl (introduceChild node) (b.enterConsistentScope parent)
  b.setUnitScope node.id b.currentScope

mutual
/-- What consuming the encoding of a tree does to the builder, and the AST it returns. -/
def readTree : Tree → BasicASTBuilder → AST × BasicASTBuilder
  | .node node cs, b =>
    match node.data with
    | .compilationUnit =>
      let (children, b') := readTrees cs (enterUnit [] node cs b)
      (.node { node } children, b'.setScope b.currentScope)
    | .metaUnit _ =>
      let (b₁, parentScope) := enterMetaUnit node b
      let (children, b') := readTrees cs (enterUnit parentScope node cs b₁)
      (.node { node } children, b'.setScope b₁.currentScope)
    | .functionDecl _ | .compoundStmt =>
      let (children, b) := readTrees cs b.enterTemporaryScope
      (.node { node } children, b.leaveScope)
    | .namedArgumentDecl _ => (.node { node } [], b.introduce node)
    | .metaDecl _ =>
      match cs with
      | [] => (.node { node } [], b)
      | args :: contribution =>
        let (args, b) := readTree args b.enterTemporaryScope
        let (contribution, b) := readTrees contribution b.enterMetaDeclMode
        (.node { node } (args :: contribution), b.leaveMode.leaveScope)
    | .declStmt _ =>
      let (children, b) := readTrees cs b
      (.node { node } children, b.introduce node)
    | .metaIfStmt =>
      match cs with
      | [] => (.node { node } [], b)
      | expression :: branches =>
        let (expression, b) := readTree expression b.enterMetaComputationMode
        let (branches, b) := readTrees branches b.leaveMode
        (.node { node } (expression :: branches), b)
    | .metaCalculationStmt =>
      let (children, b) := readTrees cs b.enterInplaceScope.enterMetaComputationMode
      let b := b.leaveMode
      (.node { node, exportedDecls := b.currentScope.listened } children, b.leaveScope)
    | .declRefExpr name =>
      if b.isAllowedToResolveDecls then
        let (decl, b) := b.lookup similarTo name
        (.node { node, decl } [], b)
      else
        (.node { node } [], b)
    | _ =>
      let (children, b) := readTrees cs b
      (.node { node } children, b)
/-- `readTree` on each tree of a list, from left to right. -/
def readTrees : List Tree → BasicASTBuilder → List AST × BasicASTBuilder
  | [], b => ([], b)
  | c :: cs, b =>
    let (child, b) := readTree c b
    let (children, b) := readTrees cs b
    (child :: children, b)
end

end ReadTree

/-! ## The primitives on a given state -/

section Primitives

variable {α β : Type}

@[simp] theorem pure_apply (a : α) (s : State) : (pure a : ReaderM α) s = .ok (a, s) := rfl

@[simp] theorem throw_apply (e : Fault) (s : State) :
    (throw e : ReaderM α) s = .error e := rfl

theorem bind_apply (m : ReaderM α) (f : α → ReaderM β) (s : State) :
    (m >>= f) s = match m s with
      | .error e => .error e
      | .ok (a, s') => f a s' := by
  change Except.bind (m s) _ = _
  cases m s <;> rfl

@[simp] theorem peek_cons (x : Option Node) (l : Layout) (b : BasicASTBuilder) :
    peek ⟨x :: l, b⟩ = .ok (x, ⟨x :: l, b⟩) := rfl

@[simp] theorem shift_cons (x : Option Node) (l : Layout) (b : BasicASTBuilder) :
    shift ⟨x :: l, b⟩ = .ok (x, ⟨l, b⟩) := rfl

@[simp] theorem requiresNonNull_some (n : Node) (s : State) :
    requiresNonNull (some n) s = .ok (n, s) := rfl

@[simp] theorem shouldReduce_cons (x : Option Node) (l : Layout) (b : BasicASTBuilder) :
    shouldReduce ⟨x :: l, b⟩ = .ok (x.isNone, ⟨x :: l, b⟩) := rfl

@[simp] theorem reduce_none (l : Layout) (b : BasicASTBuilder) :
    reduce ⟨none :: l, b⟩ = .ok ((), ⟨l, b⟩) := rfl

@[simp] theorem build_apply (f : BasicASTBuilder → BasicASTBuilder) (l : Layout)
    (b : BasicASTBuilder) : build f ⟨l, b⟩ = .ok ((), ⟨l, f b⟩) := rfl

theorem shiftAs_cons {kind : ASTKind} {n : Node} (h : n.kind = kind) (l : Layout)
    (b : BasicASTBuilder) : shiftAs kind ⟨some n :: l, b⟩ = .ok (n, ⟨l, b⟩) := by
  simp [shiftAs, bind_apply, cast, h]

theorem is_cons (classof : ASTKind → Bool) (n : Node) (l : Layout) (b : BasicASTBuilder) :
    is classof ⟨some n :: l, b⟩ = .ok (classof n.kind, ⟨some n :: l, b⟩) := rfl

theorem scopedShiftAs_cons {kind : ASTKind} {n : Node} (h : n.kind = kind)
    (hm : kind.isRequiringReduceMarker = true) {body : Node → ReaderM α} {l rest : Layout}
    {b b' : BasicASTBuilder} {a : α} (hb : body n ⟨l, b⟩ = .ok (a, ⟨none :: rest, b'⟩)) :
    scopedShiftAs kind body ⟨some n :: l, b⟩ = .ok (a, ⟨rest, b'⟩) := by
  have hn : n.isNodeRequiringReduceMarker = true := by rw [Node.isNodeRequiringReduceMarker, h, hm]
  simp only [scopedShiftAs, bind_apply, shift_cons, requiresNonNull_some, cast, h, beq_self_eq_true,
    ↓reduceIte, pure_apply, hb, hn, reduce_none]

theorem within_apply {enter leave : BasicASTBuilder → BasicASTBuilder} {body : ReaderM α}
    {l l' : Layout} {b b' : BasicASTBuilder} {a : α} (h : body ⟨l, enter b⟩ = .ok (a, ⟨l', b'⟩)) :
    within enter leave body ⟨l, b⟩ = .ok (a, ⟨l', leave b'⟩) := by
  simp only [within, bind_apply, build_apply, h, pure_apply]

theorem withConsistentScope_apply {parent : ScopeChain} {body : ReaderM α} {l l' : Layout}
    {b b' : BasicASTBuilder} {a : α}
    (h : body ⟨l, b.enterConsistentScope parent⟩ = .ok (a, ⟨l', b'⟩)) :
    withConsistentScope parent body ⟨l, b⟩ = .ok (a, ⟨l', b'.setScope b.currentScope⟩) :=
  within_apply h

end Primitives

/-! ## Trees of a production -/

/-- The consume method of `k` reads nodes of kind `k'`. -/
def readsKind (k k' : ASTKind) : Prop :=
  k = k' ∨ k = .anonymousArgumentDecl ∧ k' = .namedArgumentDecl

instance (k k' : ASTKind) : Decidable (readsKind k k') := inferInstanceAs (Decidable (_ ∨ _))

theorem readsKind.refl (k : ASTKind) : readsKind k k := .inl rfl

theorem readsKind_argument {k : ASTKind} (h : k.isArgumentDecl = true) :
    readsKind .anonymousArgumentDecl k := by
  cases k <;> first | exact .inl rfl | exact .inr ⟨rfl, rfl⟩ | cases h

/-- The trees of the shape that a production reads. -/
def Production.Reads (p : Production) (t : Tree) : Prop :=
  t.WellShaped ∧
    match p with
    | .kind k => readsKind k t.kind
    | .any => True
    | .stmt => t.kind.isStmtNode = true
    | .expr => t.kind.isExprNode = true

/-! ## Completeness -/

section Complete

variable (similarTo : ScopeChain → Identifier → Option Node)

/-- The method reads the encoding of the tree, whatever follows it. -/
def Consumes (m : ReaderM AST) (t : Tree) : Prop :=
  ∀ (rest : Layout) (b : BasicASTBuilder), m ⟨t.encode ++ rest, b⟩ =
    .ok ((readTree similarTo t b).1, ⟨rest, (readTree similarTo t b).2⟩)

/-- The method reads the encodings of the trees up to a reduce marker. -/
def ConsumesAll (m : ReaderM (List AST)) (cs : List Tree) : Prop :=
  ∀ (rest : Layout) (b : BasicASTBuilder), m ⟨Tree.encodeAll cs ++ none :: rest, b⟩ =
    .ok ((readTrees similarTo cs b).1, ⟨none :: rest, (readTrees similarTo cs b).2⟩)

variable {similarTo}

theorem encode_append_eq (c : Tree) (rest : Layout) :
    ∃ l, c.encode ++ rest = some c.label :: l := by
  obtain ⟨l, h⟩ := Rose.encode_eq_cons Node.isNodeRequiringReduceMarker c
  exact ⟨l ++ rest, by rw [Tree.encode, h, List.cons_append]⟩

@[simp] theorem peek_encode (c : Tree) (rest : Layout) (b : BasicASTBuilder) :
    peek ⟨c.encode ++ rest, b⟩ = .ok (some c.label, ⟨c.encode ++ rest, b⟩) := by
  obtain ⟨l, h⟩ := encode_append_eq c rest
  rw [h, peek_cons]

@[simp] theorem shouldReduce_encode (c : Tree) (rest : Layout) (b : BasicASTBuilder) :
    shouldReduce ⟨c.encode ++ rest, b⟩ = .ok (false, ⟨c.encode ++ rest, b⟩) := by
  obtain ⟨l, h⟩ := encode_append_eq c rest
  rw [h, shouldReduce_cons]
  rfl

@[simp] theorem is_encode (classof : ASTKind → Bool) (c : Tree) (rest : Layout)
    (b : BasicASTBuilder) :
    is classof ⟨c.encode ++ rest, b⟩ = .ok (classof c.kind, ⟨c.encode ++ rest, b⟩) := by
  obtain ⟨l, h⟩ := encode_append_eq c rest
  rw [h, is_cons]
  rfl

variable {dispatch : Dispatcher} {c : Tree} {cs : List Tree}

theorem Consumes.any (h : Consumes similarTo (dispatch c.kind) c) :
    Consumes similarTo (consumeAny dispatch) c := by
  intro rest b
  simp only [consumeAny, bind_apply, peek_encode, requiresNonNull_some]
  exact h rest b

theorem Consumes.stmt (hk : c.kind.isStmtNode = true)
    (h : Consumes similarTo (dispatch c.kind) c) : Consumes similarTo (consumeStmt dispatch) c := by
  intro rest b
  have hk' : c.label.kind.isStmtNode = true := hk
  simp only [consumeStmt, peekAs, cast, bind_apply, peek_encode, requiresNonNull_some, hk',
    ↓reduceIte, pure_apply]
  exact h rest b

theorem Consumes.expr (hk : c.kind.isExprNode = true)
    (h : Consumes similarTo (dispatch c.kind) c) : Consumes similarTo (consumeExpr dispatch) c := by
  intro rest b
  have hk' : c.label.kind.isExprNode = true := hk
  simp only [consumeExpr, peekAs, cast, bind_apply, peek_encode, requiresNonNull_some, hk',
    ↓reduceIte, pure_apply]
  exact h rest b

theorem Consumes.topLevelDecl (hk : c.kind.isTopLevelNode = true)
    (h : Consumes similarTo (dispatch c.kind) c) :
    Consumes similarTo (consumeTopLevelDecl dispatch) c := by
  intro rest b
  have hk' : c.label.kind.isTopLevelNode = true := hk
  simp only [consumeTopLevelDecl, bind_apply, peek_encode, requiresNonNull_some, hk', ↓reduceIte]
  exact h rest b

theorem Consumes.constantExpr (hk : c.kind.isConstantExprNode = true)
    (h : Consumes similarTo (dispatch c.kind) c) :
    Consumes similarTo (consumeConstantExpr dispatch) c := by
  intro rest b
  have hk' : c.label.kind.isConstantExprNode = true := hk
  simp only [consumeConstantExpr, bind_apply, peek_encode, requiresNonNull_some, hk', ↓reduceIte]
  exact h rest b

/-- A loop reads as many trees as there are before the reduce marker. -/
theorem ConsumesAll.whileNotReduce {body : ReaderM AST} {fuel : Nat} (hl : cs.length < fuel)
    (h : ∀ c ∈ cs, Consumes similarTo body c) :
    ConsumesAll similarTo (whileNotReduce body fuel) cs := by
  induction cs generalizing fuel with
  | nil =>
    intro rest b
    cases fuel with
    | zero => exact absurd hl (Nat.not_lt_zero _)
    | succ fuel =>
      simp [ASTLayoutReader.whileNotReduce, bind_apply, readTrees]
  | cons c cs ih =>
    intro rest b
    cases fuel with
    | zero => exact absurd hl (Nat.not_lt_zero _)
    | succ fuel =>
      have hc := h c List.mem_cons_self
      have hcs := ih (Nat.lt_of_succ_lt_succ hl) fun x hx => h x (List.mem_cons_of_mem _ hx)
      simp only [ASTLayoutReader.whileNotReduce, bind_apply, Tree.encodeAll_cons, List.append_assoc,
        shouldReduce_encode, Bool.false_eq_true, ↓reduceIte, hc _ b, hcs rest _, pure_apply,
        readTrees]

/-! ### The crawl -/

theorem crawlExpand_eq_skip : ∀ (fuel : Nat) (l r : Layout),
    Rose.skip Node.isNodeRequiringReduceMarker fuel l = some r → crawlExpand fuel l = .ok r
  | 0, _, _, h => by cases h
  | _ + 1, [], _, h => by cases h
  | _ + 1, none :: _, _, h => by cases h; rfl
  | fuel + 1, some n :: rest, r, h => by
    simp only [Rose.skip] at h
    by_cases hn : n.isNodeRequiringReduceMarker = true
    · simp only [hn, ↓reduceIte] at h
      obtain ⟨rest', h₁, h₂⟩ := Option.bind_eq_some_iff.1 h
      simp only [crawlExpand, hn, ↓reduceIte, crawlExpand_eq_skip fuel rest rest' h₁]
      exact crawlExpand_eq_skip fuel rest' r h₂
    · simp only [hn, Bool.false_eq_true, ↓reduceIte] at h
      simp only [crawlExpand, hn, Bool.false_eq_true, ↓reduceIte]
      exact crawlExpand_eq_skip fuel rest r h

/-- `l` can be crawled: the nodes `ns` are handed to the consumer, then the crawl goes on. -/
def Crawls (l : Layout) (ns : List Node) : Prop :=
  ∀ (fuel : Nat) (rest stop : Layout) (ms : List Node),
    (∀ n, fuel ≤ n → crawl n rest = .ok (ms, stop)) →
    ∀ n, l.length + fuel ≤ n → crawl n (l ++ rest) = .ok (ns ++ ms, stop)

theorem Crawls.append {l l' : Layout} {ns ns' : List Node} (h : Crawls l ns) (h' : Crawls l' ns') :
    Crawls (l ++ l') (ns ++ ns') := by
  intro fuel rest stop ms hr n hn
  rw [List.append_assoc, List.append_assoc]
  rw [List.length_append, Nat.add_assoc] at hn
  exact h (l'.length + fuel) _ stop _ (fun k hk => h' fuel rest stop ms hr k hk) n hn

theorem Crawls.all {cs : List Tree}
    (h : ∀ c ∈ cs, Crawls c.encode (c.unframed Node.isNodeRequiringReduceMarker)) :
    Crawls (Tree.encodeAll cs) (crawled cs) := by
  induction cs with
  | nil => exact fun fuel rest stop ms hr n hn => hr n (by simpa using hn)
  | cons c cs ih =>
    exact (h c List.mem_cons_self).append (ih fun x hx => h x (List.mem_cons_of_mem _ hx))

/-- The crawl over an encoded tree hands over its root and, if the root has no reduce marker, what
the crawl over its children hands over. -/
theorem crawls_encode (t : Tree) :
    Crawls t.encode (t.unframed Node.isNodeRequiringReduceMarker) := by
  induction t using Rose.ind with
  | h node cs ih =>
    intro fuel rest stop ms hr n hn
    cases n with
    | zero => exact absurd hn (by simp [Tree.encode_node])
    | succ n =>
      rw [Tree.encode_node] at hn ⊢
      by_cases hm : node.isNodeRequiringReduceMarker = true
      · simp only [hm, ↓reduceIte, List.cons_append, List.append_assoc, List.nil_append,
          List.length_cons, List.length_append, List.length_nil] at hn ⊢
        have inner : crawlExpand n (Tree.encodeAll cs ++ none :: rest) = .ok rest :=
          crawlExpand_eq_skip n _ _ (Rose.skip_encodeAll _ cs rest (by
            change (Tree.encodeAll cs).length < n
            omega))
        have tail : crawl n rest = .ok (ms, stop) := hr n (by omega)
        simp only [crawl, hm, ↓reduceIte, inner, bind, Except.bind, tail, Rose.unframed]
        rfl
      · simp only [hm, Bool.false_eq_true, ↓reduceIte, List.append_nil, List.cons_append,
          List.length_cons] at hn ⊢
        have tail : crawl n (Tree.encodeAll cs ++ rest) = .ok (crawled cs ++ ms, stop) :=
          Crawls.all ih fuel rest stop ms hr n (by omega)
        simp only [crawl, hm, Bool.false_eq_true, ↓reduceIte, bind, Except.bind, pure,
          Except.pure, tail, Rose.unframed]
        rfl

/-- The crawl over the children of a unit stops at the unit's own reduce marker. -/
theorem crawl_encodeAll (cs : List Tree) (rest : Layout) {fuel : Nat}
    (h : (Tree.encodeAll cs).length < fuel) :
    crawl fuel (Tree.encodeAll cs ++ none :: rest) = .ok (crawled cs, none :: rest) := by
  have stop : ∀ n, 1 ≤ n → crawl n (none :: rest) = .ok ([], none :: rest) := by
    intro n hn
    cases n with
    | zero => exact absurd hn (by decide)
    | succ n => rfl
  have := Crawls.all (fun c _ => crawls_encode c) 1 (none :: rest) (none :: rest) [] stop fuel h
  rwa [List.append_nil] at this

theorem crawlScope_encodeAll (cs : List Tree) (rest : Layout) (b : BasicASTBuilder) {fuel : Nat}
    (h : (Tree.encodeAll cs).length < fuel) :
    crawlScope fuel ⟨Tree.encodeAll cs ++ none :: rest, b⟩ =
      .ok (crawled cs, ⟨Tree.encodeAll cs ++ none :: rest, b⟩) := by
  simp only [crawlScope, bind, Except.bind, crawl_encodeAll cs rest h]
  rfl

theorem introduceScope_encodeAll (parent : Node) (cs : List Tree) (rest : Layout)
    (b : BasicASTBuilder) {fuel : Nat} (h : (Tree.encodeAll cs).length < fuel) :
    introduceScope parent fuel ⟨Tree.encodeAll cs ++ none :: rest, b⟩ =
      .ok ((), ⟨Tree.encodeAll cs ++ none :: rest,
        (crawled cs).foldl (introduceChild parent) b⟩) := by
  simp only [introduceScope, bind_apply, crawlScope_encodeAll cs rest b h, build_apply]

/-! ### The consume methods -/

theorem length_encode_pos (c : Tree) : 0 < c.encode.length :=
  List.length_pos_iff.2 (Rose.encode_ne_nil _ c)

theorem length_le_encodeAll (cs : List Tree) : cs.length ≤ (Tree.encodeAll cs).length := by
  induction cs with
  | nil => exact Nat.le_refl _
  | cons c cs ih =>
    have := length_encode_pos c
    rw [Tree.encodeAll_cons, List.length_append, List.length_cons]
    omega

theorem length_encode_le {c : Tree} (h : c ∈ cs) :
    c.encode.length ≤ (Tree.encodeAll cs).length := by
  induction cs with
  | nil => exact absurd h List.not_mem_nil
  | cons d cs ih =>
    rw [Tree.encodeAll_cons, List.length_append]
    rcases List.mem_cons.1 h with rfl | h
    · exact Nat.le_add_right _ _
    · exact Nat.le_add_left_of_le (ih h)

theorem encode_framed {n : Node} (h : n.isNodeRequiringReduceMarker = true) (rest : Layout) :
    Tree.encode (.node n cs) ++ rest = some n :: (Tree.encodeAll cs ++ none :: rest) := by
  simp only [Tree.encode_node, h, ↓reduceIte, List.cons_append, List.append_assoc, List.nil_append]

theorem encode_unframed {n : Node} (h : n.isNodeRequiringReduceMarker = false) (rest : Layout) :
    Tree.encode (.node n cs) ++ rest = some n :: (Tree.encodeAll cs ++ rest) := by
  simp only [Tree.encode_node, h, Bool.false_eq_true, ↓reduceIte, List.cons_append, List.append_nil]

/-- A method that starts with a scoped shift reads a framed node if its body reads the children. -/
theorem Consumes.scoped {n : Node} {body : Node → ReaderM AST}
    (hm : n.kind.isRequiringReduceMarker = true)
    (hb : ∀ rest b, body n ⟨Tree.encodeAll cs ++ none :: rest, b⟩ =
      .ok ((readTree similarTo (.node n cs) b).1,
        ⟨none :: rest, (readTree similarTo (.node n cs) b).2⟩)) :
    Consumes similarTo (scopedShiftAs n.kind body) (.node n cs) := by
  intro rest b
  rw [encode_framed hm]
  exact scopedShiftAs_cons rfl hm (hb rest b)

/-- A method that starts with a shift reads a node without a mark if the rest reads the children. -/
theorem Consumes.shifted {n : Node} {body : Node → ReaderM AST}
    (hm : n.kind.isRequiringReduceMarker = false)
    (hb : ∀ rest b, body n ⟨Tree.encodeAll cs ++ rest, b⟩ =
      .ok ((readTree similarTo (.node n cs) b).1, ⟨rest, (readTree similarTo (.node n cs) b).2⟩)) :
    Consumes similarTo (shiftAs n.kind >>= body) (.node n cs) := by
  intro rest b
  rw [encode_unframed hm, bind_apply, shiftAs_cons rfl]
  exact hb rest b

/-- A leaf is read by a shift. -/
theorem Consumes.leaf {n : Node} (hm : n.kind.isRequiringReduceMarker = false)
    {f : BasicASTBuilder → BasicASTBuilder} {m : ReaderM AST}
    (h : ∀ rest b, m ⟨some n :: rest, b⟩ = .ok (.node { node := n } [], ⟨rest, f b⟩))
    (hr : ∀ b, readTree similarTo (.node n []) b = (.node { node := n } [], f b)) :
    Consumes similarTo m (.node n []) := by
  intro rest b
  rw [encode_unframed hm, Tree.encodeAll_nil, List.nil_append, h, hr]

theorem readUnit_encodeAll {fuel : Nat} (n : Node) (hfuel : (Tree.encodeAll cs).length < fuel)
    (h : ∀ c ∈ cs, Consumes similarTo (consumeTopLevelDecl dispatch) c) (parent : ScopeChain)
    (rest : Layout) (b : BasicASTBuilder) :
    readUnit dispatch fuel n
        ⟨Tree.encodeAll cs ++ none :: rest, b.enterConsistentScope parent⟩ =
      .ok (.node { node := n } (readTrees similarTo cs (enterUnit parent n cs b)).1,
        ⟨none :: rest, (readTrees similarTo cs (enterUnit parent n cs b)).2⟩) := by
  have hl : cs.length < fuel := Nat.lt_of_le_of_lt (length_le_encodeAll cs) hfuel
  have children := ConsumesAll.whileNotReduce hl h rest (enterUnit parent n cs b)
  simp only [readUnit, bind_apply, introduceScope_encodeAll n cs rest _ hfuel, build_apply]
  simp only [enterUnit] at children
  simp only [children, pure_apply, enterUnit]
  rfl

theorem all_map_kind {p : ASTKind → Bool} (h : (cs.map Tree.kind).all p = true) :
    ∀ c ∈ cs, p (Tree.kind c) = true := by
  rw [List.all_map, List.all_eq_true] at h
  exact h

section Methods

variable {fuel : Nat} {id : NodeId} {name : Identifier} {args body ret expr : Tree}

theorem Consumes.unit {n : Node} (hfuel : (Tree.encodeAll cs).length < fuel)
    (h : ∀ c ∈ cs, Consumes similarTo (consumeTopLevelDecl dispatch) c)
    (hn : n.kind = .compilationUnit ∨ n.kind = .metaUnit) :
    Consumes similarTo (consumeHelper similarTo dispatch fuel n.kind) (.node n cs) := by
  obtain ⟨id, data⟩ := n
  cases data with
  | compilationUnit =>
    exact .scoped rfl fun rest b =>
      withConsistentScope_apply (readUnit_encodeAll _ hfuel h [] rest b)
  | metaUnit inst =>
    exact .scoped rfl fun rest b =>
      withConsistentScope_apply (readUnit_encodeAll _ hfuel h _ rest _)
  | _ => rcases hn with hn | hn <;> cases hn

theorem Consumes.functionDecl (hargs : Consumes similarTo (dispatch .argumentDeclList) args)
    (hbody : Consumes similarTo (consumeStmt dispatch) body) (hk : body.kind.isStmtNode = true) :
    Consumes similarTo (consumeFunctionDecl dispatch)
      (.node ⟨id, .functionDecl name⟩ [args, body]) := by
  refine .scoped rfl fun rest b => within_apply ?_
  have hnot : body.kind.isArgumentDecl = false := by
    cases hb : body.kind <;> rw [hb] at hk <;> first | rfl | cases hk
  simp only [Tree.encodeAll_cons, Tree.encodeAll_nil, List.append_assoc, List.nil_append,
    bind_apply, hargs _ _, is_encode, hnot, Bool.false_eq_true, ↓reduceIte, hbody _ _, pure_apply]
  rfl

theorem Consumes.functionDecl_ret (hargs : Consumes similarTo (dispatch .argumentDeclList) args)
    (hret : Consumes similarTo (dispatch .anonymousArgumentDecl) ret)
    (hk : ret.kind.isArgumentDecl = true)
    (hbody : Consumes similarTo (consumeStmt dispatch) body) :
    Consumes similarTo (consumeFunctionDecl dispatch)
      (.node ⟨id, .functionDecl name⟩ [args, ret, body]) := by
  refine .scoped rfl fun rest b => within_apply ?_
  simp only [Tree.encodeAll_cons, Tree.encodeAll_nil, List.append_assoc, List.nil_append,
    bind_apply, hargs _ _, is_encode, hk, ↓reduceIte, hret _ _, hbody _ _, pure_apply]
  rfl

theorem Consumes.metaDecl (hargs : Consumes similarTo (dispatch .argumentDeclList) args)
    (hbody : Consumes similarTo (dispatch .metaContribution) body) :
    Consumes similarTo (consumeMetaDecl dispatch) (.node ⟨id, .metaDecl name⟩ [args, body]) := by
  refine .shifted (n := ⟨id, .metaDecl name⟩) rfl fun rest b => within_apply ?_
  simp only [Tree.encodeAll_cons, Tree.encodeAll_nil, List.append_assoc, List.nil_append,
    bind_apply, hargs _ _, within_apply (hbody _ _), pure_apply]
  rfl

theorem Consumes.argument (h : ret.kind = .namedArgumentDecl →
      Consumes similarTo (dispatch .namedArgumentDecl) ret)
    (hk : ret.kind.isArgumentDecl = true) (hs : ret.WellShaped) :
    Consumes similarTo (consumeAnonymousArgumentDecl dispatch) ret := by
  obtain ⟨⟨id, data⟩, cs⟩ := ret
  cases data with
  | anonymousArgumentDecl =>
    cases cs with
    | nil => exact .leaf (f := fun b => b) rfl (fun _ _ => rfl) fun _ => rfl
    | cons c cs => exact absurd (Tree.wellShaped_node.1 hs).1 Bool.false_ne_true
  | namedArgumentDecl name =>
    intro rest b
    simp only [consumeAnonymousArgumentDecl, bind_apply, is_encode]
    exact h rfl rest b
  | _ => cases hk

theorem Consumes.namedArgumentDecl :
    Consumes similarTo consumeNamedArgumentDecl (.node ⟨id, .namedArgumentDecl name⟩ []) :=
  .leaf rfl (fun _ _ => rfl) fun _ => rfl

theorem Consumes.argumentDeclList (hl : cs.length < fuel)
    (h : ∀ c ∈ cs, Consumes similarTo (dispatch .anonymousArgumentDecl) c) :
    Consumes similarTo (consumeArgumentDeclList dispatch fuel)
      (.node ⟨id, .argumentDeclList⟩ cs) := by
  refine .scoped rfl fun rest b => ?_
  simp only [bind_apply, ConsumesAll.whileNotReduce hl h _ _, pure_apply]
  rfl

theorem Consumes.globalConstantDecl (h : Consumes similarTo (consumeConstantExpr dispatch) expr) :
    Consumes similarTo (consumeGlobalConstantDecl dispatch)
      (.node ⟨id, .globalConstantDecl name⟩ [expr]) := by
  refine .shifted (n := ⟨id, .globalConstantDecl name⟩) rfl fun rest b => ?_
  simp only [bind_apply, Tree.encodeAll_cons, Tree.encodeAll_nil, List.append_nil,
    h _ _, pure_apply]
  rfl

theorem Consumes.metaContribution (hl : cs.length < fuel)
    (h : ∀ c ∈ cs, Consumes similarTo (consumeAny dispatch) c) :
    Consumes similarTo (consumeMetaContribution dispatch fuel)
      (.node ⟨id, .metaContribution⟩ cs) := by
  refine .scoped rfl fun rest b => ?_
  simp only [bind_apply, ConsumesAll.whileNotReduce hl h _ _, pure_apply]
  rfl

theorem Consumes.metaInstantiationExpr (hl : cs.length < fuel)
    (hd : Consumes similarTo (dispatch .declRefExpr) c)
    (h : ∀ c ∈ cs, Consumes similarTo (consumeExpr dispatch) c) :
    Consumes similarTo (consumeMetaInstantiationExpr dispatch fuel)
      (.node ⟨id, .metaInstantiationExpr⟩ (c :: cs)) := by
  refine .scoped rfl fun rest b => ?_
  simp only [Tree.encodeAll_cons, List.append_assoc, bind_apply, hd _ _,
    ConsumesAll.whileNotReduce hl h _ _, pure_apply]
  rfl

theorem Consumes.unscopedCompoundStmt (hl : cs.length < fuel)
    (h : ∀ c ∈ cs, Consumes similarTo (consumeStmt dispatch) c) :
    Consumes similarTo (consumeUnscopedCompoundStmt dispatch fuel)
      (.node ⟨id, .unscopedCompoundStmt⟩ cs) := by
  refine .scoped rfl fun rest b => ?_
  simp only [bind_apply, ConsumesAll.whileNotReduce hl h _ _, pure_apply]
  rfl

theorem Consumes.compoundStmt (hl : cs.length < fuel)
    (h : ∀ c ∈ cs, Consumes similarTo (consumeStmt dispatch) c) :
    Consumes similarTo (consumeCompoundStmt dispatch fuel) (.node ⟨id, .compoundStmt⟩ cs) := by
  refine .scoped rfl fun rest b => within_apply ?_
  simp only [bind_apply, ConsumesAll.whileNotReduce hl h _ _, pure_apply]
  rfl

theorem Consumes.returnStmt_nil :
    Consumes similarTo (consumeReturnStmt dispatch) (.node ⟨id, .returnStmt⟩ []) :=
  .scoped rfl fun _ _ => rfl

theorem Consumes.returnStmt (h : Consumes similarTo (consumeExpr dispatch) expr) :
    Consumes similarTo (consumeReturnStmt dispatch) (.node ⟨id, .returnStmt⟩ [expr]) := by
  refine .scoped rfl fun rest b => ?_
  simp only [Tree.encodeAll_cons, Tree.encodeAll_nil, List.append_assoc, List.nil_append,
    bind_apply, shouldReduce_encode, Bool.false_eq_true, ↓reduceIte, h _ _, pure_apply]
  rfl

theorem Consumes.expressionStmt (h : Consumes similarTo (consumeExpr dispatch) expr) :
    Consumes similarTo (consumeExpressionStmt dispatch)
      (.node ⟨id, .expressionStmt⟩ [expr]) := by
  refine .shifted (n := ⟨id, .expressionStmt⟩) rfl fun rest b => ?_
  simp only [bind_apply, Tree.encodeAll_cons, Tree.encodeAll_nil, List.append_nil,
    h _ _, pure_apply]
  rfl

theorem Consumes.declStmt (h : Consumes similarTo (consumeExpr dispatch) expr) :
    Consumes similarTo (consumeDeclStmt dispatch) (.node ⟨id, .declStmt name⟩ [expr]) := by
  refine .shifted (n := ⟨id, .declStmt name⟩) rfl fun rest b => ?_
  simp only [bind_apply, Tree.encodeAll_cons, Tree.encodeAll_nil, List.append_nil, h _ _,
    build_apply, pure_apply]
  rfl

theorem Consumes.ifStmt (h : Consumes similarTo (consumeExpr dispatch) expr)
    (hbody : Consumes similarTo (consumeStmt dispatch) body) :
    Consumes similarTo (consumeIfStmt dispatch) (.node ⟨id, .ifStmt⟩ [expr, body]) := by
  refine .scoped rfl fun rest b => ?_
  simp only [Tree.encodeAll_cons, Tree.encodeAll_nil, List.append_assoc, List.nil_append,
    bind_apply, h _ _, hbody _ _, shouldReduce_cons, Option.isNone_none, ↓reduceIte, pure_apply]
  rfl

theorem Consumes.ifStmt_else (h : Consumes similarTo (consumeExpr dispatch) expr)
    (hbody : Consumes similarTo (consumeStmt dispatch) body)
    (helse : Consumes similarTo (consumeStmt dispatch) ret) :
    Consumes similarTo (consumeIfStmt dispatch) (.node ⟨id, .ifStmt⟩ [expr, body, ret]) := by
  refine .scoped rfl fun rest b => ?_
  simp only [Tree.encodeAll_cons, Tree.encodeAll_nil, List.append_assoc, List.nil_append,
    bind_apply, h _ _, hbody _ _, shouldReduce_encode, Bool.false_eq_true, ↓reduceIte, helse _ _,
    pure_apply]
  rfl

theorem Consumes.metaIfStmt (h : Consumes similarTo (consumeExpr dispatch) expr)
    (hbody : Consumes similarTo (dispatch .metaContribution) body) :
    Consumes similarTo (consumeMetaIfStmt dispatch) (.node ⟨id, .metaIfStmt⟩ [expr, body]) := by
  refine .scoped rfl fun rest b => ?_
  simp only [Tree.encodeAll_cons, Tree.encodeAll_nil, List.append_assoc, List.nil_append,
    bind_apply, within_apply (h _ _), hbody _ _, shouldReduce_cons, Option.isNone_none, ↓reduceIte,
    pure_apply]
  rfl

theorem Consumes.metaIfStmt_else (h : Consumes similarTo (consumeExpr dispatch) expr)
    (hbody : Consumes similarTo (dispatch .metaContribution) body)
    (helse : Consumes similarTo (dispatch .metaContribution) ret) :
    Consumes similarTo (consumeMetaIfStmt dispatch)
      (.node ⟨id, .metaIfStmt⟩ [expr, body, ret]) := by
  refine .scoped rfl fun rest b => ?_
  simp only [Tree.encodeAll_cons, Tree.encodeAll_nil, List.append_assoc, List.nil_append,
    bind_apply, within_apply (h _ _), hbody _ _, shouldReduce_encode, Bool.false_eq_true,
    ↓reduceIte, helse _ _, pure_apply]
  rfl

theorem Consumes.metaCalculationStmt (h : Consumes similarTo (consumeStmt dispatch) body) :
    Consumes similarTo (consumeMetaCalculationStmt dispatch)
      (.node ⟨id, .metaCalculationStmt⟩ [body]) := by
  refine .shifted (n := ⟨id, .metaCalculationStmt⟩) rfl fun rest b => ?_
  simp only [bind_apply, Tree.encodeAll_cons, Tree.encodeAll_nil, List.append_nil, build_apply,
    within_apply (h _ _)]
  rfl

theorem Consumes.declRefExpr :
    Consumes similarTo (consumeDeclRefExpr similarTo) (.node ⟨id, .declRefExpr name⟩ []) := by
  refine .shifted (n := ⟨id, .declRefExpr name⟩) rfl fun rest b => ?_
  simp only [Tree.encodeAll_nil, List.nil_append, readTree]
  split <;> rfl

theorem Consumes.binaryOperatorExpr {op : ExprBinaryOperator}
    (h : Consumes similarTo (consumeExpr dispatch) expr)
    (h' : Consumes similarTo (consumeExpr dispatch) body) :
    Consumes similarTo (consumeBinaryOperatorExpr dispatch)
      (.node ⟨id, .binaryOperatorExpr op⟩ [expr, body]) := by
  refine .shifted (n := ⟨id, .binaryOperatorExpr op⟩) rfl fun rest b => ?_
  simp only [bind_apply, Tree.encodeAll_cons, Tree.encodeAll_nil, List.append_nil,
    List.append_assoc, h _ _, h' _ _, pure_apply]
  rfl

theorem Consumes.callOperatorExpr (hl : cs.length < fuel)
    (hd : Consumes similarTo (consumeExpr dispatch) c)
    (h : ∀ c ∈ cs, Consumes similarTo (consumeExpr dispatch) c) :
    Consumes similarTo (consumeCallOperatorExpr dispatch fuel)
      (.node ⟨id, .callOperatorExpr⟩ (c :: cs)) := by
  refine .scoped rfl fun rest b => ?_
  simp only [Tree.encodeAll_cons, List.append_assoc, bind_apply, hd _ _,
    ConsumesAll.whileNotReduce hl h _ _, pure_apply]
  rfl

/-- The consume method of a node's kind reads the node if the dispatcher reads its children. -/
theorem Consumes.node {n : Node} (hfuel : (Tree.encodeAll cs).length < fuel)
    (h : ∀ c ∈ cs, ∀ k, readsKind k c.kind → Consumes similarTo (dispatch k) c)
    (hs : Tree.WellShaped (.node n cs)) :
    Consumes similarTo (consumeHelper similarTo dispatch fuel n.kind) (.node n cs) := by
  have hl : cs.length < fuel := Nat.lt_of_le_of_lt (length_le_encodeAll cs) hfuel
  have hfit := (Tree.wellShaped_node.1 hs).1
  have any : ∀ c ∈ cs, Consumes similarTo (consumeAny dispatch) c :=
    fun c hc => .any (h c hc _ (.refl _))
  have stmt : ∀ c ∈ cs, c.kind.isStmtNode = true → Consumes similarTo (consumeStmt dispatch) c :=
    fun c hc hk => .stmt hk (h c hc _ (.refl _))
  have expr : ∀ c ∈ cs, c.kind.isExprNode = true → Consumes similarTo (consumeExpr dispatch) c :=
    fun c hc hk => .expr hk (h c hc _ (.refl _))
  have exact : ∀ c ∈ cs, ∀ k, (c.kind == k) = true → Consumes similarTo (dispatch k) c :=
    fun c hc k hk => h c hc k (.inl (eq_of_beq hk).symm)
  obtain ⟨id, data⟩ := n
  cases data with
  | compilationUnit =>
    have hk := all_map_kind hfit
    exact .unit hfuel (fun c hc => .topLevelDecl (hk c hc) (h c hc _ (.refl _))) (.inl rfl)
  | metaUnit inst =>
    have hk := all_map_kind hfit
    exact .unit hfuel (fun c hc => .topLevelDecl (hk c hc) (h c hc _ (.refl _))) (.inr rfl)
  | functionDecl name =>
    match cs, hfit with
    | [args, body], hfit =>
      obtain ⟨hargs, hbody⟩ := Bool.and_eq_true_iff.1 hfit
      exact .functionDecl (exact _ (by simp) _ hargs) (stmt _ (by simp) hbody) hbody
    | [args, ret, body], hfit =>
      obtain ⟨hfit, hbody⟩ := Bool.and_eq_true_iff.1 hfit
      obtain ⟨hargs, hret⟩ := Bool.and_eq_true_iff.1 hfit
      exact .functionDecl_ret (exact _ (by simp) _ hargs)
        (h _ (by simp) _ (readsKind_argument hret)) hret (stmt _ (by simp) hbody)
  | metaDecl name =>
    match cs, hfit with
    | [args, contribution], hfit =>
      obtain ⟨hargs, hcontribution⟩ := Bool.and_eq_true_iff.1 hfit
      exact .metaDecl (exact _ (by simp) _ hargs) (exact _ (by simp) _ hcontribution)
  | metaContribution => exact .metaContribution hl any
  | argumentDeclList =>
    have hk := all_map_kind hfit
    exact .argumentDeclList hl fun c hc => h c hc _ (readsKind_argument (hk c hc))
  | anonymousArgumentDecl => exact .argument (fun hk => by cases hk) rfl hs
  | namedArgumentDecl name =>
    match cs, hfit with
    | [], _ => exact .namedArgumentDecl
  | globalConstantDecl name =>
    match cs, hfit with
    | [expr], hfit => exact .globalConstantDecl (.constantExpr hfit (h _ (by simp) _ (.refl _)))
  | unscopedCompoundStmt =>
    have hk := all_map_kind hfit
    exact .unscopedCompoundStmt hl fun c hc => stmt c hc (hk c hc)
  | compoundStmt =>
    have hk := all_map_kind hfit
    exact .compoundStmt hl fun c hc => stmt c hc (hk c hc)
  | returnStmt =>
    match cs, hfit with
    | [], _ => exact .returnStmt_nil
    | [_], hfit => exact .returnStmt (expr _ (by simp) hfit)
  | expressionStmt =>
    match cs, hfit with
    | [_], hfit => exact .expressionStmt (expr _ (by simp) hfit)
  | declStmt name =>
    match cs, hfit with
    | [_], hfit => exact .declStmt (expr _ (by simp) hfit)
  | ifStmt =>
    match cs, hfit with
    | [_, _], hfit =>
      obtain ⟨hexpr, htrue⟩ := Bool.and_eq_true_iff.1 hfit
      exact .ifStmt (expr _ (by simp) hexpr) (stmt _ (by simp) htrue)
    | [_, _, _], hfit =>
      obtain ⟨hfit, hfalse⟩ := Bool.and_eq_true_iff.1 hfit
      obtain ⟨hexpr, htrue⟩ := Bool.and_eq_true_iff.1 hfit
      exact .ifStmt_else (expr _ (by simp) hexpr) (stmt _ (by simp) htrue)
        (stmt _ (by simp) hfalse)
  | metaIfStmt =>
    match cs, hfit with
    | [_, _], hfit =>
      obtain ⟨hexpr, htrue⟩ := Bool.and_eq_true_iff.1 hfit
      exact .metaIfStmt (expr _ (by simp) hexpr) (exact _ (by simp) _ htrue)
    | [_, _, _], hfit =>
      obtain ⟨hfit, hfalse⟩ := Bool.and_eq_true_iff.1 hfit
      obtain ⟨hexpr, htrue⟩ := Bool.and_eq_true_iff.1 hfit
      exact .metaIfStmt_else (expr _ (by simp) hexpr) (exact _ (by simp) _ htrue)
        (exact _ (by simp) _ hfalse)
  | metaCalculationStmt =>
    match cs, hfit with
    | [_], hfit => exact .metaCalculationStmt (stmt _ (by simp) hfit)
  | declRefExpr name =>
    match cs, hfit with
    | [], _ => exact .declRefExpr
  | integerLiteralExpr literal =>
    match cs, hfit with
    | [], _ => exact .leaf (f := fun b => b) rfl (fun _ _ => rfl) fun _ => rfl
  | booleanLiteralExpr literal =>
    match cs, hfit with
    | [], _ => exact .leaf (f := fun b => b) rfl (fun _ _ => rfl) fun _ => rfl
  | erroneousExpr => exact absurd hfit (by cases cs <;> exact Bool.false_ne_true)
  | binaryOperatorExpr op =>
    match cs, hfit with
    | [_, _], hfit =>
      obtain ⟨hleft, hright⟩ := Bool.and_eq_true_iff.1 hfit
      exact .binaryOperatorExpr (expr _ (by simp) hleft) (expr _ (by simp) hright)
  | callOperatorExpr =>
    match cs, hfit with
    | c :: cs, hfit =>
      obtain ⟨hcallee, hexprs⟩ := Bool.and_eq_true_iff.1 hfit
      have hk := all_map_kind hexprs
      exact .callOperatorExpr (Nat.lt_of_succ_lt hl) (expr _ (by simp) hcallee)
        fun d hd => expr d (by simp [hd]) (hk d hd)
  | metaInstantiationExpr =>
    match cs, hfit with
    | c :: cs, hfit =>
      obtain ⟨hdecl, hexprs⟩ := Bool.and_eq_true_iff.1 hfit
      have hk := all_map_kind hexprs
      exact .metaInstantiationExpr (Nat.lt_of_succ_lt hl) (exact _ (by simp) _ hdecl)
        fun d hd => expr d (by simp [hd]) (hk d hd)

end Methods

/-- On the encoding of a well shaped tree the reader does what `readTree` does. -/
theorem consumeKind_complete (t : Tree) (hs : t.WellShaped) (fuel : Nat)
    (hfuel : t.encode.length < fuel) (k : ASTKind) (hk : readsKind k t.kind) :
    Consumes similarTo (consumeKind similarTo fuel k) t := by
  induction t using Rose.ind generalizing fuel k with
  | h n cs ih =>
    obtain _ | fuel := fuel
    · exact absurd hfuel (Nat.not_lt_zero _)
    have hlen : (Tree.encodeAll cs).length < fuel := by
      simp only [Tree.encode_node, List.length_cons, List.length_append] at hfuel
      omega
    have hcs : ∀ c ∈ cs, ∀ k, readsKind k (Tree.kind c) →
        Consumes similarTo (consumeKind similarTo fuel k) c := fun c hc k hk =>
      ih c hc ((Tree.wellShaped_node.1 hs).2 c hc) fuel
        (Nat.lt_of_le_of_lt (length_encode_le hc) hlen) k hk
    rcases hk with rfl | ⟨rfl, hk⟩
    · exact .node hlen hcs hs
    · -- the method of an argument calls the one of a named argument on the same node
      refine .argument (fun _ => ?_) (by rw [hk]; rfl) hs
      obtain _ | fuel := fuel
      · exact absurd hlen (Nat.not_lt_zero _)
      obtain ⟨id, data⟩ := n
      cases data with
      | namedArgumentDecl name =>
        match cs, (Tree.wellShaped_node.1 hs).1 with
        | [], _ => exact .namedArgumentDecl
      | _ => cases hk

/-! ## The AST of a tree -/

theorem readTrees_shape (cs : List Tree)
    (h : ∀ c ∈ cs, c.WellShaped → ∀ b, (readTree similarTo c b).1.shape = c)
    (hs : ∀ c ∈ cs, c.WellShaped) (b : BasicASTBuilder) :
    (readTrees similarTo cs b).1.map AST.shape = cs := by
  induction cs generalizing b with
  | nil => rfl
  | cons c cs ih =>
    have hc := h c List.mem_cons_self (hs c List.mem_cons_self) b
    have hcs := ih (fun d hd => h d (List.mem_cons_of_mem _ hd))
      (fun d hd => hs d (List.mem_cons_of_mem _ hd)) (readTree similarTo c b).2
    simp only [readTrees, List.map_cons, hc, hcs]

/-- The AST that is read from the encoding of a well shaped tree has exactly that shape. -/
theorem readTree_shape (t : Tree) (hs : t.WellShaped) (b : BasicASTBuilder) :
    (readTree similarTo t b).1.shape = t := by
  induction t using Rose.ind generalizing b with
  | h n cs ih =>
    obtain ⟨hfit, hcs⟩ := Tree.wellShaped_node.1 hs
    have all := readTrees_shape cs (fun c hc hs => ih c hc hs) hcs
    obtain ⟨id, data⟩ := n
    cases data with
    | metaDecl name =>
      match cs, hfit with
      | [args, contribution], _ =>
        simp only [readTree, AST.shape_node, List.map_cons]
        rw [ih args (by simp) (hcs args (by simp)),
          readTrees_shape [contribution] (fun c hc => ih c (by simp_all))
            (fun c hc => hcs c (by simp_all))]
    | metaIfStmt =>
      match cs, hfit with
      | expression :: branches, _ =>
        simp only [readTree, AST.shape_node, List.map_cons]
        rw [ih expression (by simp) (hcs expression (by simp)),
          readTrees_shape branches (fun c hc => ih c (List.mem_cons_of_mem _ hc))
            (fun c hc => hcs c (List.mem_cons_of_mem _ hc))]
    | namedArgumentDecl name =>
      match cs, hfit with
      | [], _ => rfl
    | declRefExpr name =>
      match cs, hfit with
      | [], _ => simp only [readTree]; split <;> rfl
    | _ => simp only [readTree, AST.shape_node, all]

end Complete

end ASTLayoutReader

end Swy
