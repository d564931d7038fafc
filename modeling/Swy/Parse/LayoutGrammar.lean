import Swy.Parse.LayoutTree

/-!
# The grammar of the reader

A consume method that returns has read the encoding of a well shaped tree of its production and
returns an AST of exactly that shape (`consumeKind_sound`, for every bound on the depth of the
calls). With `consumeKind_complete` the reader accepts exactly the layouts that start with such an
encoding (`consume_accepts_iff`).

`Reads m P` says of a method what it takes off the layout and returns whenever it returns. The rules
below follow the methods' structure: sequencing concatenates what was read.
-/

namespace Swy

open Library

namespace ASTLayoutReader

/-! ## What a method has read when it returns -/

section Reads

variable {α β : Type}

/-- Whenever the method returns, `P` holds of the elements it took off the layout and its result. -/
def Reads (m : ReaderM α) (P : Layout → α → Prop) : Prop :=
  ∀ s a s', m s = .ok (a, s') → ∃ l, s.rest = l ++ s'.rest ∧ P l a

variable {m : ReaderM α} {P P' : Layout → α → Prop} {Q : Layout → β → Prop}

theorem Reads.mono (h : Reads m P) (hP : ∀ l a, P l a → P' l a) : Reads m P' := by
  intro s a s' hm
  obtain ⟨l, hl, ha⟩ := h s a s' hm
  exact ⟨l, hl, hP l a ha⟩

theorem Reads.pure {a : α} (h : P [] a) : Reads (pure a) P := by
  intro s a' s' hm
  cases hm
  exact ⟨[], rfl, h⟩

theorem Reads.throw {e : Fault} : Reads (throw e : ReaderM α) P := fun _ _ _ hm => by cases hm

theorem Reads.bind {f : α → ReaderM β} (h : Reads m P)
    (hf : ∀ l a, P l a → Reads (f a) fun l' b => Q (l ++ l') b) : Reads (m >>= f) Q := by
  intro s b s'' hm
  rw [bind_apply] at hm
  cases hs : m s with
  | error e => rw [hs] at hm; cases hm
  | ok r =>
    obtain ⟨a, s'⟩ := r
    rw [hs] at hm
    obtain ⟨l, hl, ha⟩ := h s a s' hs
    obtain ⟨l', hl', hb⟩ := hf l a ha s' b s'' hm
    exact ⟨l ++ l', by rw [hl, hl', List.append_assoc], hb⟩

/-- A method that reads nothing before the rest goes on. -/
theorem Reads.bind_nil {f : α → ReaderM β} {p : α → Prop} (h : Reads m fun l a => l = [] ∧ p a)
    (hf : ∀ a, p a → Reads (f a) Q) : Reads (m >>= f) Q :=
  .bind h fun l a ⟨hl, ha⟩ => by subst hl; exact hf a ha

theorem Reads.ite {c : Prop} [Decidable c] {m' : ReaderM α} (h : Reads m P) (h' : Reads m' P) :
    Reads (if c then m else m') P := by
  split
  · exact h
  · exact h'

/-! ### The primitives -/

theorem reads_peek : Reads peek fun l _ => l = [] ∧ True := by
  rintro ⟨rest, b⟩ a s' hm
  cases rest with
  | nil => cases hm
  | cons x rest => cases hm; exact ⟨[], rfl, rfl, trivial⟩

theorem reads_shift : Reads shift fun l x => l = [x] := by
  rintro ⟨rest, b⟩ a s' hm
  cases rest with
  | nil => cases hm
  | cons x rest => cases hm; exact ⟨[a], rfl, rfl⟩

theorem reads_requiresNonNull {x : Option Node} :
    Reads (requiresNonNull x) fun l n => l = [] ∧ x = some n := by
  cases x with
  | none => exact .throw
  | some n => exact .pure ⟨rfl, rfl⟩

theorem reads_cast {classof : ASTKind → Bool} {n : Node} :
    Reads (cast classof n) fun l n' => l = [] ∧ n' = n ∧ classof n.kind = true := by
  unfold cast
  split
  · rename_i h
    exact .pure ⟨rfl, rfl, h⟩
  · exact .throw

theorem reads_peekAs {classof : ASTKind → Bool} :
    Reads (peekAs classof) fun l n => l = [] ∧ classof n.kind = true :=
  .bind_nil reads_peek fun _ _ => .bind_nil reads_requiresNonNull fun _ _ =>
    reads_cast.mono fun _ _ ⟨hl, hn, hk⟩ => ⟨hl, hn ▸ hk⟩

theorem reads_is {classof : ASTKind → Bool} : Reads (is classof) fun l _ => l = [] ∧ True :=
  .bind_nil reads_peek fun _ _ => .bind_nil reads_requiresNonNull fun _ _ => .pure ⟨rfl, trivial⟩

theorem reads_shouldReduce : Reads shouldReduce fun l _ => l = [] ∧ True :=
  .bind_nil reads_peek fun _ _ => .pure ⟨rfl, trivial⟩

theorem reads_reduce : Reads reduce fun l _ => l = [none] := by
  rintro ⟨rest, b⟩ a s' hm
  match rest with
  | [] => cases hm
  | none :: rest => cases hm; exact ⟨[none], rfl, rfl⟩
  | some n :: rest => cases hm

theorem reads_shiftAs {kind : ASTKind} :
    Reads (shiftAs kind) fun l n => l = [some n] ∧ n.kind = kind :=
  .bind reads_shift fun l x hl => .bind_nil reads_requiresNonNull fun n hn =>
    reads_cast.mono fun l' n' ⟨hl', hn', hk⟩ => by
      subst hl hl' hn hn'
      exact ⟨rfl, eq_of_beq hk⟩

theorem reads_build {f : BasicASTBuilder → BasicASTBuilder} :
    Reads (build f) fun l _ => l = [] ∧ True := by
  intro s a s' hm
  cases hm
  exact ⟨[], rfl, rfl, trivial⟩

theorem Reads.within {enter leave : BasicASTBuilder → BasicASTBuilder} (h : Reads m P) :
    Reads (within enter leave m) P :=
  .bind_nil reads_build fun _ _ => .bind h fun l a ha => .bind_nil reads_build fun _ _ =>
    .pure (by rwa [List.append_nil])

theorem Reads.withConsistentScope {parent : ScopeChain} (h : Reads m P) :
    Reads (withConsistentScope parent m) P := fun s => h.within s

/-- The end mark that a scoped shift reads after its body. -/
def mark (k : ASTKind) : Layout := if k.isRequiringReduceMarker then [none] else []

theorem Reads.scopedShiftAs {kind : ASTKind} {body : Node → ReaderM α}
    (h : ∀ n : Node, n.kind = kind → Reads (body n) fun l a => P (some n :: (l ++ mark kind)) a) :
    Reads (scopedShiftAs kind body) P := by
  refine .bind reads_shift fun l x hl => .bind_nil reads_requiresNonNull fun n hx =>
    .bind_nil (p := fun n' => n' = n ∧ n.kind = kind) (reads_cast.mono fun _ _ h =>
      ⟨h.1, h.2.1, eq_of_beq h.2.2⟩) fun n' hn => ?_
  obtain ⟨rfl, hk⟩ := hn
  subst hl hx
  refine .bind (h n' hk) fun l a ha => ?_
  have hm : n'.isNodeRequiringReduceMarker = kind.isRequiringReduceMarker := by
    rw [← hk]; rfl
  rw [hm]
  rw [mark] at ha
  split
  · rename_i hmark
    rw [hmark] at ha
    refine .bind reads_reduce fun l' _ hl' => .pure ?_
    rw [hl']
    simpa using ha
  · rename_i hmark
    rw [Bool.eq_false_iff.2 hmark] at ha
    exact .pure (by simpa using ha)

end Reads

/-! ## Trees that were read -/

/-- The elements are the encoding of the AST, which is well shaped and of an accepted kind. -/
def IsEncoding (p : ASTKind → Prop) (l : Layout) (a : AST) : Prop :=
  l = a.shape.encode ∧ a.shape.WellShaped ∧ p a.kind

/-- The elements are the encodings of the ASTs, one after the other. -/
def AreEncodings (l : Layout) (as : List AST) : Prop :=
  l = Tree.encodeAll (as.map AST.shape) ∧ ∀ a ∈ as, a.shape.WellShaped

section Sound

variable {p q : ASTKind → Prop} {m : ReaderM AST} {l l₁ : Layout} {a : AST} {as : List AST}

theorem AreEncodings.nil : AreEncodings [] [] := ⟨rfl, fun _ h => absurd h List.not_mem_nil⟩

theorem AreEncodings.cons (h : IsEncoding p l a) (hs : AreEncodings l₁ as) :
    AreEncodings (l ++ l₁) (a :: as) := by
  obtain ⟨rfl, hw, hp⟩ := h
  obtain ⟨rfl, has⟩ := hs
  refine ⟨rfl, fun x hx => ?_⟩
  rcases List.mem_cons.1 hx with rfl | hx
  · exact hw
  · exact has x hx

theorem IsEncoding.mono (h : IsEncoding p l a) (hp : p a.kind → q a.kind) : IsEncoding q l a :=
  ⟨h.1, h.2.1, hp h.2.2⟩

theorem Reads.whileNotReduce (h : Reads m (IsEncoding p)) :
    ∀ fuel, Reads (whileNotReduce m fuel) fun l as => AreEncodings l as ∧ ∀ a ∈ as, p a.kind
  | 0 => .throw
  | fuel + 1 => .bind_nil reads_shouldReduce fun _ _ => .ite
    (.pure ⟨.nil, fun _ h => absurd h List.not_mem_nil⟩) <|
    .bind h fun _ a ha => .bind (Reads.whileNotReduce h fuel) fun _ as ⟨has, hp⟩ => .pure <| by
      rw [List.append_nil]
      exact ⟨.cons ha has, List.forall_mem_cons.2 ⟨ha.2.2, hp⟩⟩

/-- A node whose children were read is read with its end mark. -/
theorem isEncoding_make {k : ASTKind} (n : ASTNode) (fields : ASTFields) (hn : n.node.kind = k)
    (hl : AreEncodings l fields.children) (hf : k.fits (fields.children.map AST.kind) = true) :
    IsEncoding (· = k) (some n.node :: (l ++ mark k)) (.make n fields) := by
  obtain ⟨rfl, hc⟩ := hl
  subst hn
  refine ⟨?_, ?_, rfl⟩
  · rw [AST.make, AST.shape_node]
    rfl
  · have hk : (fields.children.map AST.shape).map Tree.kind = fields.children.map AST.kind := by
      rw [List.map_map]
      exact List.map_congr_left fun c _ => AST.kind_shape c
    rw [AST.make, AST.shape_node, Tree.wellShaped_node, hk]
    refine ⟨hf, fun c hc' => ?_⟩
    obtain ⟨d, hd, rfl⟩ := List.mem_map.1 hc'
    exact hc d hd

theorem Reads.shifted {k : ASTKind} {body : Node → ReaderM AST}
    (hk : k.isRequiringReduceMarker = false)
    (h : ∀ n : Node, n.kind = k → Reads (body n) fun l a =>
      IsEncoding p (some n :: (l ++ mark k)) a) :
    Reads (shiftAs k >>= body) (IsEncoding p) :=
  .bind reads_shiftAs fun l n ⟨hl, hn⟩ => (h n hn).mono fun l' a ha => by
    rw [mark, hk] at ha
    subst hl
    simpa using ha

theorem all_kind {f : ASTKind → Bool} (h : ∀ a ∈ as, f a.kind = true) :
    (as.map AST.kind).all f = true := by
  rw [List.all_map, List.all_eq_true]
  exact h

/-! ### The dispatching methods -/

variable {dispatch : Dispatcher} {fuel : Nat}

theorem readsKind.eq {k k' : ASTKind} (h : readsKind k k') (hk : k ≠ .anonymousArgumentDecl) :
    k' = k := by
  rcases h with rfl | ⟨rfl, _⟩
  · rfl
  · exact absurd rfl hk

theorem reads_crawlScope (fuel : Nat) : Reads (crawlScope fuel) fun l _ => l = [] ∧ True := by
  intro s a s' hm
  simp only [crawlScope] at hm
  cases hc : crawl fuel s.rest with
  | error e => rw [hc] at hm; cases hm
  | ok nodes => rw [hc] at hm; cases hm; exact ⟨[], rfl, rfl, trivial⟩

theorem reads_introduceScope (n : Node) (fuel : Nat) :
    Reads (introduceScope n fuel) fun l _ => l = [] ∧ True :=
  .bind_nil (reads_crawlScope fuel) fun _ _ => reads_build

theorem reads_consumeNamedArgumentDecl :
    Reads consumeNamedArgumentDecl (IsEncoding (· = .namedArgumentDecl)) :=
  .shifted rfl fun n hn => .bind_nil reads_build fun _ _ => .pure <|
    isEncoding_make { node := n } .none hn .nil rfl

theorem reads_consumeLiteralExpr {k : ASTKind} (hk : k.isConstantExprNode = true) :
    Reads (consumeLiteralExpr k) (IsEncoding (· = k)) := by
  cases k <;> first | exact absurd hk Bool.false_ne_true | skip
  all_goals exact .shifted rfl fun n hn => .pure <| isEncoding_make { node := n } .none hn .nil rfl

theorem reads_consumeDeclRefExpr (similarTo : ScopeChain → Identifier → Option Node) :
    Reads (consumeDeclRefExpr similarTo) (IsEncoding (· = .declRefExpr)) :=
  .shifted rfl fun n hn s a s' hm => by
    have make : ∀ decl, IsEncoding (· = .declRefExpr) (some n :: ([] ++ mark .declRefExpr))
        (.make { node := n, decl } .none) := fun decl =>
      isEncoding_make { node := n, decl } .none hn .nil rfl
    split at hm
    · split at hm
      · cases hm; exact ⟨[], rfl, make _⟩
      · cases hm; exact ⟨[], rfl, make _⟩
    · cases hm

theorem reads_get : Reads (get : ReaderM State) fun l _ => l = [] ∧ True := by
  intro s a s' hm
  cases hm
  exact ⟨[], rfl, rfl, trivial⟩

section Dispatch

variable (h : ∀ k, Reads (dispatch k) (IsEncoding (readsKind k)))
include h

theorem reads_exact {k : ASTKind} (hk : k ≠ .anonymousArgumentDecl) :
    Reads (dispatch k) (IsEncoding (· = k)) :=
  (h k).mono fun _ _ ha => ha.mono fun hr => hr.eq hk

theorem reads_argument : Reads (dispatch .anonymousArgumentDecl)
    (IsEncoding fun k => k.isArgumentDecl = true) :=
  (h _).mono fun _ a ha => ha.mono fun hr => by
    rcases hr with hr | ⟨_, hr⟩
    · rw [← hr]; rfl
    · rw [hr]; rfl

/-- Dispatching on the kind of the next node reads a tree of an accepted kind. -/
theorem reads_dispatch {classof : ASTKind → Bool} (hc : classof .anonymousArgumentDecl = false)
    {k : ASTKind} (hk : classof k = true) :
    Reads (dispatch k) (IsEncoding fun k => classof k = true) := by
  refine (reads_exact h fun hk' => ?_).mono fun _ _ ha => ha.mono fun hr => by rw [hr, hk]
  rw [hk', hc] at hk
  cases hk

theorem reads_consumeAny : Reads (consumeAny dispatch) (IsEncoding fun _ => True) :=
  .bind_nil reads_peek fun _ _ => .bind_nil reads_requiresNonNull fun _ _ =>
    (h _).mono fun _ _ ha => ha.mono fun _ => trivial

theorem reads_consumeStmt :
    Reads (consumeStmt dispatch) (IsEncoding fun k => k.isStmtNode = true) :=
  .bind_nil reads_peekAs fun _ hk => reads_dispatch h rfl hk

theorem reads_consumeExpr :
    Reads (consumeExpr dispatch) (IsEncoding fun k => k.isExprNode = true) :=
  .bind_nil reads_peekAs fun _ hk => reads_dispatch h rfl hk

theorem reads_consumeTopLevelDecl :
    Reads (consumeTopLevelDecl dispatch) (IsEncoding fun k => k.isTopLevelNode = true) :=
  .bind_nil reads_peek fun _ _ => .bind_nil reads_requiresNonNull fun n _ => by
    split
    · rename_i hk
      exact reads_dispatch h rfl hk
    · exact .throw

theorem reads_consumeConstantExpr :
    Reads (consumeConstantExpr dispatch) (IsEncoding fun k => k.isConstantExprNode = true) :=
  .bind_nil reads_peek fun _ _ => .bind_nil reads_requiresNonNull fun n _ => by
    split
    · rename_i hk
      exact reads_dispatch h rfl hk
    · exact .throw

/-! ### The consume methods -/

theorem reads_readUnit {k : ASTKind} (hk : k.isUnitNode = true) (n : Node) (hn : n.kind = k) :
    Reads (readUnit dispatch fuel n) fun l a => IsEncoding (· = k) (some n :: (l ++ mark k)) a :=
  .bind_nil (reads_introduceScope n fuel) fun _ _ => .bind_nil reads_build fun _ _ =>
    .bind (.whileNotReduce (reads_consumeTopLevelDecl h) fuel) fun _ as ⟨has, hp⟩ => .pure <| by
      rw [List.append_nil]
      refine isEncoding_make { node := n } (.unit as) hn has ?_
      cases k <;> first | exact all_kind hp | cases hk

theorem reads_consumeCompilationUnit :
    Reads (consumeCompilationUnit dispatch fuel) (IsEncoding (· = .compilationUnit)) :=
  .scopedShiftAs fun n hn => .withConsistentScope (reads_readUnit h rfl n hn)

theorem reads_consumeMetaUnit :
    Reads (consumeMetaUnit dispatch fuel) (IsEncoding (· = .metaUnit)) :=
  .scopedShiftAs fun n hn _ => (Reads.withConsistentScope (reads_readUnit h rfl n hn)) _

theorem reads_consumeFunctionDecl :
    Reads (consumeFunctionDecl dispatch) (IsEncoding (· = .functionDecl)) :=
  .scopedShiftAs fun n hn => .within <|
    .bind (reads_exact h (k := .argumentDeclList) (by decide)) fun _ args hargs =>
    .bind_nil reads_is fun _ _ => .ite
      (.bind (reads_argument h) fun _ ret hret => .bind (reads_consumeStmt h) fun _ body hbody =>
        .pure <| isEncoding_make { node := n } (.functionDecl args ret body) hn
          (.cons hargs (.cons hret (.cons hbody .nil)))
          (by simp [ASTFields.children, ASTKind.fits, hargs.2.2, hret.2.2, hbody.2.2]))
      (.bind (reads_consumeStmt h) fun _ body hbody =>
        .pure <| isEncoding_make { node := n } (.functionDecl args none body) hn
          (.cons hargs (.cons hbody .nil))
          (by simp [ASTFields.children, ASTKind.fits, hargs.2.2, hbody.2.2]))

theorem reads_consumeArgumentDeclList :
    Reads (consumeArgumentDeclList dispatch fuel) (IsEncoding (· = .argumentDeclList)) :=
  .scopedShiftAs fun n hn => .bind (.whileNotReduce (reads_argument h) fuel) fun _ as ⟨has, hp⟩ =>
    .pure <| by
      rw [List.append_nil]
      exact isEncoding_make { node := n } (.argumentDeclList as) hn has (all_kind hp)

theorem reads_consumeAnonymousArgumentDecl :
    Reads (consumeAnonymousArgumentDecl dispatch)
      (IsEncoding (readsKind .anonymousArgumentDecl)) :=
  .bind_nil reads_is fun _ _ => .ite
    ((reads_exact h (by decide)).mono fun _ _ ha => ha.mono fun hk => .inr ⟨rfl, hk⟩)
    (.shifted rfl fun n hn => .pure <|
      (isEncoding_make { node := n } .none hn .nil rfl).mono fun hk => .inl hk.symm)

theorem reads_consumeMetaDecl : Reads (consumeMetaDecl dispatch) (IsEncoding (· = .metaDecl)) :=
  .shifted rfl fun n hn => .within <|
    .bind (reads_exact h (k := .argumentDeclList) (by decide)) fun _ args hargs =>
    .bind (.within (reads_exact h (k := .metaContribution) (by decide))) fun _ contribution hc =>
      .pure <| isEncoding_make { node := n } (.metaDecl args contribution) hn
        (.cons hargs (.cons hc .nil))
        (by simp [ASTFields.children, ASTKind.fits, hargs.2.2, hc.2.2])

theorem reads_consumeGlobalConstantDecl :
    Reads (consumeGlobalConstantDecl dispatch) (IsEncoding (· = .globalConstantDecl)) :=
  .shifted rfl fun n hn => .bind (reads_consumeConstantExpr h) fun _ expr hexpr =>
    .pure <| isEncoding_make { node := n } (.withExpression expr) hn (.cons hexpr .nil)
      (by simp [ASTFields.children, ASTKind.fits, hexpr.2.2])

theorem reads_consumeMetaContribution :
    Reads (consumeMetaContribution dispatch fuel) (IsEncoding (· = .metaContribution)) :=
  .scopedShiftAs fun n hn => .bind (.whileNotReduce (reads_consumeAny h) fuel) fun _ as ⟨has, _⟩ =>
    .pure <| by
      rw [List.append_nil]
      exact isEncoding_make { node := n } (.metaContribution as) hn has rfl

theorem reads_consumeMetaInstantiationExpr :
    Reads (consumeMetaInstantiationExpr dispatch fuel) (IsEncoding (· = .metaInstantiationExpr)) :=
  .scopedShiftAs fun n hn => .bind (reads_exact h (k := .declRefExpr) (by decide)) fun _ decl hd =>
    .bind (.whileNotReduce (reads_consumeExpr h) fuel) fun _ as ⟨has, hp⟩ => .pure <| by
      rw [List.append_nil]
      exact isEncoding_make { node := n } (.metaInstantiationExpr decl as) hn (.cons hd has)
        (Bool.and_eq_true_iff.2 ⟨beq_iff_eq.2 hd.2.2, all_kind hp⟩)

theorem reads_consumeUnscopedCompoundStmt :
    Reads (consumeUnscopedCompoundStmt dispatch fuel) (IsEncoding (· = .unscopedCompoundStmt)) :=
  .scopedShiftAs fun n hn => .bind (.whileNotReduce (reads_consumeStmt h) fuel)
    fun _ as ⟨has, hp⟩ => .pure <| by
      rw [List.append_nil]
      exact isEncoding_make { node := n } (.compoundStmt as) hn has (all_kind hp)

theorem reads_consumeCompoundStmt :
    Reads (consumeCompoundStmt dispatch fuel) (IsEncoding (· = .compoundStmt)) :=
  .scopedShiftAs fun n hn => .within <| .bind (.whileNotReduce (reads_consumeStmt h) fuel)
    fun _ as ⟨has, hp⟩ => .pure <| by
      rw [List.append_nil]
      exact isEncoding_make { node := n } (.compoundStmt as) hn has (all_kind hp)

theorem reads_consumeReturnStmt :
    Reads (consumeReturnStmt dispatch) (IsEncoding (· = .returnStmt)) :=
  .scopedShiftAs fun n hn => .bind_nil reads_shouldReduce fun _ _ => .ite
    (.pure <| isEncoding_make { node := n } (.returnStmt none) hn .nil rfl)
    (.bind (reads_consumeExpr h) fun _ expr hexpr => .pure <|
      isEncoding_make { node := n } (.returnStmt (some expr)) hn (.cons hexpr .nil) hexpr.2.2)

theorem reads_consumeExpressionStmt :
    Reads (consumeExpressionStmt dispatch) (IsEncoding (· = .expressionStmt)) :=
  .shifted rfl fun n hn => .bind (reads_consumeExpr h) fun _ expr hexpr => .pure <|
    isEncoding_make { node := n } (.withExpression expr) hn (.cons hexpr .nil) hexpr.2.2

theorem reads_consumeDeclStmt : Reads (consumeDeclStmt dispatch) (IsEncoding (· = .declStmt)) :=
  .shifted rfl fun n hn => .bind (reads_consumeExpr h) fun _ expr hexpr =>
    .bind_nil reads_build fun _ _ => .pure <|
      isEncoding_make { node := n } (.withExpression expr) hn (.cons hexpr .nil) hexpr.2.2

theorem reads_consumeIfStmt : Reads (consumeIfStmt dispatch) (IsEncoding (· = .ifStmt)) :=
  .scopedShiftAs fun n hn => .bind (reads_consumeExpr h) fun _ expr hexpr =>
    .bind (reads_consumeStmt h) fun _ body hbody => .bind_nil reads_shouldReduce fun _ _ => .ite
      (.pure <| isEncoding_make { node := n } (.ifStmt expr body none) hn
        (.cons hexpr (.cons hbody .nil))
        (by simp [ASTFields.children, ASTKind.fits, hexpr.2.2, hbody.2.2]))
      (.bind (reads_consumeStmt h) fun _ other hother => .pure <|
        isEncoding_make { node := n } (.ifStmt expr body (some other)) hn
          (.cons hexpr (.cons hbody (.cons hother .nil)))
          (by simp [ASTFields.children, ASTKind.fits, hexpr.2.2, hbody.2.2, hother.2.2]))

theorem reads_consumeMetaIfStmt :
    Reads (consumeMetaIfStmt dispatch) (IsEncoding (· = .metaIfStmt)) :=
  have contribution := reads_exact h (k := .metaContribution) (by decide)
  .scopedShiftAs fun n hn => .bind (.within (reads_consumeExpr h)) fun _ expr hexpr =>
    .bind contribution fun _ body hbody => .bind_nil reads_shouldReduce fun _ _ => .ite
      (.pure <| isEncoding_make { node := n } (.ifStmt expr body none) hn
        (.cons hexpr (.cons hbody .nil))
        (by simp [ASTFields.children, ASTKind.fits, hexpr.2.2, hbody.2.2]))
      (.bind contribution fun _ other hother => .pure <|
        isEncoding_make { node := n } (.ifStmt expr body (some other)) hn
          (.cons hexpr (.cons hbody (.cons hother .nil)))
          (by simp [ASTFields.children, ASTKind.fits, hexpr.2.2, hbody.2.2, hother.2.2]))

theorem reads_consumeMetaCalculationStmt :
    Reads (consumeMetaCalculationStmt dispatch) (IsEncoding (· = .metaCalculationStmt)) :=
  .shifted rfl fun n hn => .bind_nil reads_build fun _ _ =>
    .bind (.within (reads_consumeStmt h)) fun _ stmt hstmt => .bind_nil reads_get fun s _ =>
      .bind_nil reads_build fun _ _ => .pure <|
        isEncoding_make ⟨n, none, s.builder.currentScope.listened⟩ (.metaCalculationStmt stmt) hn
          (.cons hstmt .nil) hstmt.2.2

theorem reads_consumeBinaryOperatorExpr :
    Reads (consumeBinaryOperatorExpr dispatch) (IsEncoding (· = .binaryOperatorExpr)) :=
  .shifted rfl fun n hn => .bind (reads_consumeExpr h) fun _ left hleft =>
    .bind (reads_consumeExpr h) fun _ right hright => .pure <|
      isEncoding_make { node := n } (.binaryOperatorExpr left right) hn
        (.cons hleft (.cons hright .nil)) (Bool.and_eq_true_iff.2 ⟨hleft.2.2, hright.2.2⟩)

theorem reads_consumeCallOperatorExpr :
    Reads (consumeCallOperatorExpr dispatch fuel) (IsEncoding (· = .callOperatorExpr)) :=
  .scopedShiftAs fun n hn => .bind (reads_consumeExpr h) fun _ callee hcallee =>
    .bind (.whileNotReduce (reads_consumeExpr h) fuel) fun _ as ⟨has, hp⟩ => .pure <| by
      rw [List.append_nil]
      exact isEncoding_make { node := n } (.callOperatorExpr callee as) hn (.cons hcallee has)
        (Bool.and_eq_true_iff.2 ⟨hcallee.2.2, all_kind hp⟩)

/-- Every method of the dispatcher reads trees of its kind if the methods it calls do. -/
theorem reads_consumeHelper (similarTo : ScopeChain → Identifier → Option Node) (k : ASTKind) :
    Reads (consumeHelper similarTo dispatch fuel k) (IsEncoding (readsKind k)) := by
  have of : ∀ {m k}, Reads m (IsEncoding (· = k)) → Reads m (IsEncoding (readsKind k)) :=
    fun hm => hm.mono fun _ _ ha => ha.mono fun hk => .inl hk.symm
  cases k with
  | compilationUnit => exact of (reads_consumeCompilationUnit h)
  | metaUnit => exact of (reads_consumeMetaUnit h)
  | functionDecl => exact of (reads_consumeFunctionDecl h)
  | metaDecl => exact of (reads_consumeMetaDecl h)
  | metaContribution => exact of (reads_consumeMetaContribution h)
  | argumentDeclList => exact of (reads_consumeArgumentDeclList h)
  | anonymousArgumentDecl => exact reads_consumeAnonymousArgumentDecl h
  | namedArgumentDecl => exact of reads_consumeNamedArgumentDecl
  | globalConstantDecl => exact of (reads_consumeGlobalConstantDecl h)
  | unscopedCompoundStmt => exact of (reads_consumeUnscopedCompoundStmt h)
  | compoundStmt => exact of (reads_consumeCompoundStmt h)
  | returnStmt => exact of (reads_consumeReturnStmt h)
  | expressionStmt => exact of (reads_consumeExpressionStmt h)
  | declStmt => exact of (reads_consumeDeclStmt h)
  | ifStmt => exact of (reads_consumeIfStmt h)
  | metaIfStmt => exact of (reads_consumeMetaIfStmt h)
  | metaCalculationStmt => exact of (reads_consumeMetaCalculationStmt h)
  | declRefExpr => exact of (reads_consumeDeclRefExpr similarTo)
  | integerLiteralExpr => exact of (reads_consumeLiteralExpr rfl)
  | booleanLiteralExpr => exact of (reads_consumeLiteralExpr rfl)
  | erroneousExpr => exact .throw
  | binaryOperatorExpr => exact of (reads_consumeBinaryOperatorExpr h)
  | callOperatorExpr => exact of (reads_consumeCallOperatorExpr h)
  | metaInstantiationExpr => exact of (reads_consumeMetaInstantiationExpr h)

end Dispatch

/-- A consume method that returns has read the encoding of a tree of its kind. -/
theorem consumeKind_sound (similarTo : ScopeChain → Identifier → Option Node) :
    ∀ (fuel : Nat) (k : ASTKind),
      Reads (consumeKind similarTo fuel k) (IsEncoding (readsKind k))
  | 0, _ => .throw
  | fuel + 1, k => reads_consumeHelper (consumeKind_sound similarTo fuel) similarTo k

end Sound

/-! ## The accepted layouts -/

section Accepted

variable {similarTo : ScopeChain → Identifier → Option Node} {p : Production} {t : Tree}

/-- On the encoding of a tree of the production the reader returns and stops behind it. -/
theorem consumeWith_complete (ht : p.Reads t) {fuel : Nat} (hfuel : t.encode.length < fuel) :
    Consumes similarTo (consumeWith similarTo fuel p) t := by
  obtain ⟨hs, hp⟩ := ht
  have kind : ∀ k, readsKind k t.kind → Consumes similarTo (consumeKind similarTo fuel k) t :=
    consumeKind_complete t hs fuel hfuel
  cases p with
  | kind k => exact kind k hp
  | any => exact .any (kind _ (.refl _))
  | stmt => exact .stmt hp (kind _ (.refl _))
  | expr => exact .expr hp (kind _ (.refl _))

/-- When the reader returns it has read the encoding of a tree of the production. -/
theorem consumeWith_sound {fuel : Nat} {s s' : State} {a : AST}
    (h : consumeWith similarTo fuel p s = .ok (a, s')) :
    p.Reads a.shape ∧ s.rest = a.shape.encode ++ s'.rest := by
  have sound := consumeKind_sound similarTo fuel
  have of : ∀ {q : ASTKind → Prop}, Reads (consumeWith similarTo fuel p) (IsEncoding q) →
      s.rest = a.shape.encode ++ s'.rest ∧ a.shape.WellShaped ∧ q a.kind := fun hr => by
    obtain ⟨l, hl, he, ha⟩ := hr s a s' h
    exact ⟨he ▸ hl, ha⟩
  cases p with
  | kind k =>
    obtain ⟨hl, hs, hk⟩ := of (sound k)
    exact ⟨⟨hs, by rwa [AST.kind_shape]⟩, hl⟩
  | any =>
    obtain ⟨hl, hs, _⟩ := of (reads_consumeAny sound)
    exact ⟨⟨hs, trivial⟩, hl⟩
  | stmt =>
    obtain ⟨hl, hs, hk⟩ := of (reads_consumeStmt sound)
    exact ⟨⟨hs, by rwa [AST.kind_shape]⟩, hl⟩
  | expr =>
    obtain ⟨hl, hs, hk⟩ := of (reads_consumeExpr sound)
    exact ⟨⟨hs, by rwa [AST.kind_shape]⟩, hl⟩

theorem consume_complete (similarTo : ScopeChain → Identifier → Option Node) (ht : p.Reads t) :
    Consumes similarTo (consume similarTo p) t :=
  fun rest b => consumeWith_complete ht
    (by rw [List.length_append]; exact Nat.lt_succ_of_le (Nat.le_add_right _ _)) rest b

/-- What the reader returns, and the builder it leaves, are those of the tree it has read. -/
theorem consume_eq_readTree {s s' : State} {a : AST} (h : consume similarTo p s = .ok (a, s')) :
    p.Reads a.shape ∧ s.rest = a.shape.encode ++ s'.rest ∧
      readTree similarTo a.shape s.builder = (a, s'.builder) := by
  obtain ⟨ht, hl⟩ := consumeWith_sound h
  obtain ⟨rest, b⟩ := s
  have hcomplete := consume_complete similarTo ht s'.rest b
  rw [← hl, h] at hcomplete
  obtain ⟨hread, hs⟩ := Prod.mk.inj (Except.ok.inj hcomplete)
  exact ⟨ht, hl, Prod.ext hread.symm (congrArg State.builder hs).symm⟩

/-- The reader accepts exactly the tree grammar and inverts the encoding: from any position of any
layout it returns iff the rest of the layout starts with the encoding of a tree of the production,
and then it returns that tree and stops right behind its encoding. -/
theorem consume_iff_encode (similarTo : ScopeChain → Identifier → Option Node) (p : Production)
    (layout : Layout) (pos : Nat) (b : BasicASTBuilder) :
    ((∃ a s, consume similarTo p ⟨layout.drop pos, b⟩ = .ok (a, s)) ↔
      ∃ t, p.Reads t ∧ t.encode <+: layout.drop pos) ∧
    ∀ t, p.Reads t → t.encode <+: layout.drop pos →
      ∃ a b', consume similarTo p ⟨layout.drop pos, b⟩ =
          .ok (a, ⟨layout.drop (pos + t.encode.length), b'⟩) ∧
        a.shape = t ∧
        a.shape.encode = (layout.drop pos).take t.encode.length := by
  have complete : ∀ t, p.Reads t → t.encode <+: layout.drop pos →
      ∃ a b', consume similarTo p ⟨layout.drop pos, b⟩ =
          .ok (a, ⟨layout.drop (pos + t.encode.length), b'⟩) ∧
        a.shape = t ∧
        a.shape.encode = (layout.drop pos).take t.encode.length := by
    rintro t ht ⟨rest, hrest⟩
    have hdrop : layout.drop (pos + t.encode.length) = rest := by
      rw [← List.drop_drop, ← hrest, List.drop_left]
    have hshape : (readTree similarTo t b).1.shape = t := readTree_shape t ht.1 b
    refine ⟨_, (readTree similarTo t b).2, ?_, hshape, ?_⟩
    · rw [hdrop, ← hrest]
      exact consume_complete similarTo ht rest b
    · rw [hshape, ← hrest, List.take_left]
  refine ⟨⟨?_, ?_⟩, complete⟩
  · rintro ⟨a, s, h⟩
    obtain ⟨ht, hl⟩ := consumeWith_sound h
    exact ⟨a.shape, ht, s.rest, hl.symm⟩
  · rintro ⟨t, ht, hpre⟩
    obtain ⟨a, b', h, _⟩ := complete t ht hpre
    exact ⟨a, _, h⟩

/-- `return 7;` in front of an element the reader leaves alone. -/
theorem consume_iff_encode_return :
    ∃ a b', consume (fun _ _ => none) .stmt
        ⟨[some ⟨0, .returnStmt⟩, some ⟨1, .integerLiteralExpr 7⟩, none, none], .start .empty⟩ =
          .ok (a, ⟨[none], b'⟩) ∧
      a.shape = .node ⟨0, .returnStmt⟩ [.node ⟨1, .integerLiteralExpr 7⟩ []] := by
  obtain ⟨a, b', h, hshape, _⟩ := (consume_iff_encode (fun _ _ => none) .stmt
    [some ⟨0, .returnStmt⟩, some ⟨1, .integerLiteralExpr 7⟩, none, none] 0 (.start .empty)).2
    (.node ⟨0, .returnStmt⟩ [.node ⟨1, .integerLiteralExpr 7⟩ []]) ⟨by decide, rfl⟩ ⟨[none], rfl⟩
  exact ⟨a, b', h, hshape⟩

end Accepted

end ASTLayoutReader

end Swy
