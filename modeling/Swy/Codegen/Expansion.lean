import Swy.Codegen.MetaCodegen
import Swy.Codegen.Effects
import Swy.Parse.ASTLayoutWriter

/-!
# The expansion of a meta decl

What a meta function does, on three levels. `Interpreter.execMeta` is the sequence of callbacks a
structural interpreter of the contribution performs, `NodeContributor` is what the callbacks write
into the layout, and `expand` is the forest that is contributed, by recursion on the AST: a node of
the runtime stage stands for itself, a meta if for what its branch taken contributes, and a meta
calculation for the declarations it exports. A calculation may return, which ends the expansion
there (`expansion`). The callbacks write the encoding of the expansion, or an encoding in which
reduce markers are missing if it ends inside of a node (`execMeta_yieldsTo`). Without a return they
write the encoding of the whole (`execMeta_yields`).
-/

namespace Swy

open Library

namespace Interpreter

variable (ctx : IRContext) (rt : Runtime)

/-- Introduces declarations with the values of their variables. -/
def introduceDecls (level : DepthLevel) : List Node → Exec Unit
  | [] => return ()
  | decl :: decls => do
    let value ← Exec.load decl.id
    Exec.emit (.introduce decl value level)
    introduceDecls level decls

/-- A contributed node: in front of its children, with a reduce marker behind them if its kind
requires one. -/
def execContributed (node : Node) (children : Exec Flow) : Exec Flow := do
  Exec.emit (.contribute node)
  andThen children do
    if node.isNodeRequiringReduceMarker then Exec.emit .reduce
    return .next

mutual
/-- What the meta function does for a node at the given depth. -/
def execMeta (level : DepthLevel) : AST → Exec Flow
  | .node n cs =>
    match n.node.data, cs with
    | .metaDecl _, _ => return .next
    | .metaContribution, cs => execMetas level cs
    | .metaIfStmt, [condition, trueBranch] =>
      evalIf rt (evalExpr ctx rt condition) (execMeta level trueBranch) (return .next)
    | .metaIfStmt, [condition, trueBranch, falseBranch] =>
      evalIf rt (evalExpr ctx rt condition) (execMeta level trueBranch)
        (execMeta level falseBranch)
    | .metaCalculationStmt, [stmt] =>
      andThen (execStmt ctx rt stmt) do
        introduceDecls level n.exportedDecls
        return .next
    | .metaIfStmt, _ | .metaCalculationStmt, _ => return .next
    | .metaUnit _, _ => return .next
    | _, cs => execContributed n.node (execMetas (.below n.node.kind level) cs)
/-- What the meta function does for the nodes of a list. -/
def execMetas (level : DepthLevel) : List AST → Exec Flow
  | [] => return .next
  | c :: cs => andThen (execMeta level c) (execMetas level cs)
end

/-- What a meta function does. -/
def execMetaFunction (arguments : List Word) (args contribution : AST) : Exec Flow := do
  bindArguments arguments 0 args.children
  introduceDecls .topLevel (MetaCodegen.namedArguments args)
  andThen (execMeta ctx rt .topLevel contribution) do
    Exec.emit (.ret none)
    return .returned

end Interpreter

namespace IsStmtEffect

variable {P : {α : Type} → Exec α → Prop} (h : IsStmtEffect P) (ctx : IRContext) (rt : Runtime)
include h

theorem introduceDecls {level : DepthLevel} {decls : List Node}
    (hintroduce : ∀ decl ∈ decls, P (do
      let value ← Exec.load decl.id
      Exec.emit (.introduce decl value level))) :
    P (Interpreter.introduceDecls level decls) := by
  induction decls with
  | nil => exact h.pure _
  | cons decl decls ih =>
    have hbind := h.bind (hintroduce decl List.mem_cons_self) fun _ =>
      ih fun d hd => hintroduce d (List.mem_cons_of_mem _ hd)
    rw [bind_assoc] at hbind
    exact hbind

theorem execContributed {node : Node} {e : Exec Flow} (hreduce : P (Exec.emit .reduce))
    (hcontribute : P (Exec.emit (.contribute node))) (he : P e) :
    P (Interpreter.execContributed node e) := by
  refine h.bind hcontribute fun _ => h.andThen he ?_
  by_cases hmarker : node.isNodeRequiringReduceMarker = true
  · simp only [hmarker, if_true]
    exact h.bind hreduce fun _ => h.pure _
  · simp only [hmarker]
    exact h.pure _

theorem execMetas {level : DepthLevel} {cs : List AST}
    (hcs : ∀ c ∈ cs, P (Interpreter.execMeta ctx rt level c)) :
    P (Interpreter.execMetas ctx rt level cs) := by
  induction cs with
  | nil => exact h.pure _
  | cons c cs ih =>
    exact h.andThen (hcs c List.mem_cons_self) (ih fun x hx => hcs x (List.mem_cons_of_mem _ hx))

/-- Meta code has the property if what it writes has: the nodes of its tree that are no meta code
themselves, and the declarations that its calculations export. -/
theorem execMeta (a : AST) (hreduce : P (Exec.emit .reduce))
    (hcontribute : ∀ n ∈ a.labels, n.node.kind.isIntermediateNode = false →
      P (Exec.emit (.contribute n.node)))
    (hintroduce : ∀ n ∈ a.labels, n.node.kind = .metaCalculationStmt →
      ∀ decl ∈ n.exportedDecls, ∀ level, P (do
        let value ← Exec.load decl.id
        Exec.emit (.introduce decl value level)))
    (level : DepthLevel) : P (Interpreter.execMeta ctx rt level a) := by
  have heval := h.evalExpr ctx rt
  induction a using Rose.ind generalizing level with
  | h n cs ih =>
    have below {c : AST} (hc : c ∈ cs) {m : ASTNode} (hm : m ∈ c.labels) :
        m ∈ (Rose.node n cs).labels := Rose.mem_labels_node.2 (.inr ⟨c, hc, hm⟩)
    have ih (c : AST) (hc : c ∈ cs) := ih c hc (fun m hm => hcontribute m (below hc hm))
      fun m hm => hintroduce m (below hc hm)
    have hroot := hcontribute n (Rose.mem_labels_node.2 (.inl rfl))
    have hexports := hintroduce n (Rose.mem_labels_node.2 (.inl rfl))
    obtain ⟨⟨id, data⟩, decl, exportedDecls⟩ := n
    cases data with
    | metaDecl name => exact h.pure _
    | metaUnit inst => exact h.pure _
    | metaContribution => exact h.execMetas ctx rt fun c hc => ih c hc level
    | metaIfStmt =>
      rcases cs with _ | ⟨condition, _ | ⟨trueBranch, _ | ⟨falseBranch, _ | ⟨c, cs⟩⟩⟩⟩
      · exact h.pure _
      · exact h.pure _
      · exact h.evalIf rt (heval condition) (ih trueBranch (by simp) level) (h.pure _)
      · exact h.evalIf rt (heval condition) (ih trueBranch (by simp) level)
          (ih falseBranch (by simp) level)
      · exact h.pure _
    | metaCalculationStmt =>
      rcases cs with _ | ⟨stmt, _ | ⟨c, cs⟩⟩
      · exact h.pure _
      · exact h.andThen (h.execStmt ctx rt stmt)
          (h.bind (h.introduceDecls fun d hd => hexports rfl d hd level) fun _ => h.pure _)
      · exact h.pure _
    | _ => exact h.execContributed hreduce (hroot rfl) (h.execMetas ctx rt fun c hc => ih c hc _)

/-- Meta functions have the property if the parameters that they write have it as well. -/
theorem execMetaFunction {arguments : List Word} {args contribution : AST}
    (hmeta : P (Interpreter.execMeta ctx rt .topLevel contribution))
    (hintroduce : ∀ decl ∈ MetaCodegen.namedArguments args, P (do
      let value ← Exec.load decl.id
      Exec.emit (.introduce decl value .topLevel))) :
    P (Interpreter.execMetaFunction ctx rt arguments args contribution) :=
  h.bind (h.bindArguments arguments _ 0) fun _ =>
    h.bind (h.introduceDecls hintroduce) fun _ =>
      h.andThen hmeta (h.bind (h.ret _) fun _ => h.pure _)

end IsStmtEffect

/-- The effects that meta functions are made of have the property. -/
structure IsMetaEffect (P : {α : Type} → Exec α → Prop) : Prop extends IsStmtEffect P where
  contribute (node : Node) : P (Exec.emit (.contribute node))
  reduce : P (Exec.emit .reduce)
  introduce (decl : Node) (level : DepthLevel) :
    P (do
      let value ← Exec.load decl.id
      Exec.emit (.introduce decl value level))

/-- Meta functions have a property that everything they are made of has. -/
theorem IsMetaEffect.execMetaFunction {P : {α : Type} → Exec α → Prop} (h : IsMetaEffect P)
    (ctx : IRContext) (rt : Runtime) (arguments : List Word) (args contribution : AST) :
    P (Interpreter.execMetaFunction ctx rt arguments args contribution) :=
  h.toIsStmtEffect.execMetaFunction ctx rt
    (h.toIsStmtEffect.execMeta ctx rt contribution h.reduce (fun _ _ _ => h.contribute _)
      (fun _ _ _ decl _ level => h.introduce decl level) .topLevel)
    fun decl _ => h.introduce decl .topLevel

/-! ## The node contributor -/

/-- `NodeContributor`: the layout that is written, and the address of the next node that is
allocated. -/
structure NodeContributor where
  layout : Layout
  nextId : NodeId
deriving DecidableEq, Repr

namespace NodeContributor

/-- Allocates a node and writes it directly. -/
def directWrite (data : NodeData) (c : NodeContributor) : NodeContributor where
  layout := c.layout ++ [some ⟨c.nextId, data⟩]
  nextId := c.nextId + 1

/-- `reduce`. -/
def reduce (c : NodeContributor) : NodeContributor := { c with layout := c.layout ++ [none] }

/-- Allocates a node and writes it with its reduce marker, if it requires one. -/
def write (data : NodeData) (c : NodeContributor) : NodeContributor :=
  if data.kind.isRequiringReduceMarker then (c.directWrite data).reduce else c.directWrite data

/-- `contribute`: the clone of a node has its fields. -/
def contribute (node : Node) (c : NodeContributor) : NodeContributor := c.directWrite node.data

/-- The declaration that stands for a meta variable at the given depth. -/
def introduced (name : Identifier) : DepthLevel → NodeData
  | .insideFunctionDecl => .declStmt name
  | .topLevel => .globalConstantDecl name

/-- `introduce`. -/
def introduce (node : Node) (value : Word) (level : DepthLevel) (c : NodeContributor) :
    NodeContributor :=
  match node.name? with
  | some name => (c.write (introduced name level)).write (.integerLiteralExpr value)
  | none => c

/-- The callbacks of the meta function. -/
def handle (c : NodeContributor) : Event → NodeContributor
  | .contribute node => c.contribute node
  | .reduce => c.reduce
  | .introduce node value level => c.introduce node value level
  | _ => c

end NodeContributor

/-! ## The expansion -/

section

variable (ctx : IRContext) (rt : Runtime)

/-- The declaration of an exported variable with the value it has. -/
def introducedTree (level : DepthLevel) (μ : Memory) (decl : Node) : Option (Rose NodeData) :=
  decl.name?.map fun name =>
    .node (NodeContributor.introduced name level)
      [.node (.integerLiteralExpr (μ.slots decl.id)) []]

/-- The outcome of a condition and the memory behind it. -/
def takesBranch (condition : AST) (μ : Memory) : Bool × Memory :=
  let r := (do
    let v ← Interpreter.evalExpr ctx rt condition
    Exec.branch rt v.isNotNull : Exec Bool) μ
  (r.value, r.memory)

mutual
/-- What a node contributes at the given depth, and the memory behind it. -/
def expand (level : DepthLevel) : AST → Memory → List (Rose NodeData) × Memory
  | .node n cs, μ =>
    match n.node.data, cs with
    | .metaDecl _, _ => ([], μ)
    | .metaContribution, cs => expandAll level cs μ
    | .metaIfStmt, [condition, trueBranch] =>
      let (taken, μ₁) := takesBranch ctx rt condition μ
      if taken then expand level trueBranch μ₁ else ([], μ₁)
    | .metaIfStmt, [condition, trueBranch, falseBranch] =>
      let (taken, μ₁) := takesBranch ctx rt condition μ
      if taken then expand level trueBranch μ₁ else expand level falseBranch μ₁
    | .metaCalculationStmt, [stmt] =>
      let μ₁ := (Interpreter.execStmt ctx rt stmt μ).memory
      (n.exportedDecls.filterMap (introducedTree level μ₁), μ₁)
    | .metaIfStmt, _ | .metaCalculationStmt, _ => ([], μ)
    | .metaUnit _, _ => ([], μ)
    | data, cs =>
      let (ts, μ₁) := expandAll (.below data.kind level) cs μ
      ([.node data ts], μ₁)
/-- What the nodes of a list contribute, one after the other. -/
def expandAll (level : DepthLevel) : List AST → Memory → List (Rose NodeData) × Memory
  | [], μ => ([], μ)
  | c :: cs, μ =>
    let (ts, μ₁) := expand level c μ
    let (ts', μ₂) := expandAll level cs μ₁
    (ts ++ ts', μ₂)
end

end

/-! ## The expansion up to a return -/

/-- How a meta function leaves a node: it goes on behind it, or a calculation returned, behind
complete nodes or inside of one whose reduce marker is missing then. -/
inductive Ending where
  | next | returned | unclosed
deriving DecidableEq, Repr

namespace Ending

/-- Whether the meta function goes on. -/
def flow : Ending → Flow
  | next => .next
  | returned | unclosed => .returned

/-- The ending of a node with this ending below it. -/
def above (framed : Bool) : Ending → Ending
  | returned => if framed then unclosed else returned
  | ending => ending

theorem above_eq_next {framed : Bool} {ending : Ending} :
    ending.above framed = .next ↔ ending = .next := by
  cases framed <;> cases ending <;> decide

end Ending

/-- What is contributed up to a return, and the memory there. -/
structure Expansion where
  trees : List (Rose NodeData)
  ending : Ending
  memory : Memory

namespace Expansion

/-- The second one follows, if the first one goes on. -/
def andThen (x : Expansion) (y : Memory → Expansion) : Expansion :=
  match x.ending with
  | .next => { y x.memory with trees := x.trees ++ (y x.memory).trees }
  | _ => x

/-- A contributed node, with what is below it. -/
def node (data : NodeData) (x : Expansion) : Expansion where
  trees := [.node data x.trees]
  ending := x.ending.above data.kind.isRequiringReduceMarker
  memory := x.memory

end Expansion

section

variable (ctx : IRContext) (rt : Runtime)

mutual
/-- What a node contributes at the given depth, up to a return of a calculation. -/
def expansion (level : DepthLevel) : AST → Memory → Expansion
  | .node n cs, μ =>
    match n.node.data, cs with
    | .metaDecl _, _ => ⟨[], .next, μ⟩
    | .metaContribution, cs => expansions level cs μ
    | .metaIfStmt, [condition, trueBranch] =>
      let (taken, μ₁) := takesBranch ctx rt condition μ
      if taken then expansion level trueBranch μ₁ else ⟨[], .next, μ₁⟩
    | .metaIfStmt, [condition, trueBranch, falseBranch] =>
      let (taken, μ₁) := takesBranch ctx rt condition μ
      if taken then expansion level trueBranch μ₁ else expansion level falseBranch μ₁
    | .metaCalculationStmt, [stmt] =>
      let r := Interpreter.execStmt ctx rt stmt μ
      match r.value with
      | .next => ⟨n.exportedDecls.filterMap (introducedTree level r.memory), .next, r.memory⟩
      | .returned => ⟨[], .returned, r.memory⟩
    | .metaIfStmt, _ | .metaCalculationStmt, _ => ⟨[], .next, μ⟩
    | .metaUnit _, _ => ⟨[], .next, μ⟩
    | data, cs => (expansions (.below data.kind level) cs μ).node data
/-- What the nodes of a list contribute, up to a return. -/
def expansions (level : DepthLevel) : List AST → Memory → Expansion
  | [], μ => ⟨[], .next, μ⟩
  | c :: cs, μ => (expansion level c μ).andThen fun μ₁ => expansions level cs μ₁
end

end

/-! ## What the callbacks write -/

/-- The callbacks write fresh nodes with the given fields. -/
def Writes (events : List Event) (ds : List (Option NodeData)) : Prop :=
  ∀ c : NodeContributor,
    events.foldl NodeContributor.handle c =
      ⟨c.layout ++ number c.nextId ds, c.nextId + countNodes ds⟩

theorem Writes.nil : Writes [] [] := fun c => by
  rw [number, List.append_nil]
  rfl

theorem Writes.append {es es' : List Event} {ds ds' : List (Option NodeData)} (h : Writes es ds)
    (h' : Writes es' ds') : Writes (es ++ es') (ds ++ ds') := by
  intro c
  rw [List.foldl_append, h, h', number_append, countNodes_append, List.append_assoc, Nat.add_assoc]

theorem writes_contribute (node : Node) : Writes [.contribute node] [some node.data] :=
  fun _ => rfl

theorem writes_reduce : Writes [.reduce] [none] := fun _ => rfl

/-- Without a reduce marker only the node is written. -/
theorem write_of_unframed {data : NodeData} (h : data.kind.isRequiringReduceMarker = false)
    (c : NodeContributor) : c.write data = c.directWrite data := by
  rw [NodeContributor.write, h]
  rfl

theorem writes_introduce {decl : Node} {name : Identifier} (h : decl.name? = some name)
    (value : Word) (level : DepthLevel) :
    Writes [.introduce decl value level]
      [some (NodeContributor.introduced name level), some (.integerLiteralExpr value)] := by
  intro c
  have hintroduce : c.introduce decl value level =
      (c.write (NodeContributor.introduced name level)).write (.integerLiteralExpr value) := by
    rw [NodeContributor.introduce, h]
  have hframed : (NodeContributor.introduced name level).kind.isRequiringReduceMarker = false := by
    cases level <;> rfl
  show c.introduce decl value level = _
  rw [hintroduce, write_of_unframed hframed, write_of_unframed rfl]
  simp only [NodeContributor.directWrite, number, List.append_assoc]
  rfl

/-- The fields of the nodes that an event writes. -/
def Event.written : Event → List NodeData
  | contribute node => [node.data]
  | introduce decl value level => decl.name?.toList.flatMap fun name =>
    [NodeContributor.introduced name level, .integerLiteralExpr value]
  | _ => []

/-- An event writes behind what is in the layout already. -/
theorem NodeContributor.handle_layout (event : Event) (c : NodeContributor) :
    ∃ l, (c.handle event).layout = c.layout ++ l ∧
      ∀ n, some n ∈ l → n.data ∈ event.written := by
  have nothing (n : Node) (ds : List NodeData) (h : some n ∈ ([] : Layout)) : n.data ∈ ds :=
    absurd h List.not_mem_nil
  cases event with
  | contribute node =>
    refine ⟨_, rfl, fun n hn => ?_⟩
    cases List.mem_singleton.1 hn
    exact List.mem_singleton_self _
  | reduce => exact ⟨[none], rfl, fun n hn => by cases List.mem_singleton.1 hn⟩
  | introduce decl value level =>
    cases hname : decl.name? with
    | none =>
      refine ⟨[], ?_, fun n hn => nothing n _ hn⟩
      show (c.introduce decl value level).layout = _
      rw [introduce, hname, List.append_nil]
    | some name =>
      have hframed : (introduced name level).kind.isRequiringReduceMarker = false := by
        cases level <;> rfl
      have hwrite : c.handle (.introduce decl value level) =
          (c.directWrite (introduced name level)).directWrite (.integerLiteralExpr value) := by
        show c.introduce decl value level = _
        rw [introduce, hname]
        calc (c.write (introduced name level)).write (.integerLiteralExpr value)
            = (c.write (introduced name level)).directWrite (.integerLiteralExpr value) :=
              write_of_unframed rfl _
          _ = _ := by rw [write_of_unframed hframed]
      refine ⟨[some ⟨c.nextId, introduced name level⟩,
        some ⟨c.nextId + 1, .integerLiteralExpr value⟩], ?_, fun n hn => ?_⟩
      · rw [hwrite]
        exact List.append_assoc ..
      · rw [Event.written, hname]
        rcases List.mem_cons.1 hn with hn | hn
        · cases hn
          exact List.mem_cons_self
        · cases List.mem_singleton.1 hn
          exact List.mem_cons_of_mem _ List.mem_cons_self
  | _ => exact ⟨[], (List.append_nil _).symm, fun n hn => nothing n _ hn⟩

theorem NodeContributor.handles_layout (events : List Event) (c : NodeContributor) :
    ∃ l, (events.foldl handle c).layout = c.layout ++ l ∧
      ∀ n, some n ∈ l → ∃ event ∈ events, n.data ∈ event.written := by
  induction events generalizing c with
  | nil => exact ⟨[], (List.append_nil _).symm, fun n hn => absurd hn List.not_mem_nil⟩
  | cons event events ih =>
    obtain ⟨l, hl, hwritten⟩ := handle_layout event c
    obtain ⟨l', hl', hwritten'⟩ := ih (c.handle event)
    refine ⟨l ++ l', ?_, fun n hn => ?_⟩
    · rw [List.foldl_cons, hl', hl, List.append_assoc]
    · rcases List.mem_append.1 hn with hn | hn
      · exact ⟨event, List.mem_cons_self, hwritten n hn⟩
      · obtain ⟨e, he, hn⟩ := hwritten' n hn
        exact ⟨e, List.mem_cons_of_mem _ he, hn⟩

/-- All that the effect writes has the property. -/
def Exec.WritesOnly (P : NodeData → Prop) {α : Type} (e : Exec α) : Prop :=
  ∀ μ, ∀ event ∈ (e μ).events, ∀ d ∈ event.written, P d

namespace Exec.WritesOnly

variable {P : NodeData → Prop}

theorem emit {event : Event} (h : ∀ d ∈ event.written, P d) : WritesOnly P (Exec.emit event) :=
  fun _ e he => by
    rw [List.mem_singleton.1 he]
    exact h

theorem silent {α : Type} {e : Exec α} (h : ∀ μ, ∀ event ∈ (e μ).events, event.written = []) :
    WritesOnly P e := fun μ event he d hd => by
  rw [h μ event he] at hd
  exact absurd hd List.not_mem_nil

/-- Runtime code writes nothing. -/
theorem isStmtEffect : IsStmtEffect (@WritesOnly P) where
  pure _ := silent fun _ _ h => absurd h List.not_mem_nil
  bind h h' μ e he := by
    rcases List.mem_append.1 he with he | he
    · exact h μ e he
    · exact h' _ _ e he
  reference _ _ := silent fun _ _ h => List.mem_singleton.1 h ▸ rfl
  load _ := silent fun _ _ h => absurd h List.not_mem_nil
  store _ _ := silent fun _ _ h => List.mem_singleton.1 h ▸ rfl
  call _ _ _ := silent fun _ _ h => List.mem_singleton.1 h ▸ rfl
  alloca _ := silent fun _ _ h => List.mem_singleton.1 h ▸ rfl
  statement _ := silent fun _ _ h => List.mem_singleton.1 h ▸ rfl
  ret _ := silent fun _ _ h => List.mem_singleton.1 h ▸ rfl
  branch _ _ := silent fun _ _ h => List.mem_singleton.1 h ▸ rfl

/-- Meta functions write clones of their nodes, and the parameters and exported variables. -/
theorem execMetaFunction (ctx : IRContext) (rt : Runtime) (arguments : List Word)
    {args contribution : AST}
    (hcontribute : ∀ n ∈ contribution.labels, n.node.kind.isIntermediateNode = false →
      P n.node.data)
    (hexported : ∀ n ∈ contribution.labels, n.node.kind = .metaCalculationStmt →
      ∀ decl ∈ n.exportedDecls, ∀ name, decl.name? = some name → ∀ level,
        P (NodeContributor.introduced name level))
    (hargs : ∀ decl ∈ MetaCodegen.namedArguments args, ∀ name, decl.name? = some name →
      P (.globalConstantDecl name))
    (hliteral : ∀ value, P (.integerLiteralExpr value)) :
    WritesOnly P (Interpreter.execMetaFunction ctx rt arguments args contribution) := by
  have introduce {decl : Node} {level : DepthLevel}
      (h : ∀ name, decl.name? = some name → P (NodeContributor.introduced name level)) :
      WritesOnly P (do
        let value ← Exec.load decl.id
        Exec.emit (.introduce decl value level)) := by
    refine isStmtEffect.bind (isStmtEffect.load _) fun value => emit fun d hd => ?_
    obtain ⟨name, hname, hd⟩ := List.mem_flatMap.1 hd
    rcases List.mem_cons.1 hd with rfl | hd
    · exact h name (Option.mem_toList.1 hname)
    · rw [List.mem_singleton.1 hd]
      exact hliteral value
  refine isStmtEffect.execMetaFunction ctx rt (isStmtEffect.execMeta ctx rt contribution
    (emit fun _ h => absurd h List.not_mem_nil)
    (fun n hn hk => emit fun d hd => List.mem_singleton.1 hd ▸ hcontribute n hn hk)
    (fun n hn hk decl hd level => introduce fun name hname =>
      hexported n hn hk decl hd name hname level) .topLevel) ?_
  exact fun decl hdecl => introduce fun name hname => hargs decl hdecl name hname

end Exec.WritesOnly

/-- The effect calls none of the callbacks. -/
def Exec.Silent {α : Type} (e : Exec α) : Prop := ∀ μ, Writes (e μ).events []

theorem silent_isStmtEffect : IsStmtEffect @Exec.Silent where
  pure _ _ := .nil
  bind h h' μ := (h μ).append (h' _ _)
  reference _ _ _ := .nil
  load _ _ := .nil
  store _ _ _ := .nil
  call _ _ _ _ := .nil
  alloca _ _ := .nil
  statement _ _ := .nil
  ret _ _ := .nil
  branch _ _ _ := .nil

/-! ## The expansion is what is written -/

/-- The effect goes on, leaves the given memory and writes fresh nodes with the given fields. -/
def Yields (e : Exec Flow) (x : Memory → List (Option NodeData) × Memory) : Prop :=
  ∀ μ, (e μ).value = .next ∧ (e μ).memory = (x μ).2 ∧ Writes (e μ).events (x μ).1

theorem Yields.skip : Yields (Pure.pure .next) fun μ => ([], μ) := fun _ => ⟨rfl, rfl, .nil⟩

theorem Yields.andThen {e f : Exec Flow} {x y : Memory → List (Option NodeData) × Memory}
    (h : Yields e x) (h' : Yields f y) :
    Yields (Interpreter.andThen e f) fun μ => ((x μ).1 ++ (y (x μ).2).1, (y (x μ).2).2) := by
  intro μ
  obtain ⟨hv, hm, hw⟩ := h μ
  obtain ⟨hv', hm', hw'⟩ := h' (x μ).2
  rw [Interpreter.andThen, Exec.bind_apply, hv, hm]
  exact ⟨hv', hm', hw.append hw'⟩

/-- An event that writes nodes. -/
theorem Yields.emit {event : Event} {ds : List (Option NodeData)} (h : Writes [event] ds) :
    Yields (do Exec.emit event; return .next) fun μ => (ds, μ) :=
  fun _ => ⟨rfl, rfl, h⟩

/-- The declarations with the values of their variables. -/
theorem introduceDecls_yields (level : DepthLevel) (decls : List Node) :
    Yields
      (do
        Interpreter.introduceDecls level decls
        return .next)
      fun μ => (encodeData (decls.filterMap (introducedTree level μ)), μ) := by
  induction decls with
  | nil => exact .skip
  | cons decl decls ih =>
    have hdecl : Yields
        (do
          let value ← Exec.load decl.id
          Exec.emit (.introduce decl value level)
          return .next)
        fun μ => (encodeData (introducedTree level μ decl).toList, μ) := by
      refine fun μ => ⟨rfl, rfl, ?_⟩
      show Writes [.introduce decl (μ.slots decl.id) level]
        (encodeData (introducedTree level μ decl).toList)
      cases hname : decl.name? with
      | none =>
        rw [introducedTree, hname]
        intro c
        show NodeContributor.introduce decl _ level c = _
        rw [NodeContributor.introduce, hname]
        exact congrArg (NodeContributor.mk · c.nextId) (List.append_nil _).symm
      | some name =>
        have hintroduce := writes_introduce hname (μ.slots decl.id) level
        rw [introducedTree, hname]
        cases level <;> exact hintroduce
    have hyields := hdecl.andThen ih
    simp only [Interpreter.andThen, bind_assoc, pure_bind] at hyields
    intro μ
    obtain ⟨hv, hm, hw⟩ := hyields μ
    simp only [Interpreter.introduceDecls, bind_assoc]
    refine ⟨hv, hm, ?_⟩
    beta_reduce at hw
    rw [← encodeData_append] at hw
    have htrees : (decl :: decls).filterMap (introducedTree level μ) =
        (introducedTree level μ decl).toList ++ decls.filterMap (introducedTree level μ) := by
      cases htree : introducedTree level μ decl <;> simp [htree]
    rw [htrees]
    exact hw

section

variable {ctx : IRContext} {rt : Runtime}

/-- A statement without a return goes on. -/
theorem execStmts_next {cs : List AST}
    (h : ∀ c ∈ cs, ∀ μ, (Interpreter.execStmt ctx rt c μ).value = .next) (μ : Memory) :
    (Interpreter.execStmts ctx rt cs μ).value = .next := by
  induction cs generalizing μ with
  | nil => rfl
  | cons c cs ih =>
    rw [Interpreter.execStmts, Interpreter.andThen, Exec.bind_apply, h c List.mem_cons_self]
    exact ih (fun x hx => h x (List.mem_cons_of_mem _ hx)) _

theorem execStmt_next (a : AST) (h : ∀ x ∈ a.subtrees, AST.kind x ≠ .returnStmt) :
    ∀ μ, (Interpreter.execStmt ctx rt a μ).value = .next := by
  induction a using Rose.ind with
  | h n cs ih =>
    intro μ
    have ih (c : AST) (hc : c ∈ cs) := ih c hc fun x hx =>
      h x (Rose.mem_subtrees_node.2 (.inr ⟨c, hc, hx⟩))
    have hroot := h _ (Rose.mem_subtrees_self _)
    obtain ⟨⟨id, data⟩, decl, exportedDecls⟩ := n
    cases data with
    | compoundStmt => exact execStmts_next ih μ
    | unscopedCompoundStmt => exact execStmts_next ih μ
    | returnStmt => exact (hroot rfl).elim
    | expressionStmt => rcases cs with _ | ⟨expr, _ | ⟨c, cs⟩⟩ <;> rfl
    | declStmt name => rcases cs with _ | ⟨expr, _ | ⟨c, cs⟩⟩ <;> rfl
    | ifStmt =>
      rcases cs with _ | ⟨condition, _ | ⟨trueBranch, _ | ⟨falseBranch, _ | ⟨c, cs⟩⟩⟩⟩
      · rfl
      · rfl
      · show (Interpreter.evalIf rt _ (Interpreter.execStmt ctx rt trueBranch) (return .next)
          μ).value = .next
        simp only [Interpreter.evalIf, Exec.bind_apply]
        split
        · exact ih trueBranch (by simp) _
        · rfl
      · show (Interpreter.evalIf rt _ (Interpreter.execStmt ctx rt trueBranch)
          (Interpreter.execStmt ctx rt falseBranch) μ).value = .next
        simp only [Interpreter.evalIf, Exec.bind_apply]
        split
        · exact ih trueBranch (by simp) _
        · exact ih falseBranch (by simp) _
      · rfl
    | _ => rfl

/-- No meta calculation below the node contains a return. -/
def AST.CalculatesWithoutReturn (a : AST) : Prop :=
  ∀ c ∈ a.subtrees, AST.kind c = .metaCalculationStmt → ∀ x ∈ c.subtrees, AST.kind x ≠ .returnStmt

theorem AST.CalculatesWithoutReturn.child {n : ASTNode} {cs : List AST} {c : AST} (hc : c ∈ cs)
    (h : AST.CalculatesWithoutReturn (.node n cs)) : AST.CalculatesWithoutReturn c :=
  fun x hx => h x (Rose.mem_subtrees_node.2 (.inr ⟨c, hc, hx⟩))

/-- The elements stand for what is contributed, or a reduce marker is missing in them. -/
def Expansion.IsWrittenAs (x : Expansion) (ds : List (Option NodeData)) : Prop :=
  match x.ending with
  | .unclosed => 0 < Rose.openFrames (fun d => d.kind.isRequiringReduceMarker) ds
  | _ => ds = encodeData x.trees

theorem Expansion.IsWrittenAs.unclosed {x : Expansion} {ds : List (Option NodeData)}
    (h : x.IsWrittenAs ds) (hending : x.ending = .unclosed) :
    0 < Rose.openFrames (fun d => d.kind.isRequiringReduceMarker) ds := by
  rw [IsWrittenAs, hending] at h
  exact h

theorem Expansion.IsWrittenAs.closed {x : Expansion} {ds : List (Option NodeData)}
    (h : x.IsWrittenAs ds) (hending : x.ending ≠ .unclosed) : ds = encodeData x.trees := by
  obtain ⟨trees, ending, μ⟩ := x
  cases ending with
  | unclosed => exact absurd rfl hending
  | next | returned => exact h

/-- The effect has the ending and the memory of the expansion, and writes fresh nodes for it. -/
def YieldsTo (e : Exec Flow) (x : Memory → Expansion) : Prop :=
  ∀ μ, (e μ).value = (x μ).ending.flow ∧ (e μ).memory = (x μ).memory ∧
    ∃ ds, Writes (e μ).events ds ∧ (x μ).IsWrittenAs ds

theorem YieldsTo.skip : YieldsTo (Pure.pure .next) fun μ => ⟨[], .next, μ⟩ :=
  fun _ => ⟨rfl, rfl, [], .nil, rfl⟩

/-- Complete nodes in front leave the reduce markers missing that are. -/
theorem Expansion.IsWrittenAs.append {x y : Expansion} {ds ds' : List (Option NodeData)}
    (hx : ds = encodeData x.trees) (hy : y.IsWrittenAs ds') :
    Expansion.IsWrittenAs { y with trees := x.trees ++ y.trees } (ds ++ ds') := by
  obtain ⟨trees, ending, μ⟩ := y
  subst hx
  cases ending with
  | unclosed =>
    show 0 < Rose.openFrames _ (encodeData x.trees ++ ds')
    rw [Rose.openFrames_append, openFrames_encodeData, Int.zero_add]
    exact hy
  | next | returned =>
    obtain rfl : ds' = encodeData trees := hy
    exact (encodeData_append _ _).symm

theorem YieldsTo.andThen {e f : Exec Flow} {x y : Memory → Expansion} (h : YieldsTo e x)
    (h' : YieldsTo f y) : YieldsTo (Interpreter.andThen e f) fun μ => (x μ).andThen y := by
  intro μ
  obtain ⟨hv, hm, ds, hw, hds⟩ := h μ
  rw [Interpreter.andThen, Exec.bind_apply, hv, hm]
  dsimp only [Expansion.andThen]
  cases hending : (x μ).ending with
  | next =>
    obtain ⟨hv', hm', ds', hw', hds'⟩ := h' (x μ).memory
    rw [Expansion.IsWrittenAs, hending] at hds
    exact ⟨hv', hm', _, hw.append hw', .append hds hds'⟩
  | returned | unclosed =>
    refine ⟨by rw [hending]; rfl, rfl, ds, ?_, hds⟩
    exact (List.append_nil (e μ).events).symm ▸ hw

/-- Behind a node its reduce marker is written, if it requires one. -/
theorem reduce_yields (node : Node) :
    Yields
      (do
        if node.isNodeRequiringReduceMarker then Exec.emit .reduce
        return .next)
      fun μ => (if node.data.kind.isRequiringReduceMarker then [none] else [], μ) := by
  unfold Node.isNodeRequiringReduceMarker Node.kind
  split
  · exact .emit writes_reduce
  · exact .skip

/-- A node is written in front of what is below it. The reduce marker behind it is missing if a
calculation returned below the node. -/
theorem Expansion.IsWrittenAs.above {x : Expansion} {ds : List (Option NodeData)}
    (h : x.IsWrittenAs ds) (hending : x.ending ≠ .next) (data : NodeData) :
    (x.node data).IsWrittenAs (some data :: ds) := by
  obtain ⟨trees, ending, μ⟩ := x
  have hopen : 0 ≤ Rose.openFrames (fun d => d.kind.isRequiringReduceMarker) ds := by
    cases ending with
    | unclosed => exact Int.le_of_lt h
    | next | returned =>
      obtain rfl : ds = encodeData trees := h
      exact Int.le_of_eq (openFrames_encodeData trees).symm
  by_cases hframed : data.kind.isRequiringReduceMarker = true
  · have hunclosed : ending.above data.kind.isRequiringReduceMarker = .unclosed := by
      rw [hframed]
      cases ending with
      | next => exact absurd rfl hending
      | returned | unclosed => rfl
    rw [Expansion.IsWrittenAs, Expansion.node, hunclosed, Rose.openFrames, hframed]
    exact Int.lt_add_one_of_le hopen
  · have hsame : ending.above data.kind.isRequiringReduceMarker = ending := by
      rw [Bool.eq_false_iff.2 hframed]
      cases ending <;> rfl
    rw [Expansion.IsWrittenAs, Expansion.node, hsame, Rose.openFrames, if_neg hframed,
      Int.add_zero, encodeData_node, if_neg hframed, List.append_nil]
    cases ending with
    | unclosed => exact h
    | next | returned => exact congrArg (some data :: ·) h

theorem YieldsTo.contributed {node : Node} {e : Exec Flow} {x : Memory → Expansion}
    (h : YieldsTo e x) :
    YieldsTo (Interpreter.execContributed node e) fun μ => (x μ).node node.data := by
  intro μ
  obtain ⟨hv, hm, ds, hw, hds⟩ := h μ
  have hnode := (writes_contribute node).append hw
  have hemit : (Exec.emit (.contribute node) : Exec Unit) μ = ⟨(), μ, [.contribute node]⟩ := rfl
  rw [Interpreter.execContributed, Exec.bind_apply, hemit, Interpreter.andThen, Exec.bind_apply,
    hv, hm]
  cases hending : (x μ).ending with
  | next =>
    obtain ⟨hv', hm', hw'⟩ := reduce_yields node (x μ).memory
    have hnext : ((x μ).node node.data).ending = .next := by
      rw [Expansion.node, hending]
      rfl
    rw [Expansion.IsWrittenAs, hending] at hds
    refine ⟨?_, hm', _, (writes_contribute node).append (hw.append hw'), ?_⟩
    · rw [hnext]
      exact hv'
    · rw [Expansion.IsWrittenAs, hnext, hds]
      exact (encodeData_node _ _).symm
  | returned | unclosed =>
    have hflow : ((x μ).node node.data).ending.flow = .returned := by
      rw [Expansion.node, hending]
      cases node.data.kind.isRequiringReduceMarker <;> rfl
    refine ⟨hflow.symm, rfl, _, ?_, hds.above (by rw [hending]; decide) node.data⟩
    exact (List.append_nil (e μ).events).symm ▸ hnode

/-- An if yields what the branch taken yields. -/
theorem YieldsTo.evalIf {ctx : IRContext} {rt : Runtime} {condition : AST} {e f : Exec Flow}
    {x y : Memory → Expansion} (h : YieldsTo e x) (h' : YieldsTo f y) :
    YieldsTo (Interpreter.evalIf rt (Interpreter.evalExpr ctx rt condition) e f) fun μ =>
      if (takesBranch ctx rt condition μ).1 then x (takesBranch ctx rt condition μ).2
      else y (takesBranch ctx rt condition μ).2 := by
  intro μ
  have hsilent : Exec.Silent (do
      let v ← Interpreter.evalExpr ctx rt condition
      Exec.branch rt v.isNotNull) :=
    silent_isStmtEffect.bind (silent_isStmtEffect.evalExpr ctx rt condition)
      fun v => silent_isStmtEffect.branch rt _
  have hbranch : Interpreter.evalIf rt (Interpreter.evalExpr ctx rt condition) e f =
      (do
        let v ← Interpreter.evalExpr ctx rt condition
        Exec.branch rt v.isNotNull) >>= fun taken => if taken then e else f := by
    rw [bind_assoc]
    rfl
  have hevents := hsilent μ
  have htakes : ((do
      let v ← Interpreter.evalExpr ctx rt condition
      Exec.branch rt v.isNotNull : Exec Bool) μ).value = (takesBranch ctx rt condition μ).1 := rfl
  have hmemory : ((do
      let v ← Interpreter.evalExpr ctx rt condition
      Exec.branch rt v.isNotNull : Exec Bool) μ).memory = (takesBranch ctx rt condition μ).2 := rfl
  rw [hbranch, Exec.bind_apply, htakes, hmemory]
  beta_reduce
  cases (takesBranch ctx rt condition μ).1 with
  | true =>
    obtain ⟨hv, hm, ds, hw, hds⟩ := h (takesBranch ctx rt condition μ).2
    exact ⟨hv, hm, ds, hevents.append hw, hds⟩
  | false =>
    obtain ⟨hv, hm, ds, hw, hds⟩ := h' (takesBranch ctx rt condition μ).2
    exact ⟨hv, hm, ds, hevents.append hw, hds⟩

theorem execMetas_yieldsTo {level : DepthLevel} {cs : List AST}
    (h : ∀ c ∈ cs, YieldsTo (Interpreter.execMeta ctx rt level c) (expansion ctx rt level c)) :
    YieldsTo (Interpreter.execMetas ctx rt level cs) (expansions ctx rt level cs) := by
  induction cs with
  | nil => exact .skip
  | cons c cs ih =>
    exact (h c List.mem_cons_self).andThen (ih fun x hx => h x (List.mem_cons_of_mem _ hx))

/-- A calculation contributes what it exports, unless it returns. -/
theorem metaCalculation_yieldsTo (stmt : AST) (level : DepthLevel) (decls : List Node) :
    YieldsTo
      (Interpreter.andThen (Interpreter.execStmt ctx rt stmt) do
        Interpreter.introduceDecls level decls
        return .next)
      fun μ =>
        match (Interpreter.execStmt ctx rt stmt μ).value with
        | .next =>
          ⟨decls.filterMap (introducedTree level (Interpreter.execStmt ctx rt stmt μ).memory),
            .next, (Interpreter.execStmt ctx rt stmt μ).memory⟩
        | .returned => ⟨[], .returned, (Interpreter.execStmt ctx rt stmt μ).memory⟩ := by
  intro μ
  have hsilent := silent_isStmtEffect.execStmt ctx rt stmt μ
  rw [Interpreter.andThen, Exec.bind_apply]
  beta_reduce
  cases (Interpreter.execStmt ctx rt stmt μ).value with
  | next =>
    obtain ⟨hv, hm, hw⟩ := introduceDecls_yields level decls
      (Interpreter.execStmt ctx rt stmt μ).memory
    exact ⟨hv, hm, _, hsilent.append hw, rfl⟩
  | returned => exact ⟨rfl, rfl, _, hsilent.append .nil, rfl⟩

variable (ctx rt) in
/-- The callbacks write what is contributed up to a return. -/
theorem execMeta_yieldsTo (a : AST) (level : DepthLevel) :
    YieldsTo (Interpreter.execMeta ctx rt level a) (expansion ctx rt level a) := by
  induction a using Rose.ind generalizing level with
  | h n cs ih =>
    obtain ⟨⟨id, data⟩, decl, exportedDecls⟩ := n
    have hcontributed : YieldsTo
        (Interpreter.execContributed ⟨id, data⟩
          (Interpreter.execMetas ctx rt (.below data.kind level) cs))
        fun μ => (expansions ctx rt (.below data.kind level) cs μ).node data :=
      .contributed (execMetas_yieldsTo fun c hc => ih c hc _)
    cases data with
    | metaDecl name => exact .skip
    | metaUnit inst => exact .skip
    | metaContribution => exact execMetas_yieldsTo fun c hc => ih c hc level
    | metaIfStmt =>
      rcases cs with _ | ⟨condition, _ | ⟨trueBranch, _ | ⟨falseBranch, _ | ⟨c, cs⟩⟩⟩⟩
      · exact .skip
      · exact .skip
      · exact (ih trueBranch (by simp) level).evalIf .skip
      · exact (ih trueBranch (by simp) level).evalIf (ih falseBranch (by simp) level)
      · exact .skip
    | metaCalculationStmt =>
      rcases cs with _ | ⟨stmt, _ | ⟨c, cs⟩⟩
      · exact .skip
      · exact metaCalculation_yieldsTo stmt level exportedDecls
      · exact .skip
    | _ => exact hcontributed

/-- What goes on behind every node contributes everything. -/
theorem expansions_of_next {level : DepthLevel} {cs : List AST}
    (h : ∀ c ∈ cs, ∀ μ, (expansion ctx rt level c μ).ending = .next → expansion ctx rt level c μ =
      ⟨(expand ctx rt level c μ).1, .next, (expand ctx rt level c μ).2⟩) {μ : Memory}
    (hnext : (expansions ctx rt level cs μ).ending = .next) :
    expansions ctx rt level cs μ =
      ⟨(expandAll ctx rt level cs μ).1, .next, (expandAll ctx rt level cs μ).2⟩ := by
  induction cs generalizing μ with
  | nil => rfl
  | cons c cs ih =>
    have hc : (expansion ctx rt level c μ).ending = .next := by
      cases hending : (expansion ctx rt level c μ).ending with
      | next => rfl
      | returned | unclosed =>
        rw [expansions, Expansion.andThen, hending] at hnext
        exact hending.symm.trans hnext
    rw [expansions, h c List.mem_cons_self μ hc] at hnext ⊢
    dsimp only [Expansion.andThen] at hnext ⊢
    rw [ih (fun x hx => h x (List.mem_cons_of_mem _ hx)) hnext]
    rfl

theorem expansion_of_next (a : AST) {level : DepthLevel} {μ : Memory}
    (h : (expansion ctx rt level a μ).ending = .next) :
    expansion ctx rt level a μ =
      ⟨(expand ctx rt level a μ).1, .next, (expand ctx rt level a μ).2⟩ := by
  induction a using Rose.ind generalizing level μ with
  | h n cs ih =>
    obtain ⟨⟨id, data⟩, decl, exportedDecls⟩ := n
    have all {level : DepthLevel} (h : (expansions ctx rt level cs μ).ending = .next) :=
      expansions_of_next (fun c hc _ hnext => ih c hc hnext) h
    have node (h : ((expansions ctx rt (.below data.kind level) cs μ).node data).ending = .next) :
        (expansions ctx rt (.below data.kind level) cs μ).node data =
          ⟨[.node data (expandAll ctx rt (.below data.kind level) cs μ).1], .next,
            (expandAll ctx rt (.below data.kind level) cs μ).2⟩ := by
      rw [all (Ending.above_eq_next.1 h)]
      rfl
    cases data with
    | metaDecl name => rfl
    | metaUnit inst => rfl
    | metaContribution => exact all h
    | metaIfStmt =>
      rcases cs with _ | ⟨condition, _ | ⟨trueBranch, _ | ⟨falseBranch, _ | ⟨c, cs⟩⟩⟩⟩
      · rfl
      · rfl
      · simp only [expansion, expand] at h ⊢
        split at h
        · rename_i htaken
          rw [if_pos htaken, if_pos htaken]
          exact ih trueBranch (by simp) h
        · rename_i htaken
          rw [if_neg htaken, if_neg htaken]
      · simp only [expansion, expand] at h ⊢
        split at h
        · rename_i htaken
          rw [if_pos htaken, if_pos htaken]
          exact ih trueBranch (by simp) h
        · rename_i htaken
          rw [if_neg htaken, if_neg htaken]
          exact ih falseBranch (by simp) h
      · rfl
    | metaCalculationStmt =>
      rcases cs with _ | ⟨stmt, _ | ⟨c, cs⟩⟩
      · rfl
      · simp only [expansion, expand] at h ⊢
        split at h
        · rfl
        · cases h
      · rfl
    | _ => exact node h

theorem expansions_next {level : DepthLevel} {cs : List AST}
    (h : ∀ c ∈ cs, ∀ μ, (expansion ctx rt level c μ).ending = .next) (μ : Memory) :
    (expansions ctx rt level cs μ).ending = .next := by
  induction cs generalizing μ with
  | nil => rfl
  | cons c cs ih =>
    rw [expansions, Expansion.andThen, h c List.mem_cons_self]
    exact ih (fun x hx => h x (List.mem_cons_of_mem _ hx)) _

/-- Without a return the meta function goes on behind every node. -/
theorem expansion_next (a : AST) (ha : a.CalculatesWithoutReturn) (level : DepthLevel)
    (μ : Memory) : (expansion ctx rt level a μ).ending = .next := by
  induction a using Rose.ind generalizing level μ with
  | h n cs ih =>
    have ih (c : AST) (hc : c ∈ cs) := ih c hc (ha.child hc)
    have hroot := ha _ (Rose.mem_subtrees_self _)
    obtain ⟨⟨id, data⟩, decl, exportedDecls⟩ := n
    have hnode : ((expansions ctx rt (.below data.kind level) cs μ).node data).ending = .next :=
      Ending.above_eq_next.2 (expansions_next (fun c hc μ => ih c hc _ μ) μ)
    cases data with
    | metaDecl name => rfl
    | metaUnit inst => rfl
    | metaContribution => exact expansions_next (fun c hc => ih c hc level) μ
    | metaIfStmt =>
      rcases cs with _ | ⟨condition, _ | ⟨trueBranch, _ | ⟨falseBranch, _ | ⟨c, cs⟩⟩⟩⟩
      · rfl
      · rfl
      · simp only [expansion]
        split
        · exact ih trueBranch (by simp) level _
        · rfl
      · simp only [expansion]
        split
        · exact ih trueBranch (by simp) level _
        · exact ih falseBranch (by simp) level _
      · rfl
    | metaCalculationStmt =>
      rcases cs with _ | ⟨stmt, _ | ⟨c, cs⟩⟩
      · rfl
      · have hnext : (Interpreter.execStmt ctx rt stmt μ).value = .next :=
          execStmt_next stmt (fun x hx => hroot rfl x
            (Rose.mem_subtrees_node.2 (.inr ⟨stmt, List.mem_cons_self, hx⟩))) μ
        simp only [expansion, hnext]
      · rfl
    | _ => exact hnode

/-- Without a return everything is contributed. -/
theorem expansion_eq (a : AST) (ha : a.CalculatesWithoutReturn) (level : DepthLevel) (μ : Memory) :
    expansion ctx rt level a μ =
      ⟨(expand ctx rt level a μ).1, .next, (expand ctx rt level a μ).2⟩ :=
  expansion_of_next a (expansion_next a ha level μ)

/-- Without a return the callbacks write the encoding of the expansion. -/
theorem execMeta_yields (a : AST) (ha : a.CalculatesWithoutReturn) (level : DepthLevel) :
    Yields (Interpreter.execMeta ctx rt level a) fun μ =>
      (encodeData (expand ctx rt level a μ).1, (expand ctx rt level a μ).2) := by
  intro μ
  obtain ⟨hv, hm, ds, hw, hds⟩ := execMeta_yieldsTo ctx rt a level μ
  rw [expansion_eq a ha] at hv hm hds
  obtain rfl : ds = encodeData (expand ctx rt level a μ).1 := hds
  exact ⟨hv, hm, hw⟩

end

end Swy
