import Swy.Parse.LayoutGrammar

/-!
# Dumping layouts and ASTs

`ASTDumper`: a layout is decoded by the static predicates alone, without the productions of the
reader. On the encoding of a tree of the reader's grammar both decoders return the same structure
(`dumpLayout_consume`).
-/

namespace Swy

open Library

/-- `ASTStringer::toTypeString`, which is the name that `dumpAST` gives to the kind as well. -/
def ASTKind.toTypeString : ASTKind → String
  | compilationUnit => "CompilationUnit"
  | metaUnit => "MetaUnit"
  | functionDecl => "FunctionDecl"
  | metaDecl => "MetaDecl"
  | metaContribution => "MetaContribution"
  | argumentDeclList => "ArgumentDeclList"
  | anonymousArgumentDecl => "AnonymousArgumentDecl"
  | namedArgumentDecl => "NamedArgumentDecl"
  | globalConstantDecl => "GlobalConstantDecl"
  | unscopedCompoundStmt => "UnscopedCompoundStmt"
  | compoundStmt => "CompoundStmt"
  | returnStmt => "ReturnStmt"
  | expressionStmt => "ExpressionStmt"
  | declStmt => "DeclStmt"
  | ifStmt => "IfStmt"
  | metaIfStmt => "MetaIfStmt"
  | metaCalculationStmt => "MetaCalculationStmt"
  | declRefExpr => "DeclRefExpr"
  | integerLiteralExpr => "IntegerLiteralExpr"
  | booleanLiteralExpr => "BooleanLiteralExpr"
  | erroneousExpr => "ErroneousExpr"
  | binaryOperatorExpr => "BinaryOperatorExpr"
  | callOperatorExpr => "CallOperatorExpr"
  | metaInstantiationExpr => "MetaInstantiationExpr"

/-- Every kind has a name of its own. -/
theorem ASTKind.toTypeString_injective : Function.Injective ASTKind.toTypeString := by
  intro k l h
  cases k <;> cases l <;> first | rfl | exact absurd h (by decide)

/-- The representation of an operator in `AST.inl`. -/
def ExprBinaryOperator.representation : ExprBinaryOperator → String
  | mul => "*"
  | div => "/"
  | plus => "+"
  | minus => "-"
  | lessThan => "<"
  | greaterThan => ">"
  | lessThanOrEq => "<="
  | greaterThanOrEq => ">="
  | equal => "=="
  | notEqual => "!="
  | assign => "="

/-- `ASTStringer::toString`. -/
def ASTStringer.toString (n : ASTNode) : Option String :=
  match n.node.data with
  | .declRefExpr name =>
    match n.decl with
    | some decl => some (name ++ " <resolved to '" ++ decl.kind.toTypeString ++ "'>")
    | none => some (name ++ " <unresolved>")
  | .integerLiteralExpr literal => some (ToString.toString literal.toInt)
  | .booleanLiteralExpr literal => some (if literal then "true" else "false")
  | .binaryOperatorExpr op => some op.representation
  | data => data.name?

namespace ASTDumper

/-! ## The AST -/

/-- A `SimpleASTNode` without its children. -/
structure SimpleASTLabel where
  kind : ASTKind
  represents : Option String
deriving DecidableEq, Repr

/-- `SimpleASTNode`. Children that are not there and no children are dumped alike. -/
abbrev SimpleASTNode := Rose SimpleASTLabel

mutual
/-- `SimpleASTNode::createFrom`. -/
def createFrom : AST → SimpleASTNode
  | .node n cs =>
    .node ⟨n.node.kind, ASTStringer.toString n⟩
      (if n.node.kind.hasChildren then createFromAll cs else [])
/-- `createFrom` of each child. -/
def createFromAll : List AST → List SimpleASTNode
  | [] => []
  | c :: cs => createFrom c :: createFromAll cs
end

/-! ## The layout -/

/-- `SimpleLayoutASTNode`: its kind and its children. -/
abbrev SimpleLayoutASTNode := Rose String

/-- What stops the decoder. -/
inductive Fault where
  | malformedLayout
  | validNodeExpected
  | endExpected
  | outOfFuel
deriving DecidableEq, Repr

/-- What decoding one node returns: the node, and the layout behind it. -/
abbrev Create := Layout → Except Fault (SimpleLayoutASTNode × Layout)

/-- `consume`. -/
def consume (create : Create) : Create
  | [] => throw .malformedLayout
  | none :: _ => throw .validNodeExpected
  | l => create l

/-- `while (!itr->empty())`. -/
def untilReduce (create : Create) :
    Nat → Layout → Except Fault (List SimpleLayoutASTNode × Layout)
  | 0, _ => throw .outOfFuel
  | _ + 1, [] => throw .malformedLayout
  | _ + 1, none :: rest => return ([], none :: rest)
  | fuel + 1, l => do
    let (child, rest) ← consume create l
    let (children, rest) ← untilReduce create fuel rest
    return (child :: children, rest)

/-- Decodes the given number of nodes. -/
def fixedChildren (create : Create) :
    Nat → Layout → Except Fault (List SimpleLayoutASTNode × Layout)
  | 0, rest => return ([], rest)
  | count + 1, l => do
    let (child, rest) ← consume create l
    let (children, rest) ← fixedChildren create count rest
    return (child :: children, rest)

/-- The last child of a node whose children are framed by a marker. -/
def reduceMarker : SimpleLayoutASTNode := .node "<reduce marker>" []

/-- The last child of a node with a fixed number of children. -/
def obviousReduce : SimpleLayoutASTNode := .node "<obvious reduce>" []

/-- `SimpleLayoutASTNode::createStructured`. -/
def createStructured : Nat → Create
  | 0, _ => throw .outOfFuel
  | _ + 1, [] => throw .malformedLayout
  | _ + 1, none :: _ => throw .validNodeExpected
  | fuel + 1, some main :: rest =>
    if !main.kind.hasChildren then return (.node main.kind.toTypeString [], rest)
    else if main.isNodeRequiringReduceMarker then do
      let (children, rest) ← untilReduce (createStructured fuel) fuel rest
      return (.node main.kind.toTypeString (children ++ [reduceMarker]), rest.tail)
    else do
      let (children, rest) ←
        fixedChildren (createStructured fuel) main.kind.getKnownAmountOfChildren rest
      return (.node main.kind.toTypeString (children ++ [obviousReduce]), rest)

/-- `dumpLayout`: the node that is dumped. -/
def dumpLayout (layout : Layout) : Except Fault SimpleLayoutASTNode := do
  let (node, rest) ← createStructured layout.length layout
  if rest.isEmpty then return node else throw .endExpected

/-! ## The same structure -/

/-- A pseudo child that stands for the end of the children. -/
def isReduce (kind : String) : Bool := kind == "<reduce marker>" || kind == "<obvious reduce>"

mutual
/-- The node without the pseudo children below it. -/
def withoutReduce : SimpleLayoutASTNode → SimpleLayoutASTNode
  | .node kind cs => .node kind (withoutReduceAll cs)
/-- The nodes of a list that are no pseudo children, each without those below it. -/
def withoutReduceAll : List SimpleLayoutASTNode → List SimpleLayoutASTNode
  | [] => []
  | c :: cs =>
    if isReduce c.label then withoutReduceAll cs else withoutReduce c :: withoutReduceAll cs
end

theorem withoutReduceAll_append (cs ds : List SimpleLayoutASTNode) :
    withoutReduceAll (cs ++ ds) = withoutReduceAll cs ++ withoutReduceAll ds := by
  induction cs with
  | nil => rfl
  | cons c cs ih =>
    rw [List.cons_append, withoutReduceAll, withoutReduceAll, ih]
    split
    · rfl
    · rw [List.cons_append]

/-- The kinds and the children that a tree is dumped with. -/
def structureOf (t : Tree) : Rose String := t.map fun n => n.kind.toTypeString

theorem isReduce_toTypeString (k : ASTKind) : isReduce k.toTypeString = false := by
  cases k <;> rfl

/-- Decoding a node returns the structure of the tree, and stops behind its encoding. -/
def Decodes (t : Tree) : Prop :=
  ∀ (rest : Layout) (fuel : Nat), t.encode.length ≤ fuel →
    ∃ node, createStructured fuel (t.encode ++ rest) = .ok (node, rest) ∧
      withoutReduce node = structureOf t ∧ isReduce node.label = false

theorem consume_encode (create : Create) (t : Tree) (rest : Layout) :
    consume create (t.encode ++ rest) = create (t.encode ++ rest) := by
  cases t with
  | node n cs => rfl

/-- The children are decoded one after the other. -/
theorem fixedChildren_encodeAll {cs : List Tree} (h : ∀ c ∈ cs, Decodes c) (rest : Layout)
    (fuel : Nat) (hfuel : (Tree.encodeAll cs).length ≤ fuel) :
    ∃ children, fixedChildren (createStructured fuel) cs.length (Tree.encodeAll cs ++ rest) =
        .ok (children, rest) ∧
      withoutReduceAll children = cs.map structureOf := by
  induction cs with
  | nil => exact ⟨[], rfl, rfl⟩
  | cons c cs ih =>
    rw [Tree.encodeAll_cons, List.length_append] at hfuel
    obtain ⟨child, hchild, hstructure, hlabel⟩ :=
      h c List.mem_cons_self (Tree.encodeAll cs ++ rest) fuel (by omega)
    obtain ⟨children, hchildren, hstructures⟩ :=
      ih (fun x hx => h x (List.mem_cons_of_mem _ hx)) (by omega)
    refine ⟨child :: children, ?_, ?_⟩
    · rw [Tree.encodeAll_cons, List.append_assoc, List.length_cons, fixedChildren, consume_encode,
        hchild]
      simp only [bind, Except.bind, hchildren]
      rfl
    · rw [withoutReduceAll, hlabel, if_neg Bool.false_ne_true, hstructure, hstructures,
        List.map_cons]

/-- The children are decoded up to the marker. -/
theorem untilReduce_encodeAll {cs : List Tree} (h : ∀ c ∈ cs, Decodes c) (rest : Layout)
    (fuel : Nat) (hfuel : (Tree.encodeAll cs).length ≤ fuel) :
    ∀ n, cs.length < n →
      ∃ children, untilReduce (createStructured fuel) n (Tree.encodeAll cs ++ none :: rest) =
          .ok (children, none :: rest) ∧
        withoutReduceAll children = cs.map structureOf := by
  induction cs with
  | nil =>
    intro n hn
    cases n with
    | zero => exact absurd hn (Nat.lt_irrefl 0)
    | succ n => exact ⟨[], rfl, rfl⟩
  | cons c cs ih =>
    intro n hn
    cases n with
    | zero => exact absurd hn (Nat.not_lt_zero _)
    | succ n =>
      rw [Tree.encodeAll_cons, List.length_append] at hfuel
      rw [List.length_cons] at hn
      obtain ⟨child, hchild, hstructure, hlabel⟩ :=
        h c List.mem_cons_self (Tree.encodeAll cs ++ none :: rest) fuel (by omega)
      obtain ⟨children, hchildren, hstructures⟩ :=
        ih (fun x hx => h x (List.mem_cons_of_mem _ hx)) (by omega) n (by omega)
      refine ⟨child :: children, ?_, ?_⟩
      · have hnext : untilReduce (createStructured fuel) (n + 1)
            (c.encode ++ (Tree.encodeAll cs ++ none :: rest)) = (do
              let (child, rest) ←
                consume (createStructured fuel) (c.encode ++ (Tree.encodeAll cs ++ none :: rest))
              let (children, rest) ← untilReduce (createStructured fuel) n rest
              return (child :: children, rest)) := by
          cases c with
          | node m ds => rfl
        rw [Tree.encodeAll_cons, List.append_assoc, hnext, consume_encode, hchild]
        simp only [bind, Except.bind, hchildren]
        rfl
      · rw [withoutReduceAll, hlabel, if_neg Bool.false_ne_true, hstructure, hstructures,
          List.map_cons]

/-- A node without a marker has as many children as its kind says. -/
theorem length_of_fits {k : ASTKind} {ks : List ASTKind} (h : k.fits ks = true)
    (hchildren : k.hasChildren = true) (hmarker : k.isRequiringReduceMarker = false) :
    ks.length = k.getKnownAmountOfChildren := by
  cases k with
  | metaDecl | binaryOperatorExpr =>
    match ks, h with
    | [_, _], _ => rfl
  | globalConstantDecl | expressionStmt | declStmt | metaCalculationStmt =>
    match ks, h with
    | [_], _ => rfl
  | anonymousArgumentDecl | namedArgumentDecl | declRefExpr | integerLiteralExpr
  | booleanLiteralExpr | erroneousExpr => cases hchildren
  | _ => cases hmarker

/-- The decoder decodes every tree of the reader's grammar. -/
theorem decodes {t : Tree} (ht : t.WellShaped) : Decodes t := by
  induction t using Rose.ind with
  | h n cs ih =>
    obtain ⟨hfits, hcs⟩ := Tree.wellShaped_node.1 ht
    have hall : ∀ c ∈ cs, Decodes c := fun c hc => ih c hc (hcs c hc)
    intro rest fuel hfuel
    cases fuel with
    | zero => exact absurd hfuel (by simp [Tree.encode_node])
    | succ fuel =>
      have hstructure : structureOf (.node n cs) =
          .node n.kind.toTypeString (cs.map structureOf) := Rose.map_node _ _ _
      by_cases hchildren : n.kind.hasChildren = true
      · by_cases hmarker : n.isNodeRequiringReduceMarker = true
        · rw [Tree.encode_node, if_pos hmarker, List.length_cons, List.length_append,
            List.length_singleton] at hfuel
          have hlength := ASTLayoutReader.length_le_encodeAll cs
          obtain ⟨children, hread, hchildren'⟩ :=
            untilReduce_encodeAll hall rest fuel (by omega) fuel (by omega)
          refine ⟨.node n.kind.toTypeString (children ++ [reduceMarker]), ?_, ?_,
            isReduce_toTypeString _⟩
          · rw [ASTLayoutReader.encode_framed hmarker, createStructured, hchildren, hmarker]
            simp only [Bool.not_true, Bool.false_eq_true, ↓reduceIte, bind, Except.bind, hread]
            rfl
          · rw [withoutReduce, withoutReduceAll_append, hchildren', hstructure]
            exact congrArg _ (List.append_nil _)
        · have hmarker := Bool.eq_false_iff.2 hmarker
          rw [Tree.encode_node, hmarker, if_neg Bool.false_ne_true, List.append_nil,
            List.length_cons] at hfuel
          have hcount := length_of_fits hfits hchildren hmarker
          rw [List.length_map] at hcount
          obtain ⟨children, hread, hchildren'⟩ :=
            fixedChildren_encodeAll hall rest fuel (by omega)
          rw [hcount] at hread
          refine ⟨.node n.kind.toTypeString (children ++ [obviousReduce]), ?_, ?_,
            isReduce_toTypeString _⟩
          · rw [Tree.encode_node, hmarker, if_neg Bool.false_ne_true, List.append_nil,
              List.cons_append, createStructured, hchildren, hmarker]
            simp only [Bool.not_true, Bool.false_eq_true, ↓reduceIte, bind, Except.bind, hread]
            rfl
          · rw [withoutReduce, withoutReduceAll_append, hchildren', hstructure]
            exact congrArg _ (List.append_nil _)
      · have hchildren := Bool.eq_false_iff.2 hchildren
        obtain rfl : cs = [] := ht.leaf hchildren
        have hmarker : n.isNodeRequiringReduceMarker = false := by
          rw [Node.isNodeRequiringReduceMarker, ASTKind.isRequiringReduceMarker, hchildren,
            Bool.false_and]
        refine ⟨.node n.kind.toTypeString [], ?_, ?_, isReduce_toTypeString _⟩
        · rw [Tree.encode_node, hmarker, if_neg Bool.false_ne_true, List.append_nil,
            List.cons_append, createStructured, hchildren]
          rfl
        · rw [hstructure]
          rfl

/-- The AST is dumped with its kinds and its children. -/
theorem createFrom_structure {a : AST} (ha : a.shape.WellShaped) :
    (createFrom a).map (fun label => label.kind.toTypeString) = structureOf a.shape := by
  induction a using Rose.ind with
  | h n cs ih =>
    rw [AST.shape_node] at ha ⊢
    have hcs : ∀ c ∈ cs, (createFrom c).map (fun label => label.kind.toTypeString) =
        structureOf (AST.shape c) := by
      intro c hc
      exact ih c hc ((Tree.wellShaped_node.1 ha).2 _ (List.mem_map_of_mem hc))
    have hall : createFromAll cs = cs.map createFrom := by
      clear ha ih hcs
      induction cs with
      | nil => rfl
      | cons c cs ih => rw [createFromAll, ih, List.map_cons]
    have hchildren : (if n.node.kind.hasChildren then createFromAll cs else []) =
        cs.map createFrom := by
      split
      · exact hall
      · rename_i hleaf
        have hnil := ha.leaf (Bool.eq_false_iff.2 hleaf)
        rw [List.map_eq_nil_iff.1 hnil]
        rfl
    rw [createFrom, hchildren, Rose.map_node, structureOf, Rose.map_node, List.map_map,
      List.map_map]
    exact congrArg _ (List.map_congr_left hcs)

/-- The names in a dumped AST are those of the kinds of its nodes, and of no other kinds. -/
theorem createFrom_kinds (node : SimpleASTNode) (kinds : Rose ASTKind) :
    node.map (fun label => label.kind.toTypeString) = kinds.map ASTKind.toTypeString ↔
      kinds = node.map SimpleASTLabel.kind := by
  rw [← Rose.map_map ASTKind.toTypeString SimpleASTLabel.kind]
  constructor
  · exact fun h => (Rose.map_injective ASTKind.toTypeString_injective h).symm
  · rintro rfl
    rfl

/-- Both decoders agree on the encoding of a tree of the reader's grammar: the dumper consumes it to
its end, and without its pseudo children it has the kinds and the children of the AST that the
reader builds. The dumper writes the names of the kinds, from which they can be told. -/
theorem dumpLayout_consume (similarTo : ScopeChain → Identifier → Option Node)
    {p : ASTLayoutReader.Production} {t : Tree} (ht : p.Reads t) (b : BasicASTBuilder) :
    ∃ (a : AST) (b' : BasicASTBuilder) (node : SimpleLayoutASTNode),
      ASTLayoutReader.consume similarTo p ⟨t.encode, b⟩ = .ok (a, ⟨[], b'⟩) ∧
      createStructured t.encode.length t.encode = .ok (node, []) ∧
      dumpLayout t.encode = .ok node ∧
      ∀ kinds : Rose ASTKind, withoutReduce node = kinds.map ASTKind.toTypeString ↔
        kinds = (createFrom a).map SimpleASTLabel.kind := by
  have hread := ASTLayoutReader.consume_complete similarTo ht [] b
  obtain ⟨node, hnode, hstructure, -⟩ := decodes ht.1 [] t.encode.length (Nat.le_refl _)
  rw [List.append_nil] at hread hnode
  have hshape : (ASTLayoutReader.readTree similarTo t b).1.shape = t :=
    ASTLayoutReader.readTree_shape t ht.1 b
  refine ⟨_, _, node, hread, hnode, ?_, fun kinds => ?_⟩
  · simp only [dumpLayout, bind, Except.bind, hnode]
    rfl
  · rw [← createFrom_kinds, createFrom_structure (by rw [hshape]; exact ht.1), hshape, hstructure]

/-- `{ if 1 { return 2 + 3; } }`: marker-framed, fixed-arity and leaf nodes in each other. -/
theorem dumpLayout_consume_compound :
    ∃ (a : AST) (b' : BasicASTBuilder) (node : SimpleLayoutASTNode),
      ASTLayoutReader.consume (fun _ _ => none) .stmt
        ⟨[some ⟨0, .compoundStmt⟩, some ⟨1, .ifStmt⟩, some ⟨2, .integerLiteralExpr 1⟩,
          some ⟨3, .compoundStmt⟩, some ⟨4, .returnStmt⟩, some ⟨5, .binaryOperatorExpr .plus⟩,
          some ⟨6, .integerLiteralExpr 2⟩, some ⟨7, .integerLiteralExpr 3⟩, none, none, none,
          none], .start .empty⟩ = .ok (a, ⟨[], b'⟩) ∧
      dumpLayout
        [some ⟨0, .compoundStmt⟩, some ⟨1, .ifStmt⟩, some ⟨2, .integerLiteralExpr 1⟩,
          some ⟨3, .compoundStmt⟩, some ⟨4, .returnStmt⟩, some ⟨5, .binaryOperatorExpr .plus⟩,
          some ⟨6, .integerLiteralExpr 2⟩, some ⟨7, .integerLiteralExpr 3⟩, none, none, none,
          none] = .ok node ∧
      ∀ kinds : Rose ASTKind, withoutReduce node = kinds.map ASTKind.toTypeString ↔
        kinds = (createFrom a).map SimpleASTLabel.kind := by
  let t : Tree :=
    .node ⟨0, .compoundStmt⟩
      [.node ⟨1, .ifStmt⟩
        [.node ⟨2, .integerLiteralExpr 1⟩ [],
          .node ⟨3, .compoundStmt⟩
            [.node ⟨4, .returnStmt⟩
              [.node ⟨5, .binaryOperatorExpr .plus⟩
                [.node ⟨6, .integerLiteralExpr 2⟩ [], .node ⟨7, .integerLiteralExpr 3⟩ []]]]]]
  have ht : ASTLayoutReader.Production.Reads .stmt t := ⟨by decide, rfl⟩
  obtain ⟨a, b', node, hread, -, hdump, hkinds⟩ :=
    dumpLayout_consume (fun _ _ => none) ht (.start .empty)
  exact ⟨a, b', node, hread, hdump, hkinds⟩

end ASTDumper

end Swy
