import Swy.AST.Node
import Mathlib.Data.List.Range

/-!
# Writing a layout

`ASTLayoutWriter` is used by whoever writes a layout in the same way: a node is allocated for the
fields it is constructed with and written at once, so a layout is given by the fields of its nodes
and the address of the first of them (`number`). What is written for a forest of fields is the
encoding of a forest of fresh nodes (`exists_encodeAll_number`).
-/

namespace Swy

open Library

/-- The elements that stand for the nodes of trees in a layout. -/
def encodeData (ts : List (Rose NodeData)) : List (Option NodeData) :=
  Rose.encodeAll (fun d => d.kind.isRequiringReduceMarker) ts

/-- Fresh nodes for the elements, with consecutive addresses. -/
def number : NodeId → List (Option NodeData) → Layout
  | _, [] => []
  | id, none :: ds => none :: number id ds
  | id, some data :: ds => some ⟨id, data⟩ :: number (id + 1) ds

/-- How many of the elements are nodes. -/
def countNodes (ds : List (Option NodeData)) : Nat := (ds.filterMap id).length

@[simp] theorem countNodes_nil : countNodes [] = 0 := rfl

@[simp] theorem countNodes_none (ds : List (Option NodeData)) :
    countNodes (none :: ds) = countNodes ds := rfl

@[simp] theorem countNodes_some (data : NodeData) (ds : List (Option NodeData)) :
    countNodes (some data :: ds) = countNodes ds + 1 := rfl

theorem countNodes_append (ds ds' : List (Option NodeData)) :
    countNodes (ds ++ ds') = countNodes ds + countNodes ds' := by
  rw [countNodes, List.filterMap_append, List.length_append]
  rfl

theorem number_append (ds ds' : List (Option NodeData)) (id : NodeId) :
    number id (ds ++ ds') = number id ds ++ number (id + countNodes ds) ds' := by
  induction ds generalizing id with
  | nil => rfl
  | cons d ds ih =>
    cases d with
    | none => rw [List.cons_append, number, ih, number, List.cons_append, countNodes_none]
    | some data =>
      rw [List.cons_append, number, ih, number, List.cons_append, countNodes_some, Nat.add_assoc,
        Nat.add_comm 1]

/-- The fields of the nodes are the given ones. -/
theorem map_data_number (ds : List (Option NodeData)) (id : NodeId) :
    (number id ds).map (Option.map Node.data) = ds := by
  induction ds generalizing id with
  | nil => rfl
  | cons d ds ih =>
    cases d with
    | none => exact congrArg _ (ih id)
    | some data => exact congrArg _ (ih (id + 1))

/-- The addresses of the nodes are consecutive. -/
theorem filterMap_id_number (ds : List (Option NodeData)) (id : NodeId) :
    (number id ds).filterMap (Option.map Node.id) = List.range' id (countNodes ds) := by
  induction ds generalizing id with
  | nil => rfl
  | cons d ds ih =>
    cases d with
    | none => exact ih id
    | some data =>
      rw [countNodes_some, List.range'_succ]
      exact congrArg (id :: ·) (ih (id + 1))

theorem encodeData_append (ts ts' : List (Rose NodeData)) :
    encodeData (ts ++ ts') = encodeData ts ++ encodeData ts' := Rose.encodeAll_append _ ts ts'

theorem encodeData_node (data : NodeData) (ts : List (Rose NodeData)) :
    encodeData [.node data ts] =
      some data :: (encodeData ts ++ if data.kind.isRequiringReduceMarker then [none] else []) := by
  rw [encodeData, Rose.encodeAll_cons, Rose.encodeAll_nil, List.append_nil, Rose.encode_node]
  rfl

/-- In what is written for a forest every reduce marker is there. -/
theorem openFrames_encodeData (ts : List (Rose NodeData)) :
    Rose.openFrames (fun d => d.kind.isRequiringReduceMarker) (encodeData ts) = 0 :=
  Rose.openFrames_all _ fun c _ => Rose.openFrames_encode _ c

/-! ## The trees that were written -/

/-- What is written for a forest encodes a forest of nodes with the given fields. -/
theorem exists_encodeAll_number (id : NodeId) (ts : List (Rose NodeData)) :
    ∃ Ts : List Tree, Tree.encodeAll Ts = number id (encodeData ts) ∧
      Ts.map (Rose.map Node.data) = ts :=
  Rose.exists_encodeAll_of_map Node.data (fun d => d.kind.isRequiringReduceMarker) _ ts
    (map_data_number _ _)

/-- The nodes of a forest in the order of its encoding. -/
theorem filterMap_encodeAll (Ts : List Tree) :
    (Tree.encodeAll Ts).filterMap id = Ts.flatMap Rose.labels :=
  Rose.filterMap_encodeAll _ Ts

/-- The nodes of a forest that was written have different addresses. -/
theorem nodup_ids_of_number {id : NodeId} {ds : List (Option NodeData)} {Ts : List Tree}
    (h : Tree.encodeAll Ts = number id ds) : ((Ts.flatMap Rose.labels).map Node.id).Nodup := by
  have hids : (Ts.flatMap Rose.labels).map Node.id = List.range' id (countNodes ds) := by
    rw [← filterMap_id_number, ← h, ← filterMap_encodeAll, List.map_filterMap]
    rfl
  rw [hids]
  exact List.nodup_range'

end Swy
