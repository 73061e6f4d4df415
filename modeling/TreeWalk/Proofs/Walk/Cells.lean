import Mathlib.Data.List.Forall2
import TreeWalk.Walk.Cells
import TreeWalk.Proofs.Tree.Spots

/-!
# What the walk over cells does to a tree

The tree as it stands is put together from the cells and the subtrees still to come, and nothing gets lost on the way:

* `CellWalk.trees` : the trees that are put together, of which `CellWalk.tree` is the first;
* `CellWalk.flatMap_trees` : their values are those of the cells and of the subtrees still to come;
* `CellWalk.trees_next?` : a step of the walk leaves the trees as they are;
* `CellWalk.map_cells_set`, `CellWalk.forall₂_trees` : a write changes nothing of a cell but its value, so it keeps the
  shapes of the trees.
-/

namespace TreeWalk

universe u

variable {α : Type u}

/-! ## Putting the tree together -/

namespace Cell

/-- Whether there are children below the cell on the left and on the right. -/
def sides (c : Cell α) : Bool × Bool := (c.hasLeft, c.hasRight)

theorem flatMap_takeTree (isThere : Bool) (trees : List (Tree α)) :
    (takeTree isThere trees).1.preorder ++ (takeTree isThere trees).2.flatMap Tree.preorder =
      trees.flatMap Tree.preorder := by
  cases isThere with
  | false => rfl
  | true => cases trees <;> rfl

theorem forall₂_takeTree (isThere : Bool) {trees trees' : List (Tree α)}
    (h : List.Forall₂ Tree.SameShape trees trees') :
    (takeTree isThere trees).1.SameShape (takeTree isThere trees').1 ∧
      List.Forall₂ Tree.SameShape (takeTree isThere trees).2 (takeTree isThere trees').2 := by
  cases isThere with
  | false => exact ⟨.refl _, h⟩
  | true =>
    cases h with
    | nil => exact ⟨.refl _, .nil⟩
    | cons hfirst hrest => exact ⟨hfirst, hrest⟩

/-- What is put below a cell or left beside it keeps its values. -/
theorem flatMap_attach (c : Cell α) (trees : List (Tree α)) :
    (c.attach trees).flatMap Tree.preorder = c.value :: trees.flatMap Tree.preorder := by
  have hleft := flatMap_takeTree c.hasLeft trees
  have hright := flatMap_takeTree c.hasRight (takeTree c.hasLeft trees).2
  unfold attach
  rw [List.flatMap_cons, Tree.preorder_node, ← hleft, ← hright, List.cons_append, List.append_assoc]

theorem forall₂_attach {c c' : Cell α} (hc : c.sides = c'.sides) {trees trees' : List (Tree α)}
    (h : List.Forall₂ Tree.SameShape trees trees') :
    List.Forall₂ Tree.SameShape (c.attach trees) (c'.attach trees') := by
  obtain ⟨hleft, hright⟩ := Prod.mk.inj hc
  obtain ⟨hleftShape, hleftRest⟩ := forall₂_takeTree c'.hasLeft h
  obtain ⟨hrightShape, hrightRest⟩ := forall₂_takeTree c'.hasRight hleftRest
  unfold attach
  rw [hleft, hright]
  exact .cons ((Tree.sameShape_node_node ..).2 ⟨hleftShape, hrightShape⟩) hrightRest

/-- The shapes of the trees that come out do not depend on the values in the cells. -/
theorem forall₂_foldr_attach {cells cells' : List (Cell α)} (h : cells.map sides = cells'.map sides)
    (trees : List (Tree α)) : List.Forall₂ Tree.SameShape (cells.foldr attach trees) (cells'.foldr attach trees) := by
  induction cells generalizing cells' with
  | nil =>
    rw [List.map_nil, eq_comm, List.map_eq_nil_iff] at h
    rw [h]
    exact List.forall₂_same.2 fun t _ => .refl t
  | cons c cells ih =>
    obtain ⟨c', rest, rfl, hc, hrest⟩ := List.map_eq_cons_iff.1 h.symm
    exact forall₂_attach hc.symm (ih hrest.symm)

theorem attach_ofSpot (s : Spot α) (stack : List (Spot α)) :
    (ofSpot s).attach ((Preorder.pushChildren s stack).map (·.node.toTree)) =
      s.node.toTree :: stack.map (·.node.toTree) := by
  obtain ⟨place, value, _ | _, _ | _⟩ := s <;> rfl

end Cell

namespace CellWalk

/-- The trees that the cells and the subtrees still to come are put together to. -/
def trees (w : CellWalk α) : List (Tree α) := w.cells.toList.foldr Cell.attach (w.stack.map (·.node.toTree))

theorem tree_eq (w : CellWalk α) : w.tree = w.trees.headD .empty := by
  unfold tree trees
  rw [Array.foldr_toList]

theorem flatMap_trees (w : CellWalk α) :
    w.trees.flatMap Tree.preorder = w.values ++ w.stack.flatMap (·.node.toTree.preorder) := by
  have key : ∀ (cells : List (Cell α)) (rest : List (Tree α)),
      (cells.foldr Cell.attach rest).flatMap Tree.preorder = cells.map Cell.value ++ rest.flatMap Tree.preorder := by
    intro cells rest
    induction cells with
    | nil => rfl
    | cons c cells ih => rw [List.foldr_cons, Cell.flatMap_attach, ih, List.map_cons, List.cons_append]
  unfold trees values
  rw [key, List.flatMap_map, Array.toList_map]

theorem trees_next? {w w' : CellWalk α} {i : Nat} (h : w.next? = some (i, w')) : w'.trees = w.trees := by
  obtain ⟨cells, _ | ⟨s, stack⟩⟩ := w
  · cases h
  · simp only [next?, Option.some.injEq, Prod.mk.injEq] at h
    obtain ⟨-, rfl⟩ := h
    unfold trees
    rw [Array.toList_push, List.foldr_append, List.foldr_cons, List.foldr_nil, Cell.attach_ofSpot, List.map_cons]

theorem trees_call (w : CellWalk α) : (Walk.call w).2.trees = w.trees := by
  unfold Walk.call
  split
  · rfl
  · next h => exact trees_next? h

/-! ## Writing to cells -/

theorem values_set (w : CellWalk α) (i : Nat) (a : α) : (w.set i a).values = w.values.set i a := by
  unfold values set
  rw [Array.toList_map, Array.toList_map, Array.toList_modify]
  refine List.ext_getElem? fun k => ?_
  rw [List.getElem?_map, List.getElem?_modify, List.getElem?_set, List.getElem?_map, List.length_map]
  by_cases hk : i = k
  · subst hk
    simp only [if_true]
    cases h : w.cells.toList[i]? with
    | none => rw [if_neg (Nat.not_lt.2 (List.getElem?_eq_none_iff.1 h))]; rfl
    | some c => rw [if_pos (List.getElem?_eq_some_iff.1 h).1]; rfl
  · simp only [if_neg hk]
    cases w.cells.toList[k]? <;> rfl

/-- A write changes nothing of a cell but its value. -/
theorem map_cells_set {γ : Type*} {f : Cell α → γ} (hf : ∀ c a, f { c with value := a } = f c) (w : CellWalk α) (i : Nat)
    (a : α) : (w.set i a).cells.toList.map f = w.cells.toList.map f := by
  unfold set
  rw [Array.toList_modify]
  refine List.ext_getElem? fun k => ?_
  rw [List.getElem?_map, List.getElem?_modify, List.getElem?_map]
  cases w.cells.toList[k]? with
  | none => rfl
  | some c =>
    by_cases hk : i = k
    · simp only [hk, if_true]
      exact congrArg some (hf c a)
    · simp only [hk, if_false]
      rfl

theorem get?_eq (w : CellWalk α) (i : Nat) : w.get? i = w.values[i]? := by
  unfold get? values
  rw [Array.toList_map, List.getElem?_map, Array.getElem?_toList]

theorem values_swap_of_get? {w : CellWalk α} {i j : Nat} {a b : α} (ha : w.get? i = some a) (hb : w.get? j = some b) :
    (w.swap i j).values = (w.values.set i b).set j a := by
  unfold swap
  rw [ha, hb]
  show ((w.set i b).set j a).values = _
  rw [values_set, values_set]

theorem swap_of_not_get? {w : CellWalk α} {i j : Nat} (h : w.get? i = none ∨ w.get? j = none) : w.swap i j = w := by
  unfold swap
  rcases h with h | h
  · rw [h]
  · rw [h]
    cases w.get? i <;> rfl

/-- An exchange of two values changes nothing else. -/
theorem map_cells_swap {γ : Type*} {f : Cell α → γ} (hf : ∀ c a, f { c with value := a } = f c) (w : CellWalk α)
    (i j : Nat) : (w.swap i j).cells.toList.map f = w.cells.toList.map f := by
  unfold swap
  split
  · rw [map_cells_set hf, map_cells_set hf]
  · rfl

theorem stack_swap (w : CellWalk α) (i j : Nat) : (w.swap i j).stack = w.stack := by
  unfold swap
  split <;> rfl

/-- What is done to cells that neither adds nor moves children leaves the shapes of the trees as they are. -/
theorem forall₂_trees {w w' : CellWalk α} (hcells : w'.cells.toList.map Cell.sides = w.cells.toList.map Cell.sides)
    (hstack : w'.stack = w.stack) : List.Forall₂ Tree.SameShape w.trees w'.trees := by
  unfold trees
  rw [hstack]
  exact Cell.forall₂_foldr_attach hcells.symm _

end CellWalk

end TreeWalk
