import Mathlib.Data.List.Basic
import TreeWalk.Proofs.Tree.Spots
import TreeWalk.Proofs.Walk.Items
import TreeWalk.Walk.Preorder

/-!
# What the pre-order walk hands out

The nodes that are still to come are all those of the subtrees on the stack, each subtree in pre-order and the one on
top first.

* `Preorder.pending` : these nodes. Taking a node off the stack and putting its children on takes this node off the
  front of them (`pending_cons`);
* `Preorder.toList_eq_pending` : therefore they are what the walk hands out;
* `Preorder.pending_after` : of the nodes of a tree, those that come after the first calls;
* `Preorder.locate?_of_mem_after` : what lies on the stack are subtrees of the tree, each at its own place.
-/

namespace TreeWalk.Preorder

universe u

variable {α : Type u}

/-- The nodes that are still to come: those of the subtrees on the stack. -/
def pending (stack : List (Spot α)) : List (Spot α) := stack.flatMap fun s => s.node.toTree.spotsPre s.place

/-- A root on top of the stack stands for the nodes of its tree. -/
theorem pending_spot? (p : Place) (t : Tree α) (stack : List (Spot α)) :
    pending ((t.spot? p).toList ++ stack) = t.spotsPre p ++ pending stack := by
  cases t <;> rfl

theorem pending_cons (s : Spot α) (stack : List (Spot α)) :
    pending (s :: stack) = s :: pending (pushChildren s stack) := by
  have hnode : pending (s :: stack) =
      s :: ((s.node.left.spotsPre s.place.left ++ s.node.right.spotsPre s.place.right) ++ pending stack) := rfl
  unfold pushChildren Spot.left? Spot.right?
  rw [hnode, pending_spot?, pending_spot?, List.append_assoc]

theorem map_value_pending (stack : List (Spot α)) :
    (pending stack).map Spot.value = stack.flatMap (·.node.toTree.preorder) := by
  unfold pending
  rw [List.map_flatMap]
  exact List.flatMap_congr fun s _ => s.node.toTree.spotsPre_map_value s.place

theorem pending_of_none {w : Preorder α} (h : w.next? = none) : pending w.stack = [] := by
  obtain ⟨_ | ⟨s, stack⟩⟩ := w
  · rfl
  · cases h

theorem pending_of_some {w w' : Preorder α} {s : Spot α} (h : w.next? = some (s, w')) :
    pending w.stack = s :: pending w'.stack := by
  obtain ⟨_ | ⟨top, below⟩⟩ := w
  · cases h
  · simp only [next?, Option.some.injEq, Prod.mk.injEq] at h
    obtain ⟨rfl, rfl⟩ := h
    exact pending_cons top below

theorem toList_eq_pending (w : Preorder α) : Walk.toList w = pending w.stack :=
  Walk.toList_eq (g := fun w : Preorder α => pending w.stack) (fun _ => pending_of_none)
    (fun _ _ _ => pending_of_some) w

theorem pending_ofTree (t : Tree α) : pending (ofTree t).stack = t.spotsPre .root := by
  have h := pending_spot? .root t []
  rw [List.append_nil] at h
  exact h.trans (List.append_nil _)

theorem toList_ofTree (t : Tree α) : Walk.toList (ofTree t) = t.spotsPre .root := by
  rw [toList_eq_pending, pending_ofTree]

theorem toList_ofSpot (s : Spot α) : Walk.toList (ofSpot s) = s.node.toTree.spotsPre s.place := by
  rw [toList_eq_pending]
  exact List.flatMap_singleton ..

/-- The number of items of the walk over a tree is the size of the tree. -/
theorem count_ofTree (t : Tree α) : Walk.count (ofTree t) = t.size := by
  rw [Walk.count_eq, toList_ofTree, t.length_spotsPre]

theorem pending_after (k : Nat) (t : Tree α) :
    pending (Walk.after k (ofTree t)).stack = (t.spotsPre .root).drop k := by
  rw [← toList_eq_pending, Walk.toList_after, toList_ofTree]

/-- Every entry of the stack is a node of the tree, with all that lies below it there. -/
theorem locate?_of_mem_after {k : Nat} {t : Tree α} {s : Spot α} (h : s ∈ (Walk.after k (ofTree t)).stack) :
    t.locate? s.place.path = some s := by
  have hself : s ∈ s.node.toTree.spotsPre s.place := List.mem_cons_self
  have hpending : s ∈ pending (Walk.after k (ofTree t)).stack := List.mem_flatMap.2 ⟨s, h, hself⟩
  rw [pending_after] at hpending
  exact Tree.locate?_of_mem_spotsPre (List.mem_of_mem_drop hpending)

theorem map_locate?_after (k : Nat) (t : Tree α) :
    (Walk.after k (ofTree t)).stack.map (fun s => t.locate? s.place.path) =
      (Walk.after k (ofTree t)).stack.map some :=
  List.map_congr_left fun _ => locate?_of_mem_after

end TreeWalk.Preorder
