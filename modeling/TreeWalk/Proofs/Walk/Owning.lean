import TreeWalk.Walk.Owning
import TreeWalk.Proofs.Walk.Items

/-!
# What the owning walk hands out

* `Owning.values` : the values of the nodes that a walk still owns;
* `Owning.values_next?`, `Owning.values_call` : a step hands out the first of them and keeps the others;
* `Owning.toList_eq_values` : they are all that the walk still hands out.
-/

namespace TreeWalk.Owning

universe u

variable {α : Type u}

/-- The values of the nodes that the walk still owns, in the order of the stack and in pre-order below each node. -/
def values (w : Owning α) : List α := w.stack.flatMap (·.toTree.preorder)

theorem values_ofNode (n : Node α) : (ofNode n).values = n.toTree.preorder := List.flatMap_singleton _ _

/-- A root on top of the stack stands for the values of its tree. -/
theorem flatMap_preorder_root? (t : Tree α) (stack : List (Node α)) :
    (t.root?.toList ++ stack).flatMap (·.toTree.preorder) = t.preorder ++ stack.flatMap (·.toTree.preorder) := by
  cases t <;> rfl

theorem values_ofTree (t : Tree α) : (ofTree t).values = t.preorder := by
  have h := flatMap_preorder_root? t []
  rwa [List.append_nil, List.flatMap_nil, List.append_nil] at h

theorem values_of_none {w : Owning α} (h : w.next? = none) : w.values = [] := by
  obtain ⟨_ | ⟨n, stack⟩⟩ := w
  · rfl
  · cases h

theorem values_next? {w w' : Owning α} {a : α} (h : w.next? = some (a, w')) : w.values = a :: w'.values := by
  obtain ⟨_ | ⟨n, stack⟩⟩ := w
  · cases h
  · simp only [next?, Node.detach, Option.some.injEq, Prod.mk.injEq] at h
    obtain ⟨rfl, rfl⟩ := h
    unfold values
    rw [flatMap_preorder_root?, flatMap_preorder_root?, List.flatMap_cons, Node.toTree, Tree.preorder_node,
      List.cons_append, List.append_assoc]
    rfl

/-- What a call hands out, and what the walk owns after it, are what it owned before. -/
theorem values_call (w : Owning α) : w.values = (Walk.call w).1.toList ++ (Walk.call w).2.values := by
  unfold Walk.call
  split
  · rfl
  · next h => exact values_next? h

theorem toList_eq_values (w : Owning α) : Walk.toList w = w.values :=
  Walk.toList_eq (fun _ => values_of_none) (fun _ _ _ => values_next?) w

theorem toList_ofTree (t : Tree α) : Walk.toList (ofTree t) = t.preorder := by rw [toList_eq_values, values_ofTree]

end TreeWalk.Owning
