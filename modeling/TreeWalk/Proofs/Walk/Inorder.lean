import TreeWalk.Proofs.Tree.Spots
import TreeWalk.Proofs.Walk.Items
import TreeWalk.Walk.Inorder

/-!
# What the in-order walk hands out

The nodes that are still to come are, from the top of the stack down, each node on it followed by the nodes of its right
subtree in in-order: the left subtree of a node on the stack is done.

* `Inorder.pending` : these nodes. Going down the left edge of a tree puts all nodes of the tree in front of them
  (`pending_pushLeftEdge`), and a step takes its node off the front (`pending_of_some`);
* `Inorder.toList_eq_pending` : therefore they are what the walk hands out;
* `Inorder.Yields` : what the walk hands out in the end, and what the stack stands for on the way there.

The nodes that a walk from a node hands out are the nodes of the tree at the ends of the paths that lead through this
one (`Inorder.handsOut_spotsIn`). They are told apart by their places and not by what they hold, and their values are
those of the recursive in-order.
-/

namespace TreeWalk.Inorder

universe u

variable {α : Type u}

/-- The nodes that are still to come: from the top of the stack down, each node and then those of its right subtree. -/
def pending (stack : List (Spot α)) : List (Spot α) :=
  stack.flatMap fun s => s :: s.node.right.spotsIn s.place.right

theorem pending_pushLeftEdge (stack : List (Spot α)) (p : Place) (t : Tree α) :
    pending (pushLeftEdge stack p t) = t.spotsIn p ++ pending stack := by
  induction t generalizing stack p with
  | empty => rfl
  | node value left right ihLeft _ =>
    rw [pushLeftEdge, ihLeft, Tree.spotsIn, List.append_assoc]
    rfl

theorem pending_of_none {w : Inorder α} (h : w.next? = none) : pending w.stack = [] := by
  obtain ⟨_ | ⟨s, stack⟩⟩ := w
  · rfl
  · cases h

theorem pending_of_some {w w' : Inorder α} {s : Spot α} (h : w.next? = some (s, w')) :
    pending w.stack = s :: pending w'.stack := by
  obtain ⟨_ | ⟨top, below⟩⟩ := w
  · cases h
  · simp only [next?, Option.some.injEq, Prod.mk.injEq] at h
    obtain ⟨rfl, rfl⟩ := h
    rw [pending_pushLeftEdge]
    rfl

theorem toList_eq_pending (w : Inorder α) : Walk.toList w = pending w.stack :=
  Walk.toList_eq (g := fun w : Inorder α => pending w.stack) (fun _ => pending_of_none)
    (fun _ _ _ => pending_of_some) w

theorem toList_pushLeftEdge (p : Place) (t : Tree α) :
    Walk.toList (⟨pushLeftEdge [] p t⟩ : Inorder α) = t.spotsIn p := by
  rw [toList_eq_pending, pending_pushLeftEdge]
  exact List.append_nil _

theorem toList_ofTree (t : Tree α) : Walk.toList (ofTree t) = t.spotsIn .root := toList_pushLeftEdge .root t

theorem toList_ofSpot (s : Spot α) : Walk.toList (ofSpot s) = s.node.toTree.spotsIn s.place :=
  toList_pushLeftEdge s.place s.node.toTree

/-! ## The whole walk -/

/-- One call after another of the walk gives the nodes of the list, and then nothing for ever. After any number of
calls, the nodes still to come are those that the stack stands for, and they are the nodes of the list that were not
handed out yet. -/
structure Yields (w : Inorder α) (nodes : List (Spot α)) : Prop where
  handsOut : Walk.HandsOut w nodes
  toCome : ∀ k, Walk.HandsOut (Walk.after k w) (pending (Walk.after k w).stack)
  stacked : ∀ k, pending (Walk.after k w).stack = nodes.drop k

theorem yields_of_toList_eq {w : Inorder α} {nodes : List (Spot α)} (h : Walk.toList w = nodes) :
    w.Yields nodes where
  handsOut := Walk.handsOut_of_toList_eq h
  toCome k := Walk.handsOut_of_toList_eq (toList_eq_pending _)
  stacked k := by rw [← toList_eq_pending, Walk.toList_after, h]

/-- **The in-order walk.** Over a tree, and over what lies below any of its nodes, one call after another gives the
nodes in the order left subtree, node, right subtree, each of them once, and then nothing for ever. What the stack
holds says which nodes are still to come. -/
theorem handsOut_spotsIn (t : Tree α) :
    ((ofTree t).Yields (t.spotsIn .root) ∧ (t.spotsIn .root).map Spot.value = t.inorder ∧
      t.ListedBy .root (t.spotsIn .root)) ∧
    ∀ path s, t.locate? path = some s →
      let nodes := s.node.toTree.spotsIn s.place
      (ofSpot s).Yields nodes ∧ nodes.map Spot.value = s.node.toTree.inorder ∧
        (∀ x, x ∈ nodes ↔ ∃ below, t.locate? (path ++ below) = some x) ∧ (nodes.map Spot.place).Nodup := by
  refine ⟨⟨yields_of_toList_eq (toList_ofTree t), t.spotsIn_map_value .root, t.listedBy_spotsIn .root⟩, ?_⟩
  intro path s h nodes
  have hlisted : s.node.toTree.ListedBy s.place nodes := s.node.toTree.listedBy_spotsIn s.place
  have hmem : ∀ x, x ∈ nodes ↔ ∃ below, t.locate? (path ++ below) = some x := by
    intro x
    simp only [Tree.locate?_append h]
    exact hlisted.mem_iff x
  exact ⟨yields_of_toList_eq (toList_ofSpot s), s.node.toTree.spotsIn_map_value s.place, hmem, hlisted.nodup⟩

/-- The walk from the left child of a root, which holds the same as the two leaves below it, gives the left leaf, the
child, the right leaf, and then nothing. -/
theorem handsOut_spotsIn_left :
    let t : Tree Nat := .node 0 (.node 1 (.node 1 .empty .empty) (.node 1 .empty .empty)) (.node 2 .empty .empty)
    let s : Spot Nat := ⟨Place.root.left, ⟨1, .node 1 .empty .empty, .node 1 .empty .empty⟩⟩
    t.locate? [.left] = some s ∧
      (List.range 5).map (fun k => (Walk.call (Walk.after k (ofSpot s))).1.map fun x => x.place.path) =
        [some [.left, .left], some [.left], some [.left, .right], none, none] := by
  intro t s
  have hlocate : t.locate? [.left] = some s := rfl
  obtain ⟨⟨hcalls, -, -⟩, -⟩ := (handsOut_spotsIn t).2 [.left] s hlocate
  refine ⟨hlocate, ?_⟩
  simp only [hcalls _]
  rfl

end TreeWalk.Inorder
