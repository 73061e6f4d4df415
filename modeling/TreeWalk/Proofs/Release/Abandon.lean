import TreeWalk.Proofs.Release.Order
import TreeWalk.Proofs.Walk.Abreast

/-!
# Owning walks that are given up

A walk that owns a tree can be given up at any time. What it has handed out by then has left the tree without being
freed, and what is freed with it are the other values: the walk hands out its stack from the top to the bottom, and
frees it from the bottom to the top.

* `Owning.emptied?` : the node out of which the next call takes the value;
* `Owning.FreesNothing` : this node has no subtrees any more, so that no value is freed with it;
* `freedBelow` : the nodes of the subtrees on a stack, in the order in which their values are freed;
* `values_release_after` : what is freed with a walk over a tree in which every node holds something made of the node;
* `listedBy_freedBelow` : the nodes that the calls passed and those that are freed are the nodes of the tree.

After any number of calls (`abandoned_walk`) the answers were the first values in pre-order, and nothing once all of
them were handed out. A node out of which a call takes the value is a leaf by then, and all that is released with it
are two empty slots. Each subtree on the stack is released like a node, and further calls would hand out the same
subtrees from the top of the stack to the bottom. That every node is handed out or freed, and never both, is shown by
the same walk over the tree of places. A walk over a node is one over the tree below it.
-/

namespace TreeWalk

universe u v

variable {α : Type u} {β : Type v}

/-! ## One call -/

namespace Owning

/-- The node out of which the next call takes the value. -/
def emptied? (w : Owning α) : Option (Node α) := w.stack.head?.map fun n => n.detach.1

theorem isLeaf_emptied? (w : Owning α) : w.emptied?.all Node.isLeaf = true := by
  obtain ⟨_ | ⟨n, stack⟩⟩ := w <;> rfl

theorem call_fst_emptied? (w : Owning α) : (Walk.call w).1 = w.emptied?.map Node.value := by
  obtain ⟨_ | ⟨n, stack⟩⟩ := w <;> rfl

/-- A call releases the slots of the node out of which it takes the value. -/
theorem callAccount_eq (w : Owning α) :
    w.callAccount = w.emptied?.toList.flatMap fun n => n.left.releaseSlot ++ n.right.releaseSlot := by
  obtain ⟨_ | ⟨n, stack⟩⟩ := w
  · rfl
  · show (Tree.releaseSlotInto _ (Tree.releaseSlotInto _ #[])).toList = _
    rw [toList_releaseSlotInto, toList_releaseSlotInto, ← Tree.releaseSlot_eq, ← Tree.releaseSlot_eq]
    exact (List.append_nil _).symm

/-- The next call of the walk takes a value out of a leaf, and with this leaf it releases two slots that hold no
values. -/
structure FreesNothing (w : Owning α) : Prop where
  answer : (Walk.call w).1 = w.emptied?.map Node.value
  isLeaf : w.emptied?.all Node.isLeaf = true
  account : w.callAccount = w.emptied?.toList.flatMap fun n => n.left.releaseSlot ++ n.right.releaseSlot
  values : Event.values w.callAccount = []

theorem freesNothing (w : Owning α) : w.FreesNothing :=
  ⟨w.call_fst_emptied?, w.isLeaf_emptied?, w.callAccount_eq, values_callAccount w⟩

/-- The first calls hand out what the first nodes in pre-order hold. -/
theorem calls_relabel (g : Spot α → β) (t : Tree α) (k : Nat) :
    Walk.calls k (ofTree (t.relabel g .root)) =
      (((t.spotsPre .root).take (min k t.size)).map (fun s => some (g s)) ++ List.replicate (k - t.size) none,
        Walk.after k (ofTree (t.relabel g .root))) := by
  rw [Walk.calls_eq, toList_ofTree, t.preorder_relabel, List.length_map, t.length_spotsPre,
    List.take_eq_take_min, List.length_map, t.length_spotsPre, ← List.map_take, List.map_map]
  rfl

theorem calls_ofTree (t : Tree α) (k : Nat) :
    Walk.calls k (ofTree t) =
      ((t.preorder.take (min k t.size)).map some ++ List.replicate (k - t.size) none, Walk.after k (ofTree t)) := by
  have h := calls_relabel Spot.value t k
  rw [t.relabel_value] at h
  rw [h, ← t.spotsPre_map_value .root, ← List.map_take, List.map_map]
  rfl

end Owning

/-! ## The rest -/

/-- The nodes of the subtrees on a stack in the order in which their values are freed: the subtrees from the bottom of
the stack to the top, and each of them like a node. -/
def freedBelow (stack : List (Spot α)) : List (Spot α) := stack.reverse.flatMap Spot.freed

/-- What is freed is what would have been handed out. -/
theorem freedBelow_perm (stack : List (Spot α)) : (freedBelow stack).Perm (Preorder.pending stack) :=
  (List.reverse_perm stack).flatMap fun s _ => s.freed_perm

theorem values_release_after (g : Spot α → β) (t : Tree α) (k : Nat) :
    Event.values (Walk.after k (Owning.ofTree (t.relabel g .root))).release =
      (freedBelow (Walk.after k (Preorder.ofTree t)).stack).map g := by
  rw [values_releaseOwning, Owning.stack_after, ← List.map_reverse, List.flatMap_map, freedBelow, List.map_flatMap]
  exact List.flatMap_congr fun s _ => values_release_relabel g s

theorem take_append_freedBelow_perm (t : Tree α) (k : Nat) :
    ((t.spotsPre .root).take k ++ freedBelow (Walk.after k (Preorder.ofTree t)).stack).Perm (t.spotsPre .root) := by
  have hrest := freedBelow_perm (Walk.after k (Preorder.ofTree t)).stack
  rw [Preorder.pending_after] at hrest
  exact (hrest.append_left _).trans (List.Perm.of_eq (List.take_append_drop k _))

theorem listedBy_freedBelow (t : Tree α) (k : Nat) :
    t.ListedBy .root ((t.spotsPre .root).take k ++ freedBelow (Walk.after k (Preorder.ofTree t)).stack) :=
  (t.listedBy_spotsPre .root).perm (take_append_freedBelow_perm t k)

/-- **Giving up a walk that owns a tree.** Any number of calls hand out the first values in pre-order and free none.
What is released with the walk are the subtrees on its stack, from the bottom to the top. So every node is handed out
or freed, once and never both. -/
theorem abandoned_walk (t : Tree α) (n : Node α) (k : Nat) :
    let places := t.relabel Spot.place .root
    let w := Walk.after k (Owning.ofTree t)
    let nodes := t.spotsPre .root
    let subtrees := (Walk.after k (Preorder.ofTree t)).stack
    let freed := freedBelow subtrees
    (Walk.calls k (Owning.ofTree t) =
        ((t.preorder.take (min k t.size)).map some ++ List.replicate (k - t.size) none, w) ∧
      (Walk.calls k (Owning.ofTree places)).1 =
        (nodes.take (min k t.size)).map (fun s => some s.place) ++ List.replicate (k - t.size) none) ∧
    (∀ j, (Walk.after j (Owning.ofTree t)).FreesNothing) ∧
    (w.stack = subtrees.map Spot.node ∧ subtrees.map (fun s => t.locate? s.place.path) = subtrees.map some ∧
      Walk.toList w = w.stack.flatMap (·.toTree.preorder) ∧ w.release = w.stack.reverse.flatMap Node.release) ∧
    (Event.values w.release = freed.map Spot.value ∧
      Event.values (Walk.after k (Owning.ofTree places)).release = freed.map Spot.place ∧
      (Event.values w.release).length = t.size - min k t.size) ∧
    (t.ListedBy .root (nodes.take k ++ freed) ∧
      (t.preorder.take (min k t.size) ++ Event.values w.release).Perm t.preorder) ∧
    Owning.ofNode n = Owning.ofTree n.toTree := by
  intro places w nodes subtrees freed
  have hplaced : (Walk.calls k (Owning.ofTree places)).1 =
      (nodes.take (min k t.size)).map (fun s => some s.place) ++ List.replicate (k - t.size) none :=
    congrArg Prod.fst (Owning.calls_relabel Spot.place t k)
  have hvalues : Event.values w.release = freed.map Spot.value := by
    have h := values_release_after Spot.value t k
    rwa [t.relabel_value] at h
  have hperm : (t.preorder.take (min k t.size) ++ Event.values w.release).Perm t.preorder := by
    rw [← t.length_preorder, ← List.take_eq_take_min, hvalues, ← t.spotsPre_map_value .root, ← List.map_take,
      ← List.map_append]
    exact (take_append_freedBelow_perm t k).map Spot.value
  have hlength : (Event.values w.release).length = t.size - min k t.size := by
    have h := hperm.length_eq
    rw [List.length_append, List.length_take, t.length_preorder] at h
    omega
  exact ⟨⟨Owning.calls_ofTree t k, hplaced⟩,
    fun j => (Walk.after j (Owning.ofTree t)).freesNothing,
    ⟨Owning.stack_after_ofTree t k, Preorder.map_locate?_after k t, Owning.toList_eq_values w, w.release_eq⟩,
    ⟨hvalues, values_release_after Spot.place t k, hlength⟩,
    ⟨listedBy_freedBelow t k, hperm⟩, rfl⟩

end TreeWalk
