import Mathlib.Data.List.Perm.Basic
import TreeWalk.Release
import TreeWalk.Proofs.Tree.Spots
import TreeWalk.Proofs.Walk.Owning

/-!
# What a release frees, and in which order

The loop that empties a slot meets the nodes of a tree in the order node, right subtree, left subtree, which is the
reverse of the post-order, and it releases each of them as a leaf. The account of a release is therefore known event
by event (`toList_emptyStackInto`, `toList_releaseSlotInto`, `toList_releaseInto`), and with it the values that are
freed (`values_release`, `values_releaseTree`, `values_releaseOwning`): they are those of what is released, each one
once (`values_release_perm`, `values_releaseTree_perm`, `values_releaseOwning_perm`). A call of the owning walk frees
nothing (`values_callAccount`).
-/

namespace TreeWalk

universe u

variable {α : Type u}

/-! ## The account of a release -/

/-- The account of the release of a leaf: its value, and two empty slots. -/
def Event.ofLeaf (a : α) : List (Event α) := [.freed (.leaf a), .opened, .closed, .opened, .closed]

/-- The account of the release of a slot: every node of the tree in it is released as a leaf. -/
def Event.ofSlot (t : Tree α) : List (Event α) := .opened :: (t.postorder.reverse.flatMap Event.ofLeaf ++ [.closed])

theorem releaseSlotInto_empty (account : Array (Event α)) :
    (Tree.empty : Tree α).releaseSlotInto account = (account.push .opened).push .closed := by
  rw [Tree.releaseSlotInto, Tree.root?_empty, Option.toList_none, emptyStackInto]

theorem toList_releaseInto_leaf (a : α) (account : Array (Event α)) :
    ((Node.leaf a).releaseInto account).toList = account.toList ++ Event.ofLeaf a := by
  unfold Node.releaseInto
  show ((Tree.empty.releaseSlotInto (Tree.empty.releaseSlotInto _)).toList = _)
  rw [releaseSlotInto_empty, releaseSlotInto_empty]
  simp [Event.ofLeaf]

/-- The roots of trees on a stack stand for the nodes of the trees. -/
theorem flatMap_root? (t : Tree α) (stack : List (Node α)) :
    (t.root?.toList ++ stack).flatMap (fun n => n.toTree.postorder.reverse) =
      t.postorder.reverse ++ stack.flatMap (fun n => n.toTree.postorder.reverse) := by
  cases t <;> rfl

/-- Every node of the trees on the stack is released as a leaf, the nodes of each tree in reverse post-order. -/
theorem toList_emptyStackInto (stack : List (Node α)) (account : Array (Event α)) :
    (emptyStackInto stack account).toList =
      account.toList ++ (stack.flatMap fun n => n.toTree.postorder.reverse).flatMap Event.ofLeaf := by
  -- what a node leaves on the stack has one node less, so the induction is on the number of nodes on the stack
  induction hload : Walk.load Node.size stack using Nat.strongRecOn generalizing stack account with
  | ind load ih =>
    cases stack with
    | nil =>
      rw [emptyStackInto]
      exact (List.append_nil _).symm
    | cons n stack =>
      have hload' : Walk.load Node.size (n.right.root?.toList ++ (n.left.root?.toList ++ stack)) < load := by
        rw [← hload, Walk.load_append, Walk.load_append, Owning.load_root?, Owning.load_root?, Walk.load_cons,
          Node.size]
        omega
      have hnode : n.toTree.postorder.reverse =
          n.value :: (n.right.postorder.reverse ++ n.left.postorder.reverse) := by
        rw [Node.toTree, Tree.postorder_node]
        simp only [List.reverse_append, List.reverse_cons, List.reverse_nil, List.nil_append, List.cons_append]
      rw [emptyStackInto, Node.detach, ih _ hload' _ _ rfl, toList_releaseInto_leaf, flatMap_root?, flatMap_root?,
        List.flatMap_cons, hnode]
      simp only [List.cons_append, List.flatMap_cons, List.append_assoc]

theorem toList_releaseSlotInto (t : Tree α) (account : Array (Event α)) :
    (t.releaseSlotInto account).toList = account.toList ++ Event.ofSlot t := by
  have hroot := flatMap_root? t []
  rw [List.append_nil, List.flatMap_nil, List.append_nil] at hroot
  unfold Tree.releaseSlotInto Event.ofSlot
  rw [Array.toList_push, toList_emptyStackInto, hroot, Array.toList_push]
  simp only [List.append_assoc, List.cons_append, List.nil_append]

theorem toList_releaseInto (n : Node α) (account : Array (Event α)) :
    (n.releaseInto account).toList =
      account.toList ++ .freed n :: (Event.ofSlot n.left ++ Event.ofSlot n.right) := by
  unfold Node.releaseInto
  rw [toList_releaseSlotInto, toList_releaseSlotInto, Array.toList_push]
  simp only [List.append_assoc, List.cons_append, List.nil_append]

/-! ## The values that are freed -/

namespace Event

@[simp] theorem values_append (xs ys : List (Event α)) : values (xs ++ ys) = values xs ++ values ys :=
  List.filterMap_append

theorem values_flatMap_ofLeaf (as : List α) : values (as.flatMap ofLeaf) = as := by
  induction as with
  | nil => rfl
  | cons a as ih =>
    rw [List.flatMap_cons, values_append, ih]
    rfl

theorem values_ofSlot (t : Tree α) : values (ofSlot t) = t.postorder.reverse := by
  have hlast : values ([.closed] : List (Event α)) = [] := rfl
  show values (t.postorder.reverse.flatMap ofLeaf ++ [.closed]) = _
  rw [values_append, values_flatMap_ofLeaf, hlast, List.append_nil]

end Event

/-- A node frees its own value first, then those on the left, then those on the right. -/
theorem values_releaseInto (n : Node α) (account : Array (Event α)) :
    Event.values (n.releaseInto account).toList =
      Event.values account.toList ++ n.value :: (n.left.postorder.reverse ++ n.right.postorder.reverse) := by
  have hfirst : Event.values (.freed n :: (Event.ofSlot n.left ++ Event.ofSlot n.right)) =
      n.value :: Event.values (Event.ofSlot n.left ++ Event.ofSlot n.right) := rfl
  rw [toList_releaseInto, Event.values_append, hfirst, Event.values_append, Event.values_ofSlot, Event.values_ofSlot]

theorem values_release (n : Node α) :
    Event.values n.release = n.value :: (n.left.postorder.reverse ++ n.right.postorder.reverse) :=
  values_releaseInto n #[]

theorem values_releaseTree (t : Tree α) :
    Event.values t.release = t.root?.toList.flatMap fun n => Event.values n.release := by
  cases t with
  | empty => rfl
  | node value left right => exact (List.append_nil _).symm

/-- The nodes that a walk still owns are released from the bottom of its stack to the top. -/
theorem Owning.release_eq (w : Owning α) : w.release = w.stack.reverse.flatMap Node.release := by
  have key : ∀ (nodes : List (Node α)) (account : Array (Event α)),
      (nodes.foldl (fun account n => n.releaseInto account) account).toList =
        account.toList ++ nodes.flatMap Node.release := by
    intro nodes
    induction nodes with
    | nil => exact fun account => (List.append_nil _).symm
    | cons n nodes ih =>
      intro account
      have hrelease : n.release = .freed n :: (Event.ofSlot n.left ++ Event.ofSlot n.right) := toList_releaseInto n #[]
      rw [List.foldl_cons, ih, toList_releaseInto, List.flatMap_cons, hrelease, List.append_assoc]
  exact key w.stack.reverse #[]

theorem values_releaseOwning (w : Owning α) :
    Event.values w.release = w.stack.reverse.flatMap fun n => Event.values n.release := by
  rw [w.release_eq]
  exact List.filterMap_flatMap ..

/-- A call of the owning walk frees nothing: the leaf that held the value has empty slots. -/
theorem values_callAccount (w : Owning α) : Event.values w.callAccount = [] := by
  obtain ⟨_ | ⟨n, stack⟩⟩ := w
  · rfl
  · show Event.values (Tree.empty.releaseSlotInto (Tree.empty.releaseSlotInto #[])).toList = []
    rw [releaseSlotInto_empty, releaseSlotInto_empty]
    rfl

/-! ## Every value is freed once -/

theorem values_release_perm (n : Node α) : (Event.values n.release).Perm n.toTree.preorder := by
  have hsides : ∀ t : Tree α, t.postorder.reverse.Perm t.preorder :=
    fun t => (List.reverse_perm _).trans t.postorder_perm
  rw [values_release, Node.toTree, Tree.preorder_node]
  exact ((hsides n.left).append (hsides n.right)).cons _

theorem values_releaseTree_perm (t : Tree α) : (Event.values t.release).Perm t.preorder := by
  rw [values_releaseTree]
  cases t with
  | empty => exact List.Perm.refl _
  | node value left right =>
    rw [Tree.root?_node, Option.toList_some, List.flatMap_singleton]
    exact values_release_perm ⟨value, left, right⟩

theorem values_releaseOwning_perm (w : Owning α) : (Event.values w.release).Perm w.values := by
  rw [values_releaseOwning]
  exact (List.reverse_perm w.stack).flatMap fun n _ => values_release_perm n

end TreeWalk
