import TreeWalk.Proofs.Copy
import TreeWalk.Proofs.Release

/-!
# The order in which a release frees values

A node frees its own value first, then those on the left, then those on the right. Inside each of the two slots the
order is node, right subtree, left subtree, which is the post-order read backwards: so whatever lies in a slot is freed
in the reverse of the order in which it is copied.

* `Tree.spotsFreed`, `Spot.freed` : the nodes of a slot, and those of a node with all below it, in the order in which
  their values are freed. What is freed is read off them whatever the nodes hold (`values_release_relabel`), so it is
  known by the nodes and not only by the values;
* `Tree.releaseSlot` : the account of the release of one slot;
* `Spot.FreedAgainst` : how the slot that holds a node is emptied in the course of a release;
* `freed_in_order` : the nodes whose values are freed are the nodes of the tree, each of them once. Nodes that hold
  their places give these up in the same order. A tree is released as its root is, and a slot at any depth is emptied
  against the post-order of its content.
-/

namespace TreeWalk

universe u v

section Nodes

variable {α : Type u} {β : Type v}

/-! ## The nodes in the order of the release -/

/-- The nodes in the order node, right subtree, left subtree, where the tree lies at the place `p`. -/
def Tree.spotsFreed (p : Place) : Tree α → List (Spot α)
  | empty => []
  | node value left right =>
      ⟨p, ⟨value, left, right⟩⟩ :: (right.spotsFreed p.right ++ left.spotsFreed p.left)

theorem Tree.spotsFreed_eq (p : Place) (t : Tree α) : t.spotsFreed p = (t.spotsPost p).reverse := by
  induction t generalizing p with
  | empty => rfl
  | node value left right ihLeft ihRight =>
    rw [spotsFreed, ihLeft, ihRight, spotsPost, List.reverse_append, List.reverse_append, List.reverse_singleton,
      List.append_assoc, List.singleton_append]

/-- The nodes in the order in which the release of a node frees their values. -/
def Spot.freed (s : Spot α) : List (Spot α) :=
  s :: (s.node.left.spotsFreed s.place.left ++ s.node.right.spotsFreed s.place.right)

theorem Spot.freed_perm (s : Spot α) : s.freed.Perm (s.node.toTree.spotsPre s.place) := by
  have hside : ∀ p (t : Tree α), (t.spotsFreed p).Perm (t.spotsPre p) := by
    intro p t
    rw [t.spotsFreed_eq]
    exact (List.reverse_perm _).trans (t.spotsPost_perm p)
  exact ((hside _ _).append (hside _ _)).cons s

theorem Spot.listedBy_freed (s : Spot α) : s.node.toTree.ListedBy s.place s.freed :=
  (Tree.listedBy_spotsPre s.place s.node.toTree).perm s.freed_perm

/-- Whatever the nodes hold, it is freed in this order. -/
theorem values_release_relabel (g : Spot α → β) (s : Spot α) :
    Event.values (s.relabel g).release = s.freed.map g := by
  have hside : ∀ p (t : Tree α), (t.relabel g p).postorder.reverse = (t.spotsFreed p).map g := by
    intro p t
    rw [t.postorder_relabel, t.spotsFreed_eq, List.map_reverse]
  rw [values_release, Spot.relabel, hside, hside, Spot.freed, List.map_cons, List.map_append]

theorem values_release_spot (s : Spot α) : Event.values s.node.release = s.freed.map Spot.value := by
  rw [← values_release_relabel, s.relabel_value]

/-! ## The release of a slot -/

/-- The account of the release of a slot with the given content. -/
def Tree.releaseSlot (t : Tree α) : List (Event α) := (t.releaseSlotInto #[]).toList

theorem Tree.releaseSlot_eq (t : Tree α) : t.releaseSlot = Event.ofSlot t := toList_releaseSlotInto t #[]

theorem Node.release_eq (n : Node α) : n.release = .freed n :: (n.left.releaseSlot ++ n.right.releaseSlot) := by
  rw [n.left.releaseSlot_eq, n.right.releaseSlot_eq]
  exact toList_releaseInto n #[]

theorem Tree.values_releaseSlot (t : Tree α) : Event.values t.releaseSlot = t.postorder.reverse := by
  rw [t.releaseSlot_eq, Event.values_ofSlot]

theorem Tree.values_releaseSlot_spots (p : Place) (t : Tree α) :
    Event.values t.releaseSlot = (t.spotsFreed p).map Spot.value := by
  rw [t.values_releaseSlot, t.spotsFreed_eq, List.map_reverse, t.spotsPost_map_value]

/-- What lies in a slot is freed in one run. -/
theorem Spot.freed_infix (s : Spot α) {side : Side} {path : List Side} {child : Spot α}
    (h : s.node.toTree.locateFrom? s.place (side :: path) = some child) :
    (child.node.toTree.spotsPost child.place).reverse <:+: s.freed := by
  have hside : ∀ {p} {t : Tree α}, t.locateFrom? p path = some child →
      (child.node.toTree.spotsPost child.place).reverse <:+: t.spotsFreed p := by
    intro p t hchild
    rw [t.spotsFreed_eq, List.reverse_infix]
    exact Tree.spotsPost_infix hchild
  unfold Spot.freed
  refine List.IsInfix.trans ?_ (List.suffix_cons s _).isInfix
  cases side with
  | left => exact (hside ((Tree.locateFrom?_left ..).symm.trans h)).trans (List.prefix_append _ _).isInfix
  | right => exact (hside ((Tree.locateFrom?_right ..).symm.trans h)).trans (List.suffix_append _ _).isInfix

end Nodes

/-! ## Freed against the order of copying -/

variable {α β σ : Type u}

/-- The values of a node are copied in post-order. -/
theorem Node.args_copy (f : α → StateM σ β) (n : Node α) (st : σ) :
    (n.copy (recording f) (st, [])).2.2.map Prod.fst = n.toTree.postorder := by
  have hcalls : (n.copy (recording f) (st, [])).2.2 = (n.toTree.visitPost (recording f) (st, [])).2.2 :=
    congrArg (fun r => r.2.2) (n.copy_eq (recording f) (st, []))
  rw [hcalls, n.toTree.visitPost_recording, List.nil_append]
  exact List.map_fst_zip (Nat.le_of_eq (n.toTree.length_postorder_visitPost f st))

/-- In a release that frees the nodes in the given order, the slot that holds the child frees the child and all below
it in one run, in the reverse of the order in which the post-order walk hands them out, and in which `f` is called to
copy their values. -/
structure Spot.FreedAgainst (f : α → StateM σ β) (st : σ) (order : List (Spot α)) (child : Spot α) : Prop where
  inOneRun : (Walk.toList (Postorder.ofSpot child)).reverse <:+: order
  walked : Event.values child.node.toTree.releaseSlot = ((Walk.toList (Postorder.ofSpot child)).map Spot.value).reverse
  copied : Event.values child.node.toTree.releaseSlot =
    ((child.node.copy (recording f) (st, [])).2.2.map Prod.fst).reverse

theorem Spot.freedAgainst (f : α → StateM σ β) (st : σ) (s : Spot α) {side : Side} {path : List Side} {child : Spot α}
    (h : s.node.toTree.locateFrom? s.place (side :: path) = some child) : child.FreedAgainst f st s.freed where
  inOneRun := by
    rw [Postorder.toList_ofSpot]
    exact s.freed_infix h
  walked := by rw [Postorder.toList_ofSpot, Tree.spotsPost_map_value, Tree.values_releaseSlot]
  copied := by rw [Node.args_copy, Tree.values_releaseSlot]

/-- **The order of a release.** A node frees its own value, then empties its left slot, then its right one, and every
slot below it is emptied in the reverse of the order in which its content is walked in post-order and copied. So every
value is freed once. -/
theorem freed_in_order (f : α → StateM σ β) (st : σ) (n : Node α) (t : Tree α) :
    let root : Spot α := ⟨.root, n⟩
    (n.release = .freed n :: (n.left.releaseSlot ++ n.right.releaseSlot) ∧
      Event.values n.left.releaseSlot = (n.left.spotsFreed Place.root.left).map Spot.value ∧
      Event.values n.right.releaseSlot = (n.right.spotsFreed Place.root.right).map Spot.value) ∧
    (Event.values n.release = root.freed.map Spot.value ∧
      Event.values (root.relabel Spot.place).release = root.freed.map Spot.place ∧
      n.toTree.ListedBy .root root.freed) ∧
    t.release = t.root?.elim [] Node.release ∧
    ∀ path child, path ≠ [] → n.toTree.locate? path = some child → child.FreedAgainst f st root.freed := by
  intro root
  have hslots : n.release = .freed n :: (n.left.releaseSlot ++ n.right.releaseSlot) ∧
      Event.values n.left.releaseSlot = (n.left.spotsFreed Place.root.left).map Spot.value ∧
      Event.values n.right.releaseSlot = (n.right.spotsFreed Place.root.right).map Spot.value :=
    ⟨n.release_eq, n.left.values_releaseSlot_spots _, n.right.values_releaseSlot_spots _⟩
  have htree : t.release = t.root?.elim [] Node.release := by cases t <;> rfl
  refine ⟨hslots, ⟨values_release_spot root, values_release_relabel Spot.place root, root.listedBy_freed⟩, htree, ?_⟩
  intro path child hpath hchild
  cases path with
  | nil => exact absurd rfl hpath
  | cons side path => exact root.freedAgainst f st hchild

/-- The left child of the root, with a leaf on either side of it, is freed before its right child, and that before its
left child. -/
theorem freed_in_order_left :
    let n : Node Nat := ⟨1, .node 2 (.node 4 .empty .empty) (.node 5 .empty .empty), .node 3 .empty .empty⟩
    let child : Spot Nat := ⟨Place.root.left, ⟨2, .node 4 .empty .empty, .node 5 .empty .empty⟩⟩
    [Side.left] ≠ [] ∧ n.toTree.locate? [.left] = some child ∧
      Event.values child.node.toTree.releaseSlot =
        ((child.node.copy (recording fun a => (pure (a + 1) : StateM Nat Nat)) (0, [])).2.2.map Prod.fst).reverse ∧
      Event.values n.release = [1, 2, 5, 4, 3] := by
  intro n child
  have hpath : [Side.left] ≠ [] := by decide
  obtain ⟨-, ⟨hvalues, -, -⟩, -, hslots⟩ := freed_in_order (fun a => (pure (a + 1) : StateM Nat Nat)) 0 n n.toTree
  exact ⟨hpath, rfl, (hslots [.left] child hpath rfl).copied, hvalues.trans (by decide)⟩

end TreeWalk
