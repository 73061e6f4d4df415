import TreeWalk.Proofs.Walk.Ordered

/-!
# When a walk comes to a node

A walk over a tree answers every node at one of its calls. What it answers around this call, before the nodes below the
node are done, is what a walk from the node itself answers.

* `Walk.rank` : the number of calls before the one that answers a node. Among nodes at different places only this call
  answers it (`Walk.call_eq_some_iff`);
* `Tree.answered_at_rank` : so it is for the three walks over a tree;
* `Spot.before`, `Spot.after` : the nodes below a node that come before it in an order, and after it;
* `Tree.exists_split` : in every order, the nodes below a node come in one run with the node among them;
* `Walk.IsSliceOf` : a walk hands out what another one hands out in some of its calls. The walk from a node is such a
  slice of the walk over the tree (`Walk.exists_isSliceOf`), and the rank of the node says where it begins;
* `subtree_slices` : the slices of the three walks from a node. For the in-order walk, the calls begin as many before
  the rank of the node as there are nodes on its left. After them the walk from the node ends. The answers are nodes
  at their places in the tree, so nodes that look alike are not confused.
-/

namespace TreeWalk

universe u v

variable {α : Type u}

/-! ## The run of the nodes below a node -/

namespace Tree

theorem length_spots (t : Tree α) (p : Place) (order : Order) : (t.spots p order).length = t.size := by
  cases order with
  | preorder => exact t.length_spotsPre p
  | inorder => rw [spots, (t.spotsIn_perm p).length_eq, length_spotsPre]
  | postorder => exact t.length_spotsPost p

theorem spots_infix {p : Place} {t : Tree α} {path : List Side} {x : Spot α} (h : t.locateFrom? p path = some x)
    (order : Order) : x.node.toTree.spots x.place order <:+: t.spots p order := by
  cases order with
  | preorder => exact spotsPre_infix h
  | inorder => exact spotsIn_infix h
  | postorder => exact spotsPost_infix h

end Tree

namespace Spot

/-- The nodes below a node that come before it. -/
def before (s : Spot α) : Order → List (Spot α)
  | .preorder => []
  | .inorder => s.node.left.spotsIn s.place.left
  | .postorder => s.node.left.spotsPost s.place.left ++ s.node.right.spotsPost s.place.right

/-- The nodes below a node that come after it. -/
def after (s : Spot α) : Order → List (Spot α)
  | .preorder => s.node.left.spotsPre s.place.left ++ s.node.right.spotsPre s.place.right
  | .inorder => s.node.right.spotsIn s.place.right
  | .postorder => []

theorem spots_eq (s : Spot α) (order : Order) :
    s.node.toTree.spots s.place order = s.before order ++ s :: s.after order := by
  cases order with
  | preorder => rfl
  | inorder => rfl
  | postorder => exact (List.append_assoc ..).symm

theorem length_before_inorder (s : Spot α) : (s.before .inorder).length = s.node.left.size :=
  s.node.left.length_spots s.place.left .inorder

/-- In post-order a node is the last one of all below it. -/
theorem length_before_postorder (s : Spot α) : (s.before .postorder).length + 1 = s.size := by
  have hlength := s.node.toTree.length_spots s.place .postorder
  rw [s.spots_eq, List.length_append, List.length_cons] at hlength
  exact hlength

end Spot

/-- In every order, the nodes below the node `x` come in one run with this node among them. -/
theorem Tree.exists_split {p : Place} {t : Tree α} {path : List Side} {x : Spot α}
    (h : t.locateFrom? p path = some x) (order : Order) :
    ∃ front back, t.spots p order = front ++ ((x.before order ++ x :: x.after order) ++ back) := by
  obtain ⟨front, back, hsplit⟩ := spots_infix h order
  rw [x.spots_eq, List.append_assoc] at hsplit
  exact ⟨front, back, hsplit.symm⟩

/-! ## The calls that answer a node -/

namespace Walk

variable {σ τ : Type v} [Walk σ (Spot α)] [Walk τ (Spot α)]

/-- The number of calls before the one that answers the node `x`. -/
def rank (w : σ) (x : Spot α) : Nat := ((toList w).map Spot.place).idxOf x.place

/-- The walk `w` hands out what the walk `outer` hands out in `length` calls after the first `start` ones, and then
nothing for ever. -/
structure IsSliceOf (w : σ) (outer : τ) (start length : Nat) : Prop where
  within : start + length ≤ count outer
  handsOut : HandsOut w (((toList outer).drop start).take length)

variable {w : σ} {outer : τ} {t : Tree α} {order : Order} {path : List Side} {x : Spot α}

theorem rank_of_getElem? (hnodup : ((toList w).map Spot.place).Nodup) {k : Nat} (h : (toList w)[k]? = some x) :
    rank w x = k := by
  obtain ⟨hk, rfl⟩ := List.getElem?_eq_some_iff.1 h
  have hplace := hnodup.idxOf_getElem k (by rwa [List.length_map])
  rwa [List.getElem_map] at hplace

theorem nodup_toList (hlist : toList w = t.spots .root order) : ((toList w).map Spot.place).Nodup := by
  rw [hlist]
  exact (t.listedBy_spots .root order).nodup

/-- A walk over the nodes of a tree answers each of them at one call. -/
theorem call_eq_some_iff (hlist : toList w = t.spots .root order) (h : t.locate? path = some x) (k : Nat) :
    (call (after k w)).1 = some x ↔ k = rank w x := by
  have hmem : x ∈ toList w := by
    rw [hlist]
    exact ((t.listedBy_spots .root order).mem_iff x).2 ⟨path, h⟩
  obtain ⟨i, hi⟩ := List.mem_iff_getElem?.1 hmem
  rw [handsOut_toList]
  constructor
  · exact fun hk => (rank_of_getElem? (nodup_toList hlist) hk).symm
  · rintro rfl
    rwa [rank_of_getElem? (nodup_toList hlist) hi]

/-- A walk from a node hands out what the walk over the tree hands out around this node, from the first node below it
in this order on. -/
theorem exists_isSliceOf (hlist : toList w = x.node.toTree.spots x.place order)
    (houter : toList outer = t.spots .root order) (h : t.locate? path = some x) :
    ∃ start, start + (x.before order).length = rank outer x ∧ IsSliceOf w outer start x.size := by
  obtain ⟨front, back, hsplit⟩ := Tree.exists_split h order
  have hlength : (toList w).length = x.size := by
    rw [hlist, Tree.length_spots]
    exact x.node.size_toTree
  rw [← houter] at hsplit
  rw [x.spots_eq] at hlist
  have hrank : (toList outer)[front.length + (x.before order).length]? = some x := by
    rw [hsplit, List.getElem?_append_right (Nat.le_add_right _ _), Nat.add_sub_cancel_left, List.append_assoc,
      List.getElem?_append_right (Nat.le_refl _), Nat.sub_self]
    rfl
  have hslice : ((toList outer).drop front.length).take x.size = toList w := by
    rw [hsplit, ← hlist, List.drop_left, ← hlength, List.take_left]
  refine ⟨front.length, (rank_of_getElem? (nodup_toList houter) hrank).symm, ?_, ?_⟩
  · rw [count_eq, hsplit, ← hlist, List.length_append, List.length_append, hlength]
    omega
  · rw [hslice]
    exact handsOut_toList w

end Walk

/-! ## The three walks over a tree -/

theorem Preorder.toList_eq_spots (t : Tree α) : Walk.toList (ofTree t) = t.spots .root .preorder := toList_ofTree t

theorem Inorder.toList_eq_spots (t : Tree α) : Walk.toList (ofTree t) = t.spots .root .inorder := toList_ofTree t

theorem Postorder.toList_eq_spots (t : Tree α) : Walk.toList (ofTree t) = t.spots .root .postorder := toList_ofTree t

theorem Tree.answered_at_rank {t : Tree α} {path : List Side} {x : Spot α} (h : t.locate? path = some x) (k : Nat) :
    ((Walk.call (Walk.after k (Preorder.ofTree t))).1 = some x ↔ k = Walk.rank (Preorder.ofTree t) x) ∧
      ((Walk.call (Walk.after k (Inorder.ofTree t))).1 = some x ↔ k = Walk.rank (Inorder.ofTree t) x) ∧
      ((Walk.call (Walk.after k (Postorder.ofTree t))).1 = some x ↔ k = Walk.rank (Postorder.ofTree t) x) :=
  ⟨Walk.call_eq_some_iff (Preorder.toList_eq_spots t) h k, Walk.call_eq_some_iff (Inorder.toList_eq_spots t) h k,
    Walk.call_eq_some_iff (Postorder.toList_eq_spots t) h k⟩

/-- **Walks from a node are slices of the walks over the tree.** The walks from `x` hand out what the walks over the
tree do in as many calls as there are nodes below `x`, itself included. In pre-order these begin with the call that
answers `x`, in post-order they end with it. -/
theorem subtree_slices {t : Tree α} {path : List Side} {x : Spot α} (h : t.locate? path = some x) :
    let pre := Walk.rank (Preorder.ofTree t) x
    let inn := Walk.rank (Inorder.ofTree t) x
    let post := Walk.rank (Postorder.ofTree t) x
    (∀ k, ((Walk.call (Walk.after k (Preorder.ofTree t))).1 = some x ↔ k = pre) ∧
      ((Walk.call (Walk.after k (Inorder.ofTree t))).1 = some x ↔ k = inn) ∧
      ((Walk.call (Walk.after k (Postorder.ofTree t))).1 = some x ↔ k = post)) ∧
    Walk.IsSliceOf (Preorder.ofSpot x) (Preorder.ofTree t) pre x.size ∧
    (∃ start, start + x.node.left.size = inn ∧
      Walk.IsSliceOf (Inorder.ofSpot x) (Inorder.ofTree t) start x.size) ∧
    (∃ start, start + x.size = post + 1 ∧
      Walk.IsSliceOf (Postorder.ofSpot x) (Postorder.ofTree t) start x.size) := by
  intro pre inn post
  have hpreSpot : Walk.toList (Preorder.ofSpot x) = x.node.toTree.spots x.place .preorder := Preorder.toList_ofSpot x
  have hinSpot : Walk.toList (Inorder.ofSpot x) = x.node.toTree.spots x.place .inorder := Inorder.toList_ofSpot x
  have hpostSpot : Walk.toList (Postorder.ofSpot x) = x.node.toTree.spots x.place .postorder :=
    Postorder.toList_ofSpot x
  obtain ⟨startPre, hstartPre, hpre⟩ := Walk.exists_isSliceOf hpreSpot (Preorder.toList_eq_spots t) h
  obtain ⟨startIn, hstartIn, hin⟩ := Walk.exists_isSliceOf hinSpot (Inorder.toList_eq_spots t) h
  obtain ⟨startPost, hstartPost, hpost⟩ := Walk.exists_isSliceOf hpostSpot (Postorder.toList_eq_spots t) h
  -- in pre-order no node below `x` comes before it
  obtain rfl : startPre = pre := hstartPre
  refine ⟨Tree.answered_at_rank h, hpre, ⟨startIn, ?_, hin⟩, startPost, ?_, hpost⟩
  · rw [← x.length_before_inorder, hstartIn]
  · rw [← x.length_before_postorder, ← Nat.add_assoc, hstartPost]

/-- The right child of a root, above two leaves that hold the same as it does. -/
theorem subtree_slices_right :
    let t : Tree Nat := .node 0 (.node 2 .empty .empty) (.node 1 (.node 1 .empty .empty) (.node 1 .empty .empty))
    let x : Spot Nat := ⟨Place.root.right, ⟨1, .node 1 .empty .empty, .node 1 .empty .empty⟩⟩
    t.locate? [.right] = some x ∧
      Walk.IsSliceOf (Preorder.ofSpot x) (Preorder.ofTree t) 2 3 ∧
      Walk.IsSliceOf (Inorder.ofSpot x) (Inorder.ofTree t) 2 3 ∧
      Walk.IsSliceOf (Postorder.ofSpot x) (Postorder.ofTree t) 1 3 := by
  intro t x
  have hlocate : t.locate? [.right] = some x := rfl
  obtain ⟨-, hpre, ⟨startIn, hstartIn, hin⟩, startPost, hstartPost, hpost⟩ := subtree_slices hlocate
  have hpreRank : Walk.rank (Preorder.ofTree t) x = 2 := by
    rw [Walk.rank, Preorder.toList_ofTree]
    decide
  have hinRank : Walk.rank (Inorder.ofTree t) x = 3 := by
    rw [Walk.rank, Inorder.toList_ofTree]
    decide
  have hpostRank : Walk.rank (Postorder.ofTree t) x = 3 := by
    rw [Walk.rank, Postorder.toList_ofTree]
    decide
  obtain rfl : startIn = 2 := Nat.add_right_cancel (hstartIn.trans hinRank)
  obtain rfl : startPost = 1 := Nat.add_right_cancel (hstartPost.trans (congrArg (· + 1) hpostRank))
  rw [hpreRank] at hpre
  exact ⟨hlocate, hpre, hin, hpost⟩

end TreeWalk
