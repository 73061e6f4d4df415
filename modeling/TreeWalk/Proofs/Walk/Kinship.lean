import TreeWalk.Proofs.Walk.Ranks

/-!
# Kinship and the three orders

Of two different nodes of a tree, one lies below the other, or they lie on the two sides of a common ancestor
(`Tree.kin`). In each of these cases every order has the two in one sequence: an ancestor comes first in pre-order and
last in post-order, in-order puts it between its two sides, and what lies on the left comes before what lies on the
right in all of them. So the ranks that the walks give to two nodes tell how the nodes are akin.

* `Spot.Below`, `Spot.IsAbove` : a node lies below another one, on one of its sides;
* `Tree.Apart` : two nodes lie on the two sides of a common ancestor, the first one on the left;
* `Tree.Kin` : the five ways in which two nodes can be akin;
* `Spot.pair_sublist_of_mem_before`, `Tree.Apart.pair_sublist` : in which sequence an order has two nodes, read off the
  run of the nodes below one of them or below their common ancestor;
* `Walk.rank_lt_of_pair_sublist` : a walk gives them their ranks in the same sequence.

Conversely the ranks tell the kinship (`kin_of_ranks`), since each of the three walks answers a node at the call that
the rank of the node says, and at no other. Below an ancestor, a node lies on the left if and only if it comes before
the ancestor in in-order.
-/

namespace TreeWalk

open scoped List

universe u v

variable {α : Type u}

/-! ## Two nodes of a tree -/

/-- The node `x` lies below the node `c`, on the given side of it. -/
def Spot.Below (c : Spot α) (side : Side) (x : Spot α) : Prop := ∃ path, c.follow? (side :: path) = some x

/-- The node `a` is a proper ancestor of the node `b`. -/
def Spot.IsAbove (a b : Spot α) : Prop := ∃ side, a.Below side b

/-- The nodes `a` and `b` lie on the left and on the right of a common ancestor in the tree. -/
def Tree.Apart (t : Tree α) (a b : Spot α) : Prop :=
  ∃ path c, t.locate? path = some c ∧ c.Below .left a ∧ c.Below .right b

/-- How two nodes of a tree are akin. -/
inductive Tree.Kin (t : Tree α) (a b : Spot α) : Prop where
  | same (h : a = b)
  | above (h : a.IsAbove b)
  | below (h : b.IsAbove a)
  | left (h : t.Apart a b)
  | right (h : t.Apart b a)

/-- The ways from a node of the tree to two others are followed as long as they are the same. -/
theorem Tree.kin_of_follow? {t : Tree α} {stem p q : List Side} {s a b : Spot α} (hs : t.locate? stem = some s)
    (ha : s.follow? p = some a) (hb : s.follow? q = some b) : t.Kin a b := by
  induction p generalizing stem s q with
  | nil =>
    obtain rfl : s = a := Option.some.inj ha
    cases q with
    | nil => exact .same (Option.some.inj hb)
    | cons side q => exact .above ⟨side, q, hb⟩
  | cons side p ih =>
    cases q with
    | nil =>
      obtain rfl : s = b := Option.some.inj hb
      exact .below ⟨side, p, ha⟩
    | cons side' q =>
      by_cases hside : side = side'
      · -- both ways go on from the same child
        subst hside
        rw [follow?_cons, Option.bind_eq_some_iff] at ha hb
        obtain ⟨d, hd, hda⟩ := ha
        obtain ⟨d', hd', hdb⟩ := hb
        obtain rfl : d = d' := Option.some.inj (hd.symm.trans hd')
        exact ih ((locate?_concat hs side).trans hd) hda hdb
      · -- the ways part at `s`
        cases side with
        | left =>
          cases side' with
          | left => exact absurd rfl hside
          | right => exact .left ⟨stem, s, hs, ⟨p, ha⟩, ⟨q, hb⟩⟩
        | right =>
          cases side' with
          | left => exact .right ⟨stem, s, hs, ⟨q, hb⟩, ⟨p, ha⟩⟩
          | right => exact absurd rfl hside

theorem Tree.kin {t : Tree α} {p q : List Side} {a b : Spot α} (ha : t.locate? p = some a)
    (hb : t.locate? q = some b) : t.Kin a b := by
  obtain ⟨root, hroot, hfollow⟩ := Option.bind_eq_some_iff.1 ha
  obtain ⟨root', hroot', hfollow'⟩ := Option.bind_eq_some_iff.1 hb
  obtain rfl : root = root' := Option.some.inj (hroot.symm.trans hroot')
  have hnil : t.locate? [] = some root := Option.bind_eq_some_iff.2 ⟨root, hroot, rfl⟩
  exact kin_of_follow? hnil hfollow hfollow'

/-! ## The sequence in an order -/

namespace Spot

variable {c x : Spot α}

theorem Below.mem_left (h : c.Below .left x) (order : Order) : x ∈ c.node.left.spots c.place.left order := by
  obtain ⟨path, hpath⟩ := h
  rw [Tree.follow?_cons] at hpath
  exact ((c.node.left.listedBy_spots c.place.left order).mem_iff x).2 ⟨path, hpath⟩

theorem Below.mem_right (h : c.Below .right x) (order : Order) : x ∈ c.node.right.spots c.place.right order := by
  obtain ⟨path, hpath⟩ := h
  rw [Tree.follow?_cons] at hpath
  exact ((c.node.right.listedBy_spots c.place.right order).mem_iff x).2 ⟨path, hpath⟩

theorem IsAbove.mem_after_preorder (h : c.IsAbove x) : x ∈ c.after .preorder := by
  obtain ⟨_ | _, h⟩ := h
  · exact List.mem_append_left _ (h.mem_left .preorder)
  · exact List.mem_append_right _ (h.mem_right .preorder)

theorem IsAbove.mem_before_postorder (h : c.IsAbove x) : x ∈ c.before .postorder := by
  obtain ⟨_ | _, h⟩ := h
  · exact List.mem_append_left _ (h.mem_left .postorder)
  · exact List.mem_append_right _ (h.mem_right .postorder)

/-- A node lies deeper than its ancestors. -/
theorem IsAbove.depth_lt (h : c.IsAbove x) : c.place.depth < x.place.depth := by
  obtain ⟨side, path, hpath⟩ := h
  have hsteps : x.place.steps = (side :: path).reverse ++ c.place.steps :=
    Tree.locateFrom?_place (t := c.node.toTree) hpath
  rw [c.place.depth_eq, x.place.depth_eq, hsteps, List.length_append, List.length_reverse, List.length_cons]
  omega

/-- There is less below a node than below its ancestors. -/
theorem IsAbove.size_lt (h : c.IsAbove x) : x.size < c.size := by
  have hbelow : ∀ {p : Place} {t : Tree α} {path : List Side}, t.locateFrom? p path = some x → x.size ≤ t.size := by
    intro p t path hpath
    have hlength := (Tree.spotsPre_infix hpath).length_le
    rw [Tree.length_spotsPre, Tree.length_spotsPre] at hlength
    exact hlength
  have hsize : c.size = 1 + c.node.left.size + c.node.right.size := rfl
  obtain ⟨_ | _, path, hpath⟩ := h
  · have hleft : x.size ≤ c.node.left.size := hbelow ((Tree.locateFrom?_left ..).symm.trans hpath)
    omega
  · have hright : x.size ≤ c.node.right.size := hbelow ((Tree.locateFrom?_right ..).symm.trans hpath)
    omega

variable {t : Tree α} {path : List Side} {order : Order}

theorem pair_sublist_of_mem_before (hc : t.locate? path = some c) (h : x ∈ c.before order) :
    [x, c] <+ t.spots .root order := by
  have hrun : [x] ++ [c] <+ c.before order ++ c :: c.after order :=
    (List.singleton_sublist.2 h).append (List.singleton_sublist.2 List.mem_cons_self)
  rw [← c.spots_eq] at hrun
  exact hrun.trans (Tree.spots_infix hc order).sublist

theorem pair_sublist_of_mem_after (hc : t.locate? path = some c) (h : x ∈ c.after order) :
    [c, x] <+ t.spots .root order := by
  have hrun : [c, x] <+ c.before order ++ c :: c.after order :=
    ((List.singleton_sublist.2 h).cons_cons c).trans (List.sublist_append_right _ _)
  rw [← c.spots_eq] at hrun
  exact hrun.trans (Tree.spots_infix hc order).sublist

end Spot

/-- Every order has what lies on the left of a node before what lies on its right. -/
theorem Tree.Apart.pair_sublist {t : Tree α} {a b : Spot α} (h : t.Apart a b) (order : Order) :
    [a, b] <+ t.spots .root order := by
  obtain ⟨path, c, hc, ha, hb⟩ := h
  have hsides : [a] ++ [b] <+ c.node.left.spots c.place.left order ++ c.node.right.spots c.place.right order :=
    (List.singleton_sublist.2 (ha.mem_left order)).append (List.singleton_sublist.2 (hb.mem_right order))
  have hrun : c.node.left.spots c.place.left order ++ c.node.right.spots c.place.right order <+
      c.node.toTree.spots c.place order := by
    rw [c.spots_eq]
    cases order with
    | preorder => exact List.sublist_cons_self _ _
    | inorder => exact (List.sublist_cons_self _ _).append_left _
    | postorder => exact List.sublist_append_left _ _
  exact (hsides.trans hrun).trans (Tree.spots_infix hc order).sublist

/-! ## Ranks -/

theorem Walk.rank_lt_of_pair_sublist {σ : Type v} [Walk σ (Spot α)] {w : σ} {t : Tree α} {order : Order}
    (hlist : toList w = t.spots .root order) {a b : Spot α} (h : [a, b] <+ t.spots .root order) :
    rank w a < rank w b := by
  have hranks : (toList w).Pairwise fun x y => rank w x < rank w y := by
    refine List.pairwise_iff_getElem.2 fun i j hi hj hij => ?_
    have hnodup := nodup_toList hlist
    rwa [rank_of_getElem? hnodup (List.getElem?_eq_getElem hi), rank_of_getElem? hnodup (List.getElem?_eq_getElem hj)]
  rw [← hlist] at h
  exact List.pairwise_iff_forall_sublist.1 hranks h

/-- **The three orders tell how nodes are akin.** A node is a proper ancestor of another one if and only if it comes
before it in pre-order and after it in post-order, and on its left if and only if before it in both. In-order tells on
which side of an ancestor it is. -/
theorem kin_of_ranks {t : Tree α} {p q : List Side} {a b : Spot α} (ha : t.locate? p = some a)
    (hb : t.locate? q = some b) :
    let pre := Walk.rank (Preorder.ofTree t)
    let inn := Walk.rank (Inorder.ofTree t)
    let post := Walk.rank (Postorder.ofTree t)
    (∀ path x, t.locate? path = some x → ∀ k,
      ((Walk.call (Walk.after k (Preorder.ofTree t))).1 = some x ↔ k = pre x) ∧
      ((Walk.call (Walk.after k (Inorder.ofTree t))).1 = some x ↔ k = inn x) ∧
      ((Walk.call (Walk.after k (Postorder.ofTree t))).1 = some x ↔ k = post x)) ∧
    (a.IsAbove b ↔ pre a < pre b ∧ post b < post a) ∧
    (t.Apart a b ↔ pre a < pre b ∧ post a < post b) ∧
    (a.IsAbove b → (a.Below .left b ↔ inn b < inn a)) := by
  intro pre inn post
  have hpre := Preorder.toList_eq_spots t
  have hin := Inorder.toList_eq_spots t
  have hpost := Postorder.toList_eq_spots t
  have habove : ∀ {path x y}, t.locate? path = some x → x.IsAbove y → pre x < pre y ∧ post y < post x := by
    intro path x y hx h
    exact ⟨Walk.rank_lt_of_pair_sublist hpre (Spot.pair_sublist_of_mem_after hx h.mem_after_preorder),
      Walk.rank_lt_of_pair_sublist hpost (Spot.pair_sublist_of_mem_before hx h.mem_before_postorder)⟩
  have hapart : ∀ {x y}, t.Apart x y → pre x < pre y ∧ post x < post y := fun h =>
    ⟨Walk.rank_lt_of_pair_sublist hpre (h.pair_sublist .preorder),
      Walk.rank_lt_of_pair_sublist hpost (h.pair_sublist .postorder)⟩
  refine ⟨fun path x hx => Tree.answered_at_rank hx, ⟨habove ha, ?_⟩, ⟨hapart, ?_⟩, ?_⟩
  · rintro ⟨hlt, hgt⟩
    cases Tree.kin ha hb with
    | same h => subst h; omega
    | above h => exact h
    | below h => have := habove hb h; omega
    | left h => have := hapart h; omega
    | right h => have := hapart h; omega
  · rintro ⟨hlt, hlt'⟩
    cases Tree.kin ha hb with
    | same h => subst h; omega
    | above h => have := habove ha h; omega
    | below h => have := habove hb h; omega
    | left h => exact h
    | right h => have := hapart h; omega
  · rintro ⟨side, hside⟩
    have hleft : a.Below .left b → inn b < inn a := fun h =>
      Walk.rank_lt_of_pair_sublist hin (Spot.pair_sublist_of_mem_before ha (h.mem_left .inorder))
    have hright : a.Below .right b → inn a < inn b := fun h =>
      Walk.rank_lt_of_pair_sublist hin (Spot.pair_sublist_of_mem_after ha (h.mem_right .inorder))
    refine ⟨hleft, fun hlt => ?_⟩
    cases side with
    | left => exact hside
    | right => have := hright hside; omega

/-- Three nodes that hold the same: the left child of the root, its right child, and the right child of the root. -/
theorem kin_of_ranks_left :
    let t : Tree Nat := .node 0 (.node 1 .empty (.node 1 .empty .empty)) (.node 1 .empty .empty)
    let a : Spot Nat := ⟨Place.root.left, ⟨1, .empty, .node 1 .empty .empty⟩⟩
    let b : Spot Nat := ⟨Place.root.left.right, ⟨1, .empty, .empty⟩⟩
    let c : Spot Nat := ⟨Place.root.right, ⟨1, .empty, .empty⟩⟩
    let pre := Walk.rank (Preorder.ofTree t)
    let inn := Walk.rank (Inorder.ofTree t)
    let post := Walk.rank (Postorder.ofTree t)
    (t.locate? [.left] = some a ∧ t.locate? [.left, .right] = some b ∧ t.locate? [.right] = some c) ∧
      (pre a < pre b ∧ post b < post a) ∧ ¬ inn b < inn a ∧ (pre b < pre c ∧ post b < post c) := by
  intro t a b c pre inn post
  have ha : t.locate? [.left] = some a := rfl
  have hb : t.locate? [.left, .right] = some b := rfl
  have hc : t.locate? [.right] = some c := rfl
  have habove : a.IsAbove b := ⟨.right, [], rfl⟩
  have hnotLeft : ¬ a.Below .left b := by
    rintro ⟨path, h⟩
    cases h
  have hapart : t.Apart b c := ⟨[], ⟨.root, ⟨0, _, _⟩⟩, rfl, ⟨[.right], rfl⟩, ⟨[], rfl⟩⟩
  obtain ⟨-, hline, -, hside⟩ := kin_of_ranks ha hb
  obtain ⟨-, -, hacross, -⟩ := kin_of_ranks hb hc
  exact ⟨⟨ha, hb, hc⟩, hline.1 habove, fun h => hnotLeft ((hside habove).2 h), hacross.1 hapart⟩

end TreeWalk
