import TreeWalk.Proofs.Copy
import TreeWalk.Proofs.Walk.Iterations
import TreeWalk.Proofs.Walk.Kinship

/-!
# The finished copies while a node is copied

A node is copied along its post-order, in which every subtree comes in one run with its root at the end. So a subtree is
done when its root has been visited, and the finished copies are those of the done subtrees that lie in no other one.
They come from left to right, and when a node is reached, the last of them are its children.

* `Tree.MaximalDone` : a list of the maximal subtrees of which all nodes have been visited, from left to right. After
  the first nodes in post-order it is `Tree.doneAfter`, by recursion (`Tree.maximalDone_doneAfter`), and it ends with
  the children of the node that is next (`Tree.exists_doneAfter_eq`);
* `Tree.SameShape.eq_relabel` : a copy is made of what the calls for the nodes gave;
* `Node.copying` : the first iterations of the copying of a node;
* `foldl_take_copyStep`, `calls_take_copyStep` : the finished copies then are those of what is done, and the calls those
  for the nodes visited so far;
* `Node.CopyProgress`, `Node.TakesChildren` : the same for the iterations, and what the next one takes off;
* `built_holds_done` : so it is after any number of iterations. A node takes off the copy of its right child first,
  then that of its left child, as far as it has these children, and never is such a copy missing. After an iteration
  for each node the copying is at its end.
-/

namespace TreeWalk

universe u v

/-! ## Subtrees of which all nodes have been visited -/

section Done

variable {α : Type u}

/-- The node and all nodes below it have been visited. -/
def Spot.IsDone (visited : List (Spot α)) (x : Spot α) : Prop := x.node.toTree.spotsPost x.place ⊆ visited

/-- The list holds the nodes of the tree that are done while no node above them is, from left to right. -/
structure Tree.MaximalDone (t : Tree α) (visited subtrees : List (Spot α)) : Prop where
  mem_iff : ∀ x, x ∈ subtrees ↔ x ∈ t.spotsPost .root ∧ x.IsDone visited ∧
    ∀ a ∈ t.spotsPost .root, a.IsAbove x → ¬ a.IsDone visited
  leftToRight : subtrees.Pairwise t.Apart

/-- A way down to a node begins with the way to each node above it. -/
theorem Spot.IsAbove.suffix {a x : Spot α} (h : a.IsAbove x) : a.place.steps <:+ x.place.steps := by
  obtain ⟨side, path, hpath⟩ := h
  have hsteps : x.place.steps = (side :: path).reverse ++ a.place.steps :=
    Tree.locateFrom?_place (t := a.node.toTree) hpath
  exact ⟨_, hsteps.symm⟩

namespace Tree

variable {p : Place} {value : α} {left right : Tree α} {k : Nat} {a x : Spot α}

theorem take_spotsPost_of_size_le {t : Tree α} (h : t.size ≤ k) (p : Place) :
    (t.spotsPost p).take k = t.spotsPost p :=
  List.take_of_length_le ((t.length_spotsPost p).trans_le h)

/-- Before the root is visited, some nodes on its left have been, or all of them and some on its right. -/
theorem take_spotsPost_node (hk : ¬ (node value left right).size ≤ k) (p : Place) :
    ((node value left right).spotsPost p).take k =
      (left.spotsPost p.left).take k ++ (right.spotsPost p.right).take (k - left.size) := by
  rw [size_node] at hk
  have hroot : k - left.size - right.size = 0 := by omega
  rw [spotsPost, List.take_append, List.take_append, length_spotsPost, length_spotsPost, hroot, List.take_zero,
    List.append_nil]

theorem suffix_of_mem_spotsPost {t : Tree α} (h : x ∈ t.spotsPost p) : p.steps <:+ x.place.steps := by
  obtain ⟨path, hpath⟩ := ((t.listedBy_spotsPost p).mem_iff x).1 h
  exact ⟨_, (locateFrom?_place hpath).symm⟩

theorem below_left_of_mem (h : x ∈ left.spotsPost p.left) : Spot.Below ⟨p, ⟨value, left, right⟩⟩ .left x := by
  obtain ⟨path, hpath⟩ := ((left.listedBy_spotsPost p.left).mem_iff x).1 h
  exact ⟨path, (locateFrom?_left p value left right path).trans hpath⟩

theorem below_right_of_mem (h : x ∈ right.spotsPost p.right) : Spot.Below ⟨p, ⟨value, left, right⟩⟩ .right x := by
  obtain ⟨path, hpath⟩ := ((right.listedBy_spotsPost p.right).mem_iff x).1 h
  exact ⟨path, (locateFrom?_right p value left right path).trans hpath⟩

/-- No node on one side of a node is above one on the other side. -/
theorem not_isAbove_across {side side' : Side} (hside : side ≠ side') (ha : (p.child side).steps <:+ a.place.steps)
    (hx : (p.child side').steps <:+ x.place.steps) : ¬ a.IsAbove x := by
  intro h
  have hsame := List.suffix_of_suffix_length_le (ha.trans h.suffix) hx (Nat.le_refl _)
  exact hside (List.cons.inj (hsame.eq_of_length rfl)).1

/-- The root is the node of the tree that has none above it. -/
theorem eq_root_iff : x = ⟨p, ⟨value, left, right⟩⟩ ↔ x ∈ (node value left right).spotsPost p ∧
    ∀ a ∈ (node value left right).spotsPost p, ¬ a.IsAbove x := by
  constructor
  · rintro rfl
    refine ⟨Postorder.self_mem_spotsPost _, fun a ha h => ?_⟩
    have hlength := (suffix_of_mem_spotsPost ha).length_le
    have hdepth := h.depth_lt
    rw [a.place.depth_eq, p.depth_eq] at hdepth
    omega
  · rintro ⟨hx, hmax⟩
    have hroot := hmax _ (Postorder.self_mem_spotsPost ⟨p, ⟨value, left, right⟩⟩)
    rw [spotsPost, List.mem_append, List.mem_append, List.mem_singleton] at hx
    rcases hx with hx | hx | hx
    · exact absurd ⟨.left, below_left_of_mem hx⟩ hroot
    · exact absurd ⟨.right, below_right_of_mem hx⟩ hroot
    · exact hx

/-- Nodes that are visited are done: all below them has been visited before. -/
theorem isDone_of_mem_take {t : Tree α} (h : x ∈ (t.spotsPost p).take k) : x.IsDone ((t.spotsPost p).take k) := by
  induction t generalizing p k with
  | empty => simp [spotsPost] at h
  | node value left right ihLeft ihRight =>
    by_cases hk : (node value left right).size ≤ k
    · rw [take_spotsPost_of_size_le hk] at h ⊢
      obtain ⟨path, hpath⟩ := (((node value left right).listedBy_spotsPost p).mem_iff x).1 h
      exact (Tree.spotsPost_infix hpath).subset
    · rw [take_spotsPost_node hk] at h ⊢
      rcases List.mem_append.1 h with h | h
      · exact List.Subset.trans (ihLeft h) (List.subset_append_left _ _)
      · exact List.Subset.trans (ihRight h) (List.subset_append_right _ _)

theorem isDone_iff_mem_take {t : Tree α} : x.IsDone ((t.spotsPost p).take k) ↔ x ∈ (t.spotsPost p).take k :=
  ⟨fun h => h (Postorder.self_mem_spotsPost x), isDone_of_mem_take⟩

/-- The roots of the maximal subtrees of which all nodes are among the first `k` in post-order, where the tree lies at
the place `p`, from left to right. -/
def doneAfter (p : Place) : Tree α → Nat → List (Spot α)
  | .empty, _ => []
  | .node value left right, k =>
      if (node value left right).size ≤ k then [⟨p, ⟨value, left, right⟩⟩]
      else left.doneAfter p.left k ++ right.doneAfter p.right (k - left.size)

theorem doneAfter_zero (p : Place) (t : Tree α) : t.doneAfter p 0 = [] := by
  induction t generalizing p with
  | empty => rfl
  | node value left right ihLeft ihRight =>
    have hpos : ¬ (node value left right).size ≤ 0 := by
      rw [size_node]
      omega
    rw [doneAfter, if_neg hpos, ihLeft, Nat.zero_sub, ihRight]
    rfl

theorem doneAfter_of_size_le {t : Tree α} (h : t.size ≤ k) : t.doneAfter p k = (t.spot? p).toList := by
  cases t with
  | empty => rfl
  | node value left right =>
    rw [doneAfter, if_pos h]
    rfl

theorem mem_doneAfter {t : Tree α} : x ∈ t.doneAfter p k ↔
    x ∈ (t.spotsPost p).take k ∧ ∀ a ∈ (t.spotsPost p).take k, ¬ a.IsAbove x := by
  induction t generalizing p k with
  | empty => simp [doneAfter, spotsPost]
  | node value left right ihLeft ihRight =>
    rw [doneAfter]
    split
    · next hk =>
      rw [take_spotsPost_of_size_le hk, List.mem_singleton]
      exact eq_root_iff
    · next hk =>
      have hleft : ∀ {y}, y ∈ (left.spotsPost p.left).take k → p.left.steps <:+ y.place.steps :=
        fun hy => suffix_of_mem_spotsPost (List.mem_of_mem_take hy)
      have hright : ∀ {y}, y ∈ (right.spotsPost p.right).take (k - left.size) → p.right.steps <:+ y.place.steps :=
        fun hy => suffix_of_mem_spotsPost (List.mem_of_mem_take hy)
      rw [take_spotsPost_node hk, List.mem_append, List.mem_append, ihLeft, ihRight, List.forall_mem_append]
      constructor
      · rintro (⟨hx, hmax⟩ | ⟨hx, hmax⟩)
        · exact ⟨Or.inl hx, hmax, fun a ha => not_isAbove_across (by decide) (hright ha) (hleft hx)⟩
        · exact ⟨Or.inr hx, fun a ha => not_isAbove_across (by decide) (hleft ha) (hright hx), hmax⟩
      · rintro ⟨hx | hx, hmaxLeft, hmaxRight⟩
        · exact Or.inl ⟨hx, hmaxLeft⟩
        · exact Or.inr ⟨hx, hmaxRight⟩

theorem mem_spotsPost_of_mem_doneAfter {t : Tree α} (h : x ∈ t.doneAfter p k) : x ∈ t.spotsPost p :=
  List.mem_of_mem_take (mem_doneAfter.1 h).1

/-- What is done lies from left to right in every tree of which this is a subtree. -/
theorem pairwise_doneAfter {whole t : Tree α} (ht : ∀ s, t.spot? p = some s → whole.locate? s.place.path = some s) :
    (t.doneAfter p k).Pairwise whole.Apart := by
  induction t generalizing p k with
  | empty => exact List.Pairwise.nil
  | node value left right ihLeft ihRight =>
    rw [doneAfter]
    split
    · exact List.pairwise_singleton _ _
    · have hroot := ht ⟨p, ⟨value, left, right⟩⟩ rfl
      have hleft : ∀ s, left.spot? p.left = some s → whole.locate? s.place.path = some s :=
        fun s hs => locate?_child hroot .left hs
      have hright : ∀ s, right.spot? p.right = some s → whole.locate? s.place.path = some s :=
        fun s hs => locate?_child hroot .right hs
      refine List.pairwise_append.2 ⟨ihLeft hleft, ihRight hright, fun a ha b hb => ?_⟩
      exact ⟨p.path, _, hroot, below_left_of_mem (mem_spotsPost_of_mem_doneAfter ha),
        below_right_of_mem (mem_spotsPost_of_mem_doneAfter hb)⟩

theorem maximalDone_doneAfter (t : Tree α) (k : Nat) :
    t.MaximalDone ((t.spotsPost .root).take k) (t.doneAfter .root k) where
  mem_iff x := by
    rw [mem_doneAfter, isDone_iff_mem_take]
    constructor
    · rintro ⟨hx, hmax⟩
      exact ⟨List.mem_of_mem_take hx, hx, fun a _ habove hdone => hmax a (isDone_iff_mem_take.1 hdone) habove⟩
    · rintro ⟨-, hx, hmax⟩
      exact ⟨hx, fun a ha habove => hmax a (List.mem_of_mem_take ha) habove (isDone_of_mem_take ha)⟩
  leftToRight := pairwise_doneAfter fun _ => locate?_of_spot?

/-- When a node is next, the last of what is done are its children. -/
theorem exists_doneAfter_eq {t : Tree α} (h : (t.spotsPost p)[k]? = some x) :
    ∃ others, t.doneAfter p k = others ++ (x.left?.toList ++ x.right?.toList) := by
  induction t generalizing p k with
  | empty => simp [spotsPost] at h
  | node value left right ihLeft ihRight =>
    have hk : k < (node value left right).size := by
      rw [← length_spotsPost p]
      exact (List.getElem?_eq_some_iff.1 h).1
    rw [doneAfter, if_neg (Nat.not_le.2 hk)]
    rw [size_node] at hk
    rw [spotsPost] at h
    rcases Nat.lt_or_ge k left.size with hleft | hleft
    · -- the node lies on the left, and nothing on the right is done
      rw [List.getElem?_append_left (by rwa [length_spotsPost])] at h
      obtain ⟨others, hothers⟩ := ihLeft h
      refine ⟨others, ?_⟩
      rw [hothers, Nat.sub_eq_zero_of_le (Nat.le_of_lt hleft), doneAfter_zero, List.append_nil]
    · rw [List.getElem?_append_right (by rwa [length_spotsPost]), length_spotsPost] at h
      rcases Nat.lt_or_ge (k - left.size) right.size with hright | hright
      · rw [List.getElem?_append_left (by rwa [length_spotsPost])] at h
        obtain ⟨others, hothers⟩ := ihRight h
        refine ⟨left.doneAfter p.left k ++ others, ?_⟩
        rw [hothers, List.append_assoc]
      · -- the node is the root, and all on both sides is done
        rw [List.getElem?_append_right (by rwa [length_spotsPost]), length_spotsPost] at h
        have hroot : k - left.size - right.size = 0 := by omega
        rw [hroot] at h
        obtain rfl := Option.some.inj h
        refine ⟨[], ?_⟩
        rw [doneAfter_of_size_le hleft, doneAfter_of_size_le hright]
        rfl

end Tree

end Done

/-! ## What the calls for the nodes gave -/

section Given

variable {α : Type u} {β : Type v}

/-- A tree of the same shape holds something made of each node, where `whole` is a tree that it lies in at the place
`p`. -/
theorem Tree.SameShape.eq_relabel {t : Tree α} {u whole : Tree β} (h : t.SameShape u) (d : β) {p : Place}
    (hwhole : ∀ path, whole.valueAt? (p.path ++ path) = u.valueAt? path) :
    u = t.relabel (fun s => (whole.valueAt? s.place.path).getD d) p := by
  induction h using SameShape.induction generalizing p with
  | empty => rfl
  | node a b left right left' right' _ _ ihLeft ihRight =>
    have hroot : whole.valueAt? p.path = some b := by
      have hnil := hwhole []
      rwa [List.append_nil] at hnil
    have hleft : ∀ path, whole.valueAt? (p.left.path ++ path) = left'.valueAt? path := by
      intro path
      have hstep := hwhole (.left :: path)
      rw [valueAt?_left] at hstep
      rw [← hstep, Place.left, Place.path_child, List.append_assoc]
      rfl
    have hright : ∀ path, whole.valueAt? (p.right.path ++ path) = right'.valueAt? path := by
      intro path
      have hstep := hwhole (.right :: path)
      rw [valueAt?_right] at hstep
      rw [← hstep, Place.right, Place.path_child, List.append_assoc]
      rfl
    rw [relabel, ← ihLeft hleft, ← ihRight hright, hroot]
    rfl

end Given

/-! ## Iterations of the copying -/

section Copying

variable {α : Type u} {β σ : Type v} {f : α → StateM σ β} {given : Spot α → β}

/-- The first `k` iterations of the copying of a node: the finished copies, the latest one first, and the state, with
the walk over the node. -/
def Node.copying (f : α → StateM σ β) (n : Node α) (st : σ) (k : Nat) : (List (Node β) × σ) × Postorder α :=
  Walk.foldFirst (Spot.copyStep f) k ([], st) (Postorder.ofNode n)

theorem Node.copying_fst (f : α → StateM σ β) (n : Node α) (st : σ) (k : Nat) :
    (n.copying f st k).1 = ((n.toTree.spotsPost .root).take k).foldl (Spot.copyStep f) ([], st) := by
  unfold copying
  rw [Walk.foldFirst_fst]
  exact congrArg (fun nodes => (nodes.take k).foldl (Spot.copyStep f) ([], st)) (Postorder.toList_ofSpot ⟨.root, n⟩)

/-- If the copy of a subtree is there because the subtree is, it is taken off. -/
theorem takeCopy_child (t : Tree α) (p : Place) (built : List (Node β)) :
    takeCopy (!t.isEmpty) (((t.spot? p).map (Spot.relabel given)).toList ++ built) =
      ((t.spot? p).map (Spot.relabel given), built) := by
  have hempty : (t.relabel given p).isEmpty = t.isEmpty := by
    cases t <;> rfl
  rw [← Tree.root?_relabel, ← hempty]
  exact takeCopy_root? rfl built

/-- The finished copies are those of what is done, if all calls for the nodes of the tree give what `given` says. -/
theorem foldl_take_copyStep {p : Place} {t : Tree α} {st : σ} (h : (t.visitPost f st).1 = t.relabel given p) (k : Nat)
    (built : List (Node β)) :
    (((t.spotsPost p).take k).foldl (Spot.copyStep f) (built, st)).1 =
      ((t.doneAfter p k).map (Spot.relabel given)).reverse ++ built := by
  induction t generalizing p k built st with
  | empty => cases k <;> rfl
  | node value left right ihLeft ihRight =>
    by_cases hk : (Tree.node value left right).size ≤ k
    · rw [Tree.take_spotsPost_of_size_le hk, foldl_copyStep, h, Tree.doneAfter_of_size_le hk, Tree.root?_relabel]
      rfl
    · rw [Tree.visitPost_node, Tree.relabel, Tree.node.injEq] at h
      obtain ⟨-, hleft, hright⟩ := h
      rw [Tree.take_spotsPost_node hk, List.foldl_append, Tree.doneAfter, if_neg hk]
      rcases Nat.lt_or_ge k left.size with hlt | hge
      · -- nothing on the right has been visited
        rw [Nat.sub_eq_zero_of_le (Nat.le_of_lt hlt), List.take_zero, List.foldl_nil, Tree.doneAfter_zero,
          List.append_nil]
        exact ihLeft hleft k built
      · -- all on the left has been, and its copy lies beneath those of what is done on the right
        rw [Tree.take_spotsPost_of_size_le hge, foldl_copyStep, ihRight hright, hleft, Tree.root?_relabel,
          Tree.doneAfter_of_size_le hge, List.map_append, List.reverse_append, List.append_assoc]
        cases left <;> rfl

end Copying

section Progress

variable {α β σ : Type u}

/-- Noting the calls changes nothing else, and there is one call for each node. -/
theorem foldl_copyStep_recording (f : α → StateM σ β) (nodes : List (Spot α)) (built : List (Node β)) (st : σ)
    (calls : List (α × β)) : ∃ more : List (α × β), more.length = nodes.length ∧
      nodes.foldl (Spot.copyStep (recording f)) (built, st, calls) =
        ((nodes.foldl (Spot.copyStep f) (built, st)).1, (nodes.foldl (Spot.copyStep f) (built, st)).2,
          calls ++ more) := by
  induction nodes generalizing built st calls with
  | nil => exact ⟨[], rfl, congrArg (fun c => (_, _, c)) (List.append_nil calls).symm⟩
  | cons s nodes ih =>
    let call : α × β := (s.value, (f s.value st).1)
    obtain ⟨more, hlength, hrest⟩ := ih (s.node.finishCopy (f s.value st).1 built) (f s.value st).2 (calls ++ [call])
    refine ⟨call :: more, congrArg (· + 1) hlength, ?_⟩
    rw [List.append_assoc] at hrest
    exact hrest

/-- The calls so far are those for the nodes visited so far. -/
theorem calls_take_copyStep {f : α → StateM σ β} {given : Spot α → β} {p : Place} {t : Tree α} {st : σ}
    (h : (t.visitPost f st).1 = t.relabel given p) (k : Nat) :
    (((t.spotsPost p).take k).foldl (Spot.copyStep (recording f)) ([], st, [])).2.2 =
      ((t.spotsPost p).take k).map fun s => (s.value, given s) := by
  obtain ⟨first, hfirstLength, hfirst⟩ := foldl_copyStep_recording f ((t.spotsPost p).take k) [] st []
  obtain ⟨rest, -, hrest⟩ := foldl_copyStep_recording f ((t.spotsPost p).drop k)
    (((t.spotsPost p).take k).foldl (Spot.copyStep f) ([], st)).1
    (((t.spotsPost p).take k).foldl (Spot.copyStep f) ([], st)).2 ([] ++ first)
  have hall : first ++ rest = (t.spotsPost p).map fun s => (s.value, given s) := by
    have hfold : ((t.spotsPost p).foldl (Spot.copyStep (recording f)) ([], st, [])).2.2 = [] ++ first ++ rest := by
      rw [← List.take_append_drop k (t.spotsPost p), List.foldl_append, hfirst, hrest]
    rw [foldl_copyStep, t.visitPost_recording, h, Tree.postorder_relabel, ← t.spotsPost_map_value p, List.zip_map']
      at hfold
    exact hfold.symm
  rw [← List.take_append_drop k (t.spotsPost p), List.map_append] at hall
  rw [hfirst]
  exact (List.append_inj hall (hfirstLength.trans (List.length_map _).symm)).1

namespace Node

/-- After `k` iterations of the copying of a node, the finished copies, the first one first, are those of the maximal
subtrees of which all nodes have been visited, from left to right. What the calls gave so far is what `given` says,
and the other iterations lead on from there. -/
structure CopyProgress (f : α → StateM σ β) (n : Node α) (st : σ) (given : Spot α → β) (k : Nat) : Prop where
  built : ∃ subtrees, n.toTree.MaximalDone ((n.toTree.spotsPost .root).take k) subtrees ∧
    (n.copying f st k).1.1.reverse = subtrees.map (Spot.relabel given)
  calls : (n.copying (recording f) (st, []) k).1 = ((n.copying f st k).1.1, (n.copying f st k).1.2,
    ((n.toTree.spotsPost .root).take k).map fun s => (s.value, given s))
  rest : Walk.foldl (Spot.copyStep f) (n.copying f st k).1 (n.copying f st k).2 = n.built f st

/-- The node `s`, if it is visited after `k` others, takes off the finished copies those of its children, the right one
first. -/
def TakesChildren (f : α → StateM σ β) (n : Node α) (st : σ) (given : Spot α → β) (k : Nat) (s : Spot α) : Prop :=
  ∃ built, takeCopy s.node.hasRight (n.copying f st k).1.1 = (s.right?.map (Spot.relabel given), built) ∧
    (takeCopy s.node.hasLeft built).1 = s.left?.map (Spot.relabel given)

variable {f : α → StateM σ β} {n : Node α} {st : σ} {given : Spot α → β}

theorem copying_built (h : (n.toTree.visitPost f st).1 = n.toTree.relabel given .root) (k : Nat) :
    (n.copying f st k).1.1 = ((n.toTree.doneAfter .root k).map (Spot.relabel given)).reverse := by
  rw [copying_fst, foldl_take_copyStep h, List.append_nil]

theorem copyProgress (h : (n.toTree.visitPost f st).1 = n.toTree.relabel given .root) (k : Nat) :
    n.CopyProgress f st given k where
  built := by
    refine ⟨_, n.toTree.maximalDone_doneAfter k, ?_⟩
    rw [copying_built h, List.reverse_reverse]
  calls := by
    obtain ⟨more, -, hmore⟩ := foldl_copyStep_recording f ((n.toTree.spotsPost .root).take k) [] st []
    have hcalls := calls_take_copyStep h k
    rw [hmore] at hcalls
    rw [copying_fst, copying_fst, hmore, ← hcalls]
  rest := Walk.foldl_foldFirst ..

theorem takesChildren (h : (n.toTree.visitPost f st).1 = n.toTree.relabel given .root) {k : Nat} {s : Spot α}
    (hs : (n.toTree.spotsPost .root)[k]? = some s) : n.TakesChildren f st given k s := by
  obtain ⟨others, hothers⟩ := Tree.exists_doneAfter_eq hs
  have hchild : ∀ c : Option (Spot α), (c.toList.map (Spot.relabel given)).reverse =
      (c.map (Spot.relabel given)).toList := by
    intro c
    cases c <;> rfl
  have hbuilt : (n.copying f st k).1.1 = (s.right?.map (Spot.relabel given)).toList ++
      ((s.left?.map (Spot.relabel given)).toList ++ (others.map (Spot.relabel given)).reverse) := by
    rw [copying_built h, hothers, List.map_append, List.map_append, List.reverse_append, List.reverse_append, hchild,
      hchild, List.append_assoc]
  refine ⟨(s.left?.map (Spot.relabel given)).toList ++ (others.map (Spot.relabel given)).reverse, ?_, ?_⟩
  · rw [hbuilt]
    exact takeCopy_child s.node.right s.place.right _
  · exact congrArg Prod.fst (takeCopy_child s.node.left s.place.left _)

theorem copy_eq_relabel (h : (n.toTree.visitPost f st).1 = n.toTree.relabel given .root) :
    (n.copy f st).1 = Spot.relabel given ⟨.root, n⟩ := by
  have hbuilt := congrArg Prod.fst ((n.built_eq_copy f st).symm.trans (n.built_eq f st))
  rw [h, Tree.root?_relabel] at hbuilt
  exact (List.cons.inj hbuilt).1

end Node

/-- **The finished copies while a node is copied.** After any number of iterations they are those of the maximal
subtrees that are done, from left to right. A node that is visited takes off the copies of its children, and at the
end only the copy of `n` is there. -/
theorem built_holds_done (f : α → StateM σ β) (st : σ) (n : Node α) :
    ∃ given : Spot α → β, (∀ k, n.CopyProgress f st given k) ∧
      (∀ k s, (n.toTree.spotsPost .root)[k]? = some s → n.TakesChildren f st given k s) ∧
      (n.copying f st n.size).1 = n.built f st ∧ (n.built f st).1 = [Spot.relabel given ⟨.root, n⟩] ∧
      (n.copy f st).1 = Spot.relabel given ⟨.root, n⟩ := by
  let copied : Tree β := (n.toTree.visitPost f st).1
  let given : Spot α → β := fun s => (copied.valueAt? s.place.path).getD (f n.value st).1
  have hgiven : (n.toTree.visitPost f st).1 = n.toTree.relabel given .root :=
    (n.toTree.sameShape_visitPost f st).eq_relabel (f n.value st).1 fun _ => rfl
  refine ⟨given, Node.copyProgress hgiven, fun k s => Node.takesChildren hgiven, ?_, ?_, Node.copy_eq_relabel hgiven⟩
  · have hall : n.toTree.size ≤ n.size := Nat.le_of_eq n.size_toTree
    rw [Node.copying_fst, Tree.take_spotsPost_of_size_le hall, foldl_copyStep, List.append_nil, Node.built_eq]
  · rw [n.built_eq_copy, Node.copy_eq_relabel hgiven]

/-- The root of five nodes, visited last, when the copies of its two children are all that there is. A call gives ten
times the value and the number of calls before it. -/
theorem built_holds_done_root :
    let n : Node Nat := ⟨1, .node 2 (.node 4 .empty .empty) (.node 5 .empty .empty), .node 3 .empty .empty⟩
    let f : Nat → StateM Nat Nat := fun a calls => (10 * a + calls, calls + 1)
    (n.toTree.spotsPost .root)[4]? = some ⟨.root, n⟩ ∧
      (n.copying f 0 4).1.1 = [⟨33, .empty, .empty⟩, ⟨22, .node 40 .empty .empty, .node 51 .empty .empty⟩] ∧
      ∃ given, n.TakesChildren f 0 given 4 ⟨.root, n⟩ ∧ (n.copy f 0).1 = Spot.relabel given ⟨.root, n⟩ := by
  intro n f
  have hroot : (n.toTree.spotsPost .root)[4]? = some ⟨.root, n⟩ := rfl
  obtain ⟨given, -, htakes, -, -, hcopy⟩ := built_holds_done f 0 n
  refine ⟨hroot, ?_, given, htakes 4 _ hroot, hcopy⟩
  rw [Node.copying_fst]
  rfl

end Progress

end TreeWalk
