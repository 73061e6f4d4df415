import TreeWalk.Copy
import TreeWalk.Proofs.Walk.Postorder

/-!
# What copying makes

* `Tree.visitPost` : the copy by recursion, with the values copied in post-order;
* `foldl_copyStep` : copying along the post-order nodes of a tree puts the copy of the tree on top of whatever was
  finished before, and leaves the rest as it is. So a node that is reached finds exactly the copies of its children,
  and at the end the copy of the root is all that is there (`Node.built_eq`);
* `recording` : a copying of values that keeps the list of its calls;
* `Tree.Copied` : what the calls have to do with the tree and its copy;
* `copy_exact` : copying is exact. At the end the copy of the root is the only finished copy, so there is always one
  to be handed out. If the copying of values is a function without state, it is applied to every value, and so it is
  by the recursion `Tree.visit`, which makes its calls in pre-order.
-/

namespace TreeWalk

universe u v

/-! ## The copy by recursion -/

section Recursion

variable {α : Type u} {β σ : Type v}

/-- Replaces the values one after another in post-order; each replacement sees the state that the one
before it left. -/
def Tree.visitPost (f : α → StateM σ β) : Tree α → StateM σ (Tree β)
  | .empty => pure .empty
  | .node value left right => do
      let left ← left.visitPost f
      let right ← right.visitPost f
      let value ← f value
      pure (.node value left right)

theorem Tree.visitPost_node (f : α → StateM σ β) (value : α) (left right : Tree α) (st : σ) :
    (node value left right).visitPost f st =
      let st₁ := (left.visitPost f st).2
      let st₂ := (right.visitPost f st₁).2
      (node (f value st₂).1 (left.visitPost f st).1 (right.visitPost f st₁).1, (f value st₂).2) := rfl

theorem Tree.visit_node (f : α → StateM σ β) (value : α) (left right : Tree α) (st : σ) :
    (node value left right).visit f st =
      let st₁ := (f value st).2
      let st₂ := (left.visit f st₁).2
      (node (f value st).1 (left.visit f st₁).1 (right.visit f st₂).1, (right.visit f st₂).2) := rfl

theorem Tree.isEmpty_visitPost (f : α → StateM σ β) (t : Tree α) (st : σ) :
    (t.visitPost f st).1.isEmpty = t.isEmpty := by
  cases t <;> rfl

theorem Tree.sameShape_visitPost (f : α → StateM σ β) (t : Tree α) (st : σ) :
    t.SameShape (t.visitPost f st).1 := by
  induction t generalizing st with
  | empty => exact fun _ => rfl
  | node value left right ihLeft ihRight =>
    rw [visitPost_node]
    exact (sameShape_node_node ..).2 ⟨ihLeft _, ihRight _⟩

theorem Tree.size_visit (f : α → StateM σ β) (t : Tree α) (st : σ) : (t.visit f st).1.size = t.size := by
  induction t generalizing st with
  | empty => rfl
  | node value left right ihLeft ihRight =>
    rw [visit_node]
    show 1 + (left.visit f _).1.size + (right.visit f _).1.size = 1 + left.size + right.size
    rw [ihLeft, ihRight]

theorem Tree.spotsPost_visitPost_map_place (f : α → StateM σ β) (p : Place) (t : Tree α) (st : σ) :
    ((t.visitPost f st).1.spotsPost p).map Spot.place = (t.spotsPost p).map Spot.place := by
  induction t generalizing p st with
  | empty => rfl
  | node value left right ihLeft ihRight =>
    rw [visitPost_node]
    simp only [spotsPost, List.map_append, ihLeft, ihRight, List.map_cons, List.map_nil]

/-! ## Copying with a stack of finished copies -/

/-- The latest of the finished copies is taken off if it is there because of a tree that is not empty. -/
theorem takeCopy_root? {isThere : Bool} {t : Tree β} (h : isThere = !t.isEmpty) (built : List (Node β)) :
    takeCopy isThere (t.root?.toList ++ built) = (t.root?, built) := by
  cases t with
  | empty =>
    rw [h]
    cases built <;> rfl
  | node value left right =>
    rw [h]
    rfl

theorem Spot.copyStep_eq (f : α → StateM σ β) (built : List (Node β)) (st : σ) (s : Spot α) :
    s.copyStep f (built, st) = (s.node.finishCopy (f s.value st).1 built, (f s.value st).2) := rfl

theorem Node.ofChildren_root? (value : β) (left right : Tree β) :
    ofChildren value left.root? right.root? = ⟨value, left, right⟩ := by
  cases left <;> cases right <;> rfl

/-- A node that is reached finds the copies of its two subtrees on top of the finished copies. -/
theorem Node.finishCopy_root? (n : Node α) (value : β) {left right : Tree β} (hleft : left.isEmpty = n.left.isEmpty)
    (hright : right.isEmpty = n.right.isEmpty) (built : List (Node β)) :
    n.finishCopy value (right.root?.toList ++ (left.root?.toList ++ built)) = ⟨value, left, right⟩ :: built := by
  have hr : n.hasRight = !right.isEmpty := by
    unfold hasRight
    rw [hright]
  have hl : n.hasLeft = !left.isEmpty := by
    unfold hasLeft
    rw [hleft]
  unfold finishCopy
  rw [takeCopy_root? hr]
  show ofChildren value (takeCopy n.hasLeft (left.root?.toList ++ built)).1 right.root? ::
    (takeCopy n.hasLeft (left.root?.toList ++ built)).2 = _
  rw [takeCopy_root? hl, ofChildren_root?]

/-- Copying along the post-order of a tree puts the copy of the tree on top of the finished copies. -/
theorem foldl_copyStep (f : α → StateM σ β) (p : Place) (t : Tree α) (built : List (Node β)) (st : σ) :
    (t.spotsPost p).foldl (Spot.copyStep f) (built, st) =
      ((t.visitPost f st).1.root?.toList ++ built, (t.visitPost f st).2) := by
  induction t generalizing p built st with
  | empty => rfl
  | node value left right ihLeft ihRight =>
    -- when the root is reached, the copies of its two subtrees lie on top of what was finished before
    have hfinish := Node.finishCopy_root? ⟨value, left, right⟩
      (f value ((right.visitPost f (left.visitPost f st).2).2)).1 (left.isEmpty_visitPost f st)
      (right.isEmpty_visitPost f (left.visitPost f st).2) built
    rw [Tree.spotsPost, List.foldl_append, ihLeft, List.foldl_append, ihRight, List.foldl_cons, List.foldl_nil,
      Spot.copyStep_eq, Tree.visitPost_node]
    exact Prod.ext hfinish rfl

/-- When the walk over a node has ended, the copy of the node is the only finished one. -/
theorem Node.built_eq (f : α → StateM σ β) (n : Node α) (st : σ) :
    n.built f st = ((n.toTree.visitPost f st).1.root?.toList, (n.toTree.visitPost f st).2) := by
  unfold built Postorder.ofNode
  rw [Walk.foldl_eq, Postorder.toList_ofSpot, foldl_copyStep, List.append_nil]

theorem Node.toTree_injective : Function.Injective (toTree : Node α → Tree α) := by
  intro m n h
  exact Option.some.inj (congrArg Tree.root? h)

theorem Node.built_eq_copy (f : α → StateM σ β) (n : Node α) (st : σ) :
    n.built f st = ([(n.copy f st).1], (n.copy f st).2) := by
  have hlength : (n.built f st).1.length = 1 := by
    rw [built_eq]
    rfl
  obtain ⟨c, hc⟩ := List.length_eq_one_iff.1 hlength
  refine Prod.ext ?_ rfl
  simp only [copy, hc, List.head_cons]

theorem Node.copy_eq (f : α → StateM σ β) (n : Node α) (st : σ) :
    ((n.copy f st).1.toTree, (n.copy f st).2) = n.toTree.visitPost f st := by
  have h := (n.built_eq_copy f st).symm.trans (n.built_eq f st)
  rw [Prod.mk.injEq] at h
  obtain ⟨hroot, hstate⟩ := h
  refine Prod.ext (Tree.toTree_root? ?_) hstate
  cases hr : (n.toTree.visitPost f st).1.root? with
  | none => simp [hr] at hroot
  | some m => simpa [hr, eq_comm] using hroot

/-- The copy of a tree is the one that recursion makes in post-order. -/
theorem Tree.copy_eq (f : α → StateM σ β) (t : Tree α) (st : σ) : t.copy f st = t.visitPost f st := by
  cases t with
  | empty => rfl
  | node value left right => exact Node.copy_eq f ⟨value, left, right⟩ st

theorem Tree.visitPost_pure (c : α → β) (t : Tree α) (st : σ) :
    t.visitPost (fun a => pure (c a)) st = (t.map c, st) := by
  induction t generalizing st with
  | empty => rfl
  | node value left right ihLeft ihRight =>
    rw [visitPost_node]
    simp only [ihLeft, ihRight]
    rfl

theorem Tree.visit_pure (c : α → β) (t : Tree α) (st : σ) : t.visit (fun a => pure (c a)) st = (t.map c, st) := by
  induction t generalizing st with
  | empty => rfl
  | node value left right ihLeft ihRight =>
    rw [visit_node]
    simp only [ihLeft, ihRight]
    rfl

end Recursion

/-! ## The calls that copy the values -/

variable {α β σ : Type u}

/-- Copies values as `f` does, and notes every call: what it was given and what it gave. -/
def recording (f : α → StateM σ β) (a : α) : StateM (σ × List (α × β)) β := fun progress =>
  let (b, st) := f a progress.1
  (b, st, progress.2 ++ [(a, b)])

/-- The calls put the values of the tree `t`, in post-order, into the tree `u`: one call for each node, and what it gave
lies in `u` where the node lies in `t`. -/
structure Tree.Copied (t : Tree α) (calls : List (α × β)) (u : Tree β) : Prop where
  args : calls.map Prod.fst = t.postorder
  sameShape : t.SameShape u
  placed : (u.spotsPost .root).map (fun s => (s.place, s.value)) =
    ((t.spotsPost .root).map Spot.place).zip (calls.map Prod.snd)

theorem recording_eq (f : α → StateM σ β) (a : α) (st : σ) (calls : List (α × β)) :
    recording f a (st, calls) = ((f a st).1, (f a st).2, calls ++ [(a, (f a st).1)]) := rfl

theorem Tree.length_postorder_visitPost (f : α → StateM σ β) (t : Tree α) (st : σ) :
    t.postorder.length = (t.visitPost f st).1.postorder.length :=
  (t.sameShape_visitPost f st).length_postorder_eq

theorem Tree.length_preorder_visit (f : α → StateM σ β) (t : Tree α) (st : σ) :
    t.preorder.length = (t.visit f st).1.preorder.length := by
  rw [length_preorder, length_preorder, size_visit]

/-- Copying in post-order with a record of the calls makes the same copy, with one call for each node. -/
theorem Tree.visitPost_recording (f : α → StateM σ β) (t : Tree α) (st : σ) (calls : List (α × β)) :
    t.visitPost (recording f) (st, calls) = ((t.visitPost f st).1, (t.visitPost f st).2,
      calls ++ t.postorder.zip (t.visitPost f st).1.postorder) := by
  induction t generalizing st calls with
  | empty => exact congrArg (fun c => (_, _, c)) (List.append_nil calls).symm
  | node value left right ihLeft ihRight =>
    have hleft := left.length_postorder_visitPost f st
    have hright := right.length_postorder_visitPost f (left.visitPost f st).2
    rw [visitPost_node, visitPost_node]
    simp only [ihLeft, ihRight, recording_eq, postorder_node, List.append_assoc]
    rw [List.zip_append hleft, List.zip_append hright]
    rfl

/-- Copying in pre-order with a record of the calls: one call for each node. -/
theorem Tree.visit_recording (f : α → StateM σ β) (t : Tree α) (st : σ) (calls : List (α × β)) :
    t.visit (recording f) (st, calls) = ((t.visit f st).1, (t.visit f st).2,
      calls ++ t.preorder.zip (t.visit f st).1.preorder) := by
  induction t generalizing st calls with
  | empty => exact congrArg (fun c => (_, _, c)) (List.append_nil calls).symm
  | node value left right ihLeft ihRight =>
    have hleft := left.length_preorder_visit f (f value st).2
    rw [visit_node, visit_node]
    simp only [recording_eq, ihLeft, ihRight]
    rw [preorder_node, preorder_node, List.zip_cons_cons, List.zip_append hleft]
    simp only [List.append_assoc, List.cons_append, List.nil_append]

theorem Tree.copied_visitPost (f : α → StateM σ β) (t : Tree α) (st : σ) :
    t.Copied (t.postorder.zip (t.visitPost f st).1.postorder) (t.visitPost f st).1 := by
  have hlength := t.length_postorder_visitPost f st
  refine ⟨List.map_fst_zip (Nat.le_of_eq hlength), t.sameShape_visitPost f st, ?_⟩
  rw [List.map_snd_zip (Nat.le_of_eq hlength.symm), ← t.spotsPost_visitPost_map_place f, ← spotsPost_map_value .root,
    List.zip_map']

/-- **Copying is exact.** The copy of a node, and of a tree, calls `f` once for each node in post-order, has the same
shape, and holds at every place what the call for the node at that place gave, whatever `f` answers and keeps in its
state. -/
theorem copy_exact (f : α → StateM σ β) (st : σ) (n : Node α) (t : Tree α) :
    (∃ u last calls, n.copy (recording f) (st, []) = (u, last, calls) ∧ n.copy f st = (u, last) ∧
      n.toTree.Copied calls u.toTree ∧ n.built f st = ([u], last)) ∧
    (∃ u last calls, t.copy (recording f) (st, []) = (u, last, calls) ∧ t.copy f st = (u, last) ∧ t.Copied calls u) ∧
    (Tree.empty : Tree α).copy f st = (.empty, st) ∧
    (∀ c : α → β, (n.copy (fun a => pure (c a)) st).1.toTree = n.toTree.map c ∧
      (n.visit (fun a => pure (c a)) st).1.toTree = n.toTree.map c ∧
      t.copy (fun a => pure (c a)) st = (t.map c, st) ∧ t.visit (fun a => pure (c a)) st = (t.map c, st)) ∧
    (t.visit (recording f) (st, [])).2.2.map Prod.fst = t.preorder := by
  have hcopied : ∀ t : Tree α, t.copy (recording f) (st, []) =
      ((t.copy f st).1, (t.copy f st).2, t.postorder.zip (t.copy f st).1.postorder) ∧
      t.Copied (t.postorder.zip (t.copy f st).1.postorder) (t.copy f st).1 := by
    intro t
    rw [t.copy_eq, t.copy_eq]
    exact ⟨t.visitPost_recording f st [], t.copied_visitPost f st⟩
  have hnode : ∃ u last calls, n.copy (recording f) (st, []) = (u, last, calls) ∧ n.copy f st = (u, last) ∧
      n.toTree.Copied calls u.toTree ∧ n.built f st = ([u], last) := by
    obtain ⟨hrun, hcalls⟩ := hcopied n.toTree
    obtain ⟨htree, hstate⟩ := Prod.mk.inj hrun
    have hpair : n.copy (recording f) (st, []) =
        ((n.copy f st).1, (n.copy f st).2, n.toTree.postorder.zip (n.copy f st).1.toTree.postorder) :=
      Prod.ext (Node.toTree_injective htree) hstate
    exact ⟨_, _, _, hpair, rfl, hcalls, n.built_eq_copy f st⟩
  have htree : ∃ u last calls, t.copy (recording f) (st, []) = (u, last, calls) ∧ t.copy f st = (u, last) ∧
      t.Copied calls u := by
    obtain ⟨hrun, hcalls⟩ := hcopied t
    exact ⟨_, _, _, hrun, rfl, hcalls⟩
  have hpure : ∀ c : α → β, (n.copy (fun a => pure (c a)) st).1.toTree = n.toTree.map c ∧
      (n.visit (fun a => pure (c a)) st).1.toTree = n.toTree.map c ∧
      t.copy (fun a => pure (c a)) st = (t.map c, st) ∧ t.visit (fun a => pure (c a)) st = (t.map c, st) := by
    intro c
    have hcopy : t.copy (fun a => pure (c a)) st = (t.map c, st) := by rw [t.copy_eq, t.visitPost_pure]
    have hnodeCopy := (n.copy_eq (fun a => pure (c a)) st).trans (n.toTree.visitPost_pure c st)
    have hnodeVisit := n.toTree.visit_pure c st
    exact ⟨congrArg Prod.fst hnodeCopy, congrArg Prod.fst hnodeVisit, hcopy, t.visit_pure c st⟩
  have horder : (t.visit (recording f) (st, [])).2.2.map Prod.fst = t.preorder := by
    rw [t.visit_recording f st []]
    exact List.map_fst_zip (Nat.le_of_eq (t.length_preorder_visit f st))
  exact ⟨hnode, htree, rfl, hpure, horder⟩

end TreeWalk
