import TreeWalk.Proofs.Tree.Spots
import TreeWalk.Proofs.Walk.Items
import TreeWalk.Walk.Postorder

/-!
# What the post-order walk hands out

`Postorder.pending` reads off a stack which nodes are still to come, and in which order: a node that lies directly
above its own right child comes after the whole subtree of that child, and any other node comes at once. This
reading survives everything that the walk does.

* `pending_pushEdge` : going down a left edge puts a whole subtree, in post-order, in front of what was to come.
  Nothing that lies beneath can be taken for the right child of a node in the subtree, because it is not as deep
  in the tree;
* `pending_of_visit`, `pending_of_putBack` : an iteration that hands a node out takes it off the front, and one that
  puts a node back changes nothing;
* `toList_eq_pending` : therefore these are the nodes that the walk hands out.

So a walk hands out every node once, told apart from the others by its place and not by what it holds, and the values
are those of the recursive post-order.
-/

namespace TreeWalk

universe u

namespace Postorder

variable {α : Type u}

/-! ## One iteration -/

theorem takeRight?_eq_some {s r : Spot α} {stack below : List (Spot α)} (h : takeRight? s stack = some (r, below)) :
    ∃ top, stack = top :: below ∧ s.right? = some r ∧ top.place = r.place := by
  cases stack with
  | nil => simp [takeRight?] at h
  | cons top rest =>
    simp only [takeRight?] at h
    split at h
    · simp at h
    · next r' hr =>
      split at h
      · next he =>
        simp only [Option.some.injEq, Prod.mk.injEq] at h
        obtain ⟨rfl, rfl⟩ := h
        exact ⟨top, rfl, hr, he⟩
      · simp at h

theorem place_of_right? {s r : Spot α} (h : s.right? = some r) : r.place = s.place.right := by
  rw [Spot.right?, Tree.spot?, Option.map_eq_some_iff] at h
  obtain ⟨n, -, rfl⟩ := h
  rfl

/-- All that an iteration can do. -/
theorem step_cases (w : Postorder α) :
    (w.stack = [] ∧ w.step = .done) ∨
    (∃ s stack, w.stack = s :: stack ∧ takeRight? s stack = none ∧ w.step = .visit s ⟨stack⟩) ∨
    (∃ s stack r below, w.stack = s :: stack ∧ takeRight? s stack = some (r, below) ∧
      w.step = .putBack ⟨pushEdge (s :: below) r.place r.node.toTree⟩) := by
  obtain ⟨_ | ⟨s, stack⟩⟩ := w
  · exact Or.inl ⟨rfl, rfl⟩
  · rcases ht : takeRight? s stack with _ | ⟨r, below⟩
    · exact Or.inr (Or.inl ⟨s, stack, rfl, ht, by simp only [step, ht]⟩)
    · exact Or.inr (Or.inr ⟨s, stack, r, below, rfl, ht, by simp only [step, ht]⟩)

theorem stack_of_done {w : Postorder α} (h : w.step = .done) : w.stack = [] := by
  rcases step_cases w with ⟨hw, -⟩ | ⟨_, _, -, -, hstep⟩ | ⟨_, _, _, _, -, -, hstep⟩
  · exact hw
  · simp [h] at hstep
  · simp [h] at hstep

theorem stack_of_visit {w w' : Postorder α} {s : Spot α} (h : w.step = .visit s w') :
    ∃ stack, w.stack = s :: stack ∧ takeRight? s stack = none ∧ w' = ⟨stack⟩ := by
  rcases step_cases w with ⟨-, hstep⟩ | ⟨t, stack, hw, ht, hstep⟩ | ⟨_, _, _, _, -, -, hstep⟩
  · simp [h] at hstep
  · rw [h, Turn.visit.injEq] at hstep
    obtain ⟨rfl, rfl⟩ := hstep
    exact ⟨stack, hw, ht, rfl⟩
  · simp [h] at hstep

theorem stack_of_putBack {w w' : Postorder α} (h : w.step = .putBack w') :
    ∃ s stack r below, w.stack = s :: stack ∧ takeRight? s stack = some (r, below) ∧
      w' = ⟨pushEdge (s :: below) r.place r.node.toTree⟩ := by
  rcases step_cases w with ⟨-, hstep⟩ | ⟨_, _, -, -, hstep⟩ | ⟨s, stack, r, below, hw, ht, hstep⟩
  · simp [h] at hstep
  · simp [h] at hstep
  · rw [h, Turn.putBack.injEq] at hstep
    exact ⟨s, stack, r, below, hw, ht, hstep⟩

/-! ## What is still to come -/

/-- The nodes that are still to come when `s` lies on a stack. -/
def pendingAbove (s : Spot α) : List (Spot α) → List (Spot α)
  | [] => [s]
  | top :: below => match s.right? with
    | none => s :: pendingAbove top below
    | some r =>
        if top.place = r.place then r.node.toTree.spotsPost r.place ++ pendingAbove s below
        else s :: pendingAbove top below

def pending : List (Spot α) → List (Spot α)
  | [] => []
  | s :: stack => pendingAbove s stack

theorem pending_of_takeRight?_none {s : Spot α} {stack : List (Spot α)} (h : takeRight? s stack = none) :
    pending (s :: stack) = s :: pending stack := by
  cases stack with
  | nil => rfl
  | cons top below =>
    simp only [takeRight?] at h
    simp only [pending, pendingAbove]
    split
    · rfl
    · next r hr =>
      rw [if_neg]
      intro he
      simp [hr, he] at h

theorem pending_of_takeRight?_some {s r : Spot α} {stack below : List (Spot α)}
    (h : takeRight? s stack = some (r, below)) :
    pending (s :: stack) = r.node.toTree.spotsPost r.place ++ pending (s :: below) := by
  obtain ⟨top, rfl, hr, he⟩ := takeRight?_eq_some h
  simp only [pending, pendingAbove, hr, if_pos he]

/-- Going down the left edge of a tree puts its nodes in front of those that were still to come, if the entry right
beneath is not as deep as the tree's root. -/
theorem pending_pushEdge {stack : List (Spot α)} {p : Place} (t : Tree α) (h : TopAbove p.depth stack) :
    pending (pushEdge stack p t) = t.spotsPost p ++ pending stack := by
  induction t generalizing stack p with
  | empty => rfl
  | node value left right ihLeft _ =>
    -- the root of the left subtree lies deeper than this node, which lies right beneath it
    have hself : TopAbove p.left.depth
        ((⟨p, ⟨value, left, right⟩⟩ : Spot α) :: ((right.spot? p.right).toList ++ stack)) :=
      topAbove_cons (Nat.lt_succ_self _) _
    have hbelow : takeRight? (⟨p, ⟨value, left, right⟩⟩ : Spot α) stack = none :=
      takeRight?_of_topAbove h (Nat.le_succ _)
    have hnode : pending ((⟨p, ⟨value, left, right⟩⟩ : Spot α) :: ((right.spot? p.right).toList ++ stack)) =
        right.spotsPost p.right ++ (⟨p, ⟨value, left, right⟩⟩ : Spot α) :: pending stack := by
      cases right with
      | empty => exact pending_of_takeRight?_none hbelow
      | node v l r =>
        have htake : takeRight? (⟨p, ⟨value, left, .node v l r⟩⟩ : Spot α)
            (((Tree.node v l r).spot? p.right).toList ++ stack) = some (⟨p.right, ⟨v, l, r⟩⟩, stack) := by
          simp [takeRight?, Spot.right?]
        rw [pending_of_takeRight?_some htake, pending_of_takeRight?_none hbelow]
        rfl
    rw [pushEdge, ihLeft hself, hnode, Tree.spotsPost]
    simp only [List.append_assoc, List.singleton_append]

theorem pending_of_visit {w w' : Postorder α} {s : Spot α} (h : w.step = .visit s w') :
    pending w.stack = s :: pending w'.stack := by
  obtain ⟨stack, hw, ht, rfl⟩ := stack_of_visit h
  rw [hw, pending_of_takeRight?_none ht]

theorem pending_of_putBack {w w' : Postorder α} (h : w.step = .putBack w') :
    pending w'.stack = pending w.stack := by
  obtain ⟨s, stack, r, below, hw, ht, rfl⟩ := stack_of_putBack h
  obtain ⟨_, _, hr, _⟩ := takeRight?_eq_some ht
  have hdepth : s.place.depth < r.place.depth := by
    rw [place_of_right? hr]
    exact Nat.lt_succ_self _
  rw [hw, pending_of_takeRight?_some ht, pending_pushEdge _ (topAbove_cons hdepth below)]

theorem pending_of_done {w : Postorder α} (h : w.step = .done) : pending w.stack = [] := by
  rw [stack_of_done h, pending]

/-! ## The whole walk -/

theorem pending_of_next?_none {w : Postorder α} (h : w.next? = none) : pending w.stack = [] := by
  fun_induction next? w with
  | case1 w hstep => exact pending_of_done hstep
  | case2 w s w' _ => simp at h
  | case3 w w' hstep ih => rw [← pending_of_putBack hstep, ih h]

theorem pending_of_next?_some {w w' : Postorder α} {s : Spot α} (h : w.next? = some (s, w')) :
    pending w.stack = s :: pending w'.stack := by
  fun_induction next? w with
  | case1 => simp at h
  | case2 w t w'' hstep =>
    rw [Option.some.injEq, Prod.mk.injEq] at h
    obtain ⟨rfl, rfl⟩ := h
    exact pending_of_visit hstep
  | case3 w w'' hstep ih => rw [← pending_of_putBack hstep, ih h]

/-- The nodes that a walk hands out are those that its stack says are still to come, whatever stack it is. -/
theorem toList_eq_pending (w : Postorder α) : Walk.toList w = pending w.stack :=
  Walk.toList_eq (g := fun w : Postorder α => pending w.stack) (fun _ h => pending_of_next?_none h)
    (fun _ _ _ h => pending_of_next?_some h) w

theorem toList_pushEdge (p : Place) (t : Tree α) :
    Walk.toList (⟨pushEdge [] p t⟩ : Postorder α) = t.spotsPost p := by
  rw [toList_eq_pending, pending_pushEdge t (topAbove_nil _)]
  exact List.append_nil _

theorem toList_ofTree (t : Tree α) : Walk.toList (ofTree t) = t.spotsPost .root := toList_pushEdge .root t

theorem toList_ofSpot (s : Spot α) : Walk.toList (ofSpot s) = s.node.toTree.spotsPost s.place :=
  toList_pushEdge s.place s.node.toTree

/-- **The post-order walk.** Over a tree, and over the subtree of any node, one call after another gives the nodes in
the order left subtree, right subtree, node, and then nothing for ever. Every node comes once, told apart from the
others by its place. -/
theorem handsOut_spotsPost (t : Tree α) (s : Spot α) :
    (Walk.HandsOut (ofTree t) (t.spotsPost .root) ∧ t.ListedBy .root (t.spotsPost .root) ∧
      (t.spotsPost .root).map Spot.value = t.postorder) ∧
    (Walk.HandsOut (ofSpot s) (s.node.toTree.spotsPost s.place) ∧
      s.node.toTree.ListedBy s.place (s.node.toTree.spotsPost s.place) ∧
      (s.node.toTree.spotsPost s.place).map Spot.value = s.node.toTree.postorder) := by
  have htree : Walk.HandsOut (ofTree t) (t.spotsPost .root) := by
    rw [← toList_ofTree]
    exact Walk.handsOut_toList _
  have hspot : Walk.HandsOut (ofSpot s) (s.node.toTree.spotsPost s.place) := by
    rw [← toList_ofSpot]
    exact Walk.handsOut_toList _
  exact ⟨⟨htree, t.listedBy_spotsPost .root, t.spotsPost_map_value .root⟩,
    hspot, s.node.toTree.listedBy_spotsPost s.place, s.node.toTree.spotsPost_map_value s.place⟩

end Postorder

end TreeWalk
