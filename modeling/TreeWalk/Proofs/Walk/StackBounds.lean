import Mathlib.Data.List.Nodup
import TreeWalk.Proofs.Walk.Inorder
import TreeWalk.Proofs.Walk.Iterations

/-!
# How much lies on the stacks of the in-order and post-order walks

Both walks put a whole left edge on the stack at a time, and the post-order walk puts right children and nodes on it
that it took off before. All that lies there was left behind on one way down from the root: by the in-order walk the
nodes at which the way goes left, and by the post-order walk every node of the way, and the right children where it
goes left. This is so in the middle of a call too, so the stacks are no longer than a way down allows.

* `Tree.Way` : a way down a tree and what it leaves behind. If every step down takes up no more room than it loses, the
  whole way has room in the tree (`Way.length_add_le`); if every node leaves itself or its right child, nothing is left
  twice (`Way.nodup`) and all is in the tree (`Way.locate?_of_mem`);
* `Inorder.Reaches`, `Postorder.Reaches` : the moments of a walk, between its calls and inside them, each with the
  number of calls that have been answered or begun. What is still to be done at such a moment leads to where the calls
  lead (`Inorder.Reaches.after_eq`, `Postorder.Reaches.next?_eq`);
* `Inorder.Reaches.way`, `Postorder.Reaches.onWay` : at every moment the stack is what a way down leaves, less a node or
  its right child that is in hand.

The bounds hold at all moments (`stacks_within_height`): between the calls, while a left edge is put on the stack, and
in the middle of an iteration of the post-order walk. If the tree is empty, nothing ever lies on either stack. What
lies there are nodes of the tree, and none of them lies there twice.
-/

namespace TreeWalk

universe u

variable {α : Type u}

/-! ## What a way down leaves behind -/

namespace Tree

/-- The subtree `u` lies at the place `p` of the tree `t`, and `stack` is what the nodes on the way down to it have left
behind, the last ones first: where the way goes on from `s` on a side, there is left what `leave` says. -/
inductive Way (leave : Side → Spot α → List (Spot α)) (t : Tree α) : Place → Tree α → List (Spot α) → Prop where
  | root : Way leave t .root t []
  | left {p : Place} {value : α} {left right : Tree α} {stack : List (Spot α)}
      (above : Way leave t p (.node value left right) stack) :
      Way leave t p.left left (leave .left ⟨p, ⟨value, left, right⟩⟩ ++ stack)
  | right {p : Place} {value : α} {left right : Tree α} {stack : List (Spot α)}
      (above : Way leave t p (.node value left right) stack) :
      Way leave t p.right right (leave .right ⟨p, ⟨value, left, right⟩⟩ ++ stack)

/-- A node leaves behind itself, or its right child on the way to the left one, and neither of them twice. -/
structure LeavesNear (leave : Side → Spot α → List (Spot α)) : Prop where
  nodup : ∀ side s, ((leave side s).map Spot.place).Nodup
  near : ∀ side s x, x ∈ leave side s → x = s ∨ side = .left ∧ s.right? = some x

variable {leave : Side → Spot α → List (Spot α)} {t u : Tree α} {p : Place} {stack : List (Spot α)}

/-- If what a node leaves has room beside what its subtree needs, then so has all that the way has left. -/
theorem Way.length_add_le (h : t.Way leave p u stack) (room : Tree α → Nat)
    (hleft : ∀ p value left right,
      (leave .left ⟨p, ⟨value, left, right⟩⟩).length + room left ≤ room (.node value left right))
    (hright : ∀ p value left right,
      (leave .right ⟨p, ⟨value, left, right⟩⟩).length + room right ≤ room (.node value left right)) :
    stack.length + room u ≤ room t := by
  induction h with
  | root => exact Nat.le_of_eq (Nat.zero_add _)
  | @left p value left right stack _ ih =>
    have hstep := hleft p value left right
    rw [List.length_append]
    omega
  | @right p value left right stack _ ih =>
    have hstep := hright p value left right
    rw [List.length_append]
    omega

/-- What is left on a step down does not lie below the child to which the way goes on. -/
theorem LeavesNear.not_below (hleave : LeavesNear leave) {side : Side} {s x : Spot α} (hx : x ∈ leave side s) :
    s.place.steps <:+ x.place.steps ∧ ¬ (s.place.child side).steps <:+ x.place.steps := by
  rcases hleave.near side s x hx with rfl | ⟨rfl, hr⟩
  · refine ⟨List.suffix_refl _, fun h => ?_⟩
    have hlength : (side :: x.place.steps).length ≤ x.place.steps.length := h.length_le
    rw [List.length_cons] at hlength
    omega
  · have hsteps : x.place.steps = .right :: s.place.steps := by
      rw [Postorder.place_of_right? hr]
      rfl
    rw [hsteps]
    refine ⟨List.suffix_cons _ _, fun h => ?_⟩
    have heq : Side.left :: s.place.steps = .right :: s.place.steps := h.eq_of_length rfl
    cases heq

/-- One more step down keeps apart what is left behind and what is still below. -/
theorem LeavesNear.nodup_append (hleave : LeavesNear leave) (side : Side) (s : Spot α)
    (hbelow : ∀ x ∈ stack, ¬ s.place.steps <:+ x.place.steps) (hnodup : (stack.map Spot.place).Nodup) :
    (∀ x ∈ leave side s ++ stack, ¬ (s.place.child side).steps <:+ x.place.steps) ∧
      ((leave side s ++ stack).map Spot.place).Nodup := by
  constructor
  · intro x hx
    rcases List.mem_append.1 hx with hx | hx
    · exact (hleave.not_below hx).2
    · exact fun h => hbelow x hx ((List.suffix_cons side _).trans h)
  · rw [List.map_append]
    refine List.Nodup.append (hleave.nodup side s) hnodup fun q hq hq' => ?_
    obtain ⟨x, hx, rfl⟩ := List.mem_map.1 hq
    obtain ⟨y, hy, hplace⟩ := List.mem_map.1 hq'
    exact hbelow y hy (hplace ▸ (hleave.not_below hx).1)

/-- Nothing is left behind twice. -/
theorem Way.nodup (hleave : LeavesNear leave) (h : t.Way leave p u stack) : (stack.map Spot.place).Nodup := by
  have key : (∀ x ∈ stack, ¬ p.steps <:+ x.place.steps) ∧ (stack.map Spot.place).Nodup := by
    induction h with
    | root => exact ⟨fun x hx => absurd hx List.not_mem_nil, List.nodup_nil⟩
    | @left p value left right stack _ ih => exact hleave.nodup_append .left ⟨p, ⟨value, left, right⟩⟩ ih.1 ih.2
    | @right p value left right stack _ ih => exact hleave.nodup_append .right ⟨p, ⟨value, left, right⟩⟩ ih.1 ih.2
  exact key.2

/-- The way leads to the subtree that lies there in the tree. -/
theorem Way.locate? (h : t.Way leave p u stack) {s : Spot α} (hs : u.spot? p = some s) :
    t.locate? s.place.path = some s := by
  induction h generalizing s with
  | root => exact locate?_of_spot? hs
  | left _ ih => exact locate?_child (ih rfl) .left hs
  | right _ ih => exact locate?_child (ih rfl) .right hs

/-- What is left behind are nodes of the tree. -/
theorem Way.locate?_of_mem (hleave : LeavesNear leave) (h : t.Way leave p u stack) {x : Spot α} (hx : x ∈ stack) :
    t.locate? x.place.path = some x := by
  have hstep : ∀ side s, t.locate? s.place.path = some s → x ∈ leave side s → t.locate? x.place.path = some x := by
    intro side s hs hx
    rcases hleave.near side s x hx with rfl | ⟨rfl, hr⟩
    · exact hs
    · exact locate?_child hs .right hr
  induction h with
  | root => exact absurd hx List.not_mem_nil
  | left above ih => exact (List.mem_append.1 hx).elim (hstep _ _ (above.locate? rfl)) ih
  | right above ih => exact (List.mem_append.1 hx).elim (hstep _ _ (above.locate? rfl)) ih

end Tree

/-! ## The in-order walk -/

namespace Inorder

/-- What the way of the in-order walk leaves behind: the nodes where it goes left. -/
def leaves : Side → Spot α → List (Spot α)
  | .left, s => [s]
  | .right, _ => []

theorem leavesNear : Tree.LeavesNear (leaves (α := α)) where
  nodup side s := by cases side <;> simp [leaves]
  near side s x hx := by
    cases side with
    | left => exact Or.inl (List.mem_singleton.1 hx)
    | right => exact absurd hx List.not_mem_nil

/-- The moments of the walk over the tree `t` with the number of calls that have been answered or begun: `stack` is on
the stack, and the left edge of the subtree `u`, which lies at the place `p`, is still to be put on it. A call is over
when this subtree is empty. -/
inductive Reaches (t : Tree α) : Nat → List (Spot α) → Place → Tree α → Prop where
  | start : Reaches t 0 [] .root t
  | push {k : Nat} {stack : List (Spot α)} {p : Place} {value : α} {left right : Tree α}
      (h : Reaches t k stack p (.node value left right)) :
      Reaches t k (⟨p, ⟨value, left, right⟩⟩ :: stack) p.left left
  | call {k : Nat} {s : Spot α} {stack : List (Spot α)} {p : Place} (h : Reaches t k (s :: stack) p .empty) :
      Reaches t (k + 1) stack s.place.right s.node.right
  | ended {k : Nat} {p : Place} (h : Reaches t k [] p .empty) : Reaches t (k + 1) [] p .empty

variable {t u : Tree α} {k : Nat} {p : Place} {stack : List (Spot α)}

/-- When the left edge has been put on the stack, the walk is where the calls lead. -/
theorem Reaches.after_eq (h : Reaches t k stack p u) : Walk.after k (ofTree t) = ⟨pushLeftEdge stack p u⟩ := by
  induction h with
  | start => rfl
  | push _ ih => exact ih
  | call _ ih =>
    rw [Walk.after_succ, ih]
    rfl
  | ended _ ih =>
    rw [Walk.after_succ, ih]
    rfl

theorem Reaches.pushLeftEdge (h : Reaches t k stack p u) : ∃ q, Reaches t k (pushLeftEdge stack p u) q .empty := by
  induction u generalizing stack p with
  | empty => exact ⟨p, h⟩
  | node value left right ihLeft _ => exact ihLeft h.push

theorem reaches_after (t : Tree α) (k : Nat) : ∃ p, Reaches t k (Walk.after k (ofTree t)).stack p .empty := by
  induction k with
  | zero => exact Reaches.start.pushLeftEdge
  | succ k ih =>
    obtain ⟨p, hp⟩ := ih
    rw [Walk.after_succ]
    generalize Walk.after k (ofTree t) = w at hp
    obtain ⟨_ | ⟨s, stack⟩⟩ := w
    · exact ⟨p, hp.ended⟩
    · exact hp.call.pushLeftEdge

/-- The node on top of what a way has left has the rest from the way to itself. -/
theorem way_of_cons {s : Spot α} (h : t.Way leaves p u (s :: stack)) :
    t.Way leaves s.place s.node.toTree stack := by
  generalize hstack : s :: stack = whole at h
  induction h with
  | root => cases hstack
  | left above _ =>
    obtain ⟨rfl, rfl⟩ := List.cons.inj hstack
    exact above
  | right _ ih => exact ih hstack

/-- At every moment, the stack is what the way to the subtree in hand has left. -/
theorem Reaches.way (h : Reaches t k stack p u) : t.Way leaves p u stack := by
  induction h with
  | start => exact .root
  | push _ ih => exact .left ih
  | call _ ih => exact .right (way_of_cons ih)
  | ended _ ih => exact ih

theorem Reaches.length_le (h : Reaches t k stack p u) : stack.length ≤ t.height := by
  have hroom : stack.length + u.height ≤ t.height := by
    refine h.way.length_add_le Tree.height (fun p value left right => ?_) (fun p value left right => ?_)
    · show 1 + left.height ≤ 1 + max left.height right.height
      omega
    · show 0 + right.height ≤ 1 + max left.height right.height
      omega
  omega

end Inorder

/-! ## The post-order walk -/

namespace Postorder

/-- What the way of the post-order walk leaves behind: every node, above its right child if the way goes left. -/
def leaves : Side → Spot α → List (Spot α)
  | .left, s => s :: s.right?.toList
  | .right, s => [s]

theorem leavesNear : Tree.LeavesNear (leaves (α := α)) where
  nodup side s := by
    cases side with
    | left =>
      cases hr : s.right? with
      | none => simp [leaves, hr]
      | some r =>
        have hne : s.place ≠ r.place := by
          rw [place_of_right? hr]
          exact fun h => absurd (congrArg Place.depth h) (Nat.ne_of_lt (Nat.lt_succ_self _))
        simp [leaves, hr, hne]
    | right => simp [leaves]
  near side s x hx := by
    cases side with
    | left =>
      rcases List.mem_cons.1 hx with rfl | hx
      · exact Or.inl rfl
      · exact Or.inr ⟨rfl, Option.mem_toList.1 hx⟩
    | right => exact Or.inl (List.mem_singleton.1 hx)

/-- What the walk is about to do. -/
inductive Stage (α : Type u) where
  /-- To begin an iteration, in the middle of a call or after it. -/
  | iterate
  /-- To go down the left edge of the subtree, which lies at the place. -/
  | goDown (p : Place) (t : Tree α)
  /-- To put the node above its right child. -/
  | putAbove (s : Spot α)
  /-- To look for the right child of the node, which has been taken off. -/
  | test (s : Spot α)
  /-- To put the node back, whose right child `r` has been taken out. -/
  | putBack (s r : Spot α)

/-- Where the walk is when it has done what it was about to do, and may begin an iteration. If it has taken a node off
for an iteration, this is before it. -/
def Stage.resume (stack : List (Spot α)) : Stage α → Postorder α
  | .iterate => ⟨stack⟩
  | .goDown p t => ⟨pushEdge stack p t⟩
  | .putAbove s => ⟨pushEdge (s :: stack) s.place.left s.node.left⟩
  | .test s => ⟨s :: stack⟩
  | .putBack s r => ⟨pushEdge (s :: stack) r.place r.node.toTree⟩

/-- The moments of the walk over the tree `t` with the number of calls that have been answered: what is on the stack,
and what the walk is about to do. -/
inductive Reaches (t : Tree α) : Nat → List (Spot α) → Stage α → Prop where
  | start : Reaches t 0 [] (.goDown .root t)
  | pushRight {k : Nat} {stack : List (Spot α)} {p : Place} {value : α} {left right : Tree α}
      (h : Reaches t k stack (.goDown p (.node value left right))) :
      Reaches t k ((right.spot? p.right).toList ++ stack) (.putAbove ⟨p, ⟨value, left, right⟩⟩)
  | push {k : Nat} {stack : List (Spot α)} {s : Spot α} (h : Reaches t k stack (.putAbove s)) :
      Reaches t k (s :: stack) (.goDown s.place.left s.node.left)
  | edgeDone {k : Nat} {stack : List (Spot α)} {p : Place} (h : Reaches t k stack (.goDown p .empty)) :
      Reaches t k stack .iterate
  | takeOff {k : Nat} {s : Spot α} {stack : List (Spot α)} (h : Reaches t k (s :: stack) .iterate) :
      Reaches t k stack (.test s)
  | handOut {k : Nat} {s : Spot α} {stack : List (Spot α)} (h : Reaches t k stack (.test s))
      (htake : takeRight? s stack = none) : Reaches t (k + 1) stack .iterate
  | takeRight {k : Nat} {s r : Spot α} {stack below : List (Spot α)} (h : Reaches t k stack (.test s))
      (htake : takeRight? s stack = some (r, below)) : Reaches t k below (.putBack s r)
  | putBack {k : Nat} {s r : Spot α} {stack : List (Spot α)} (h : Reaches t k stack (.putBack s r)) :
      Reaches t k (s :: stack) (.goDown r.place r.node.toTree)
  | ended {k : Nat} (h : Reaches t k [] .iterate) : Reaches t (k + 1) [] .iterate

variable {t u : Tree α} {k : Nat} {p : Place} {s : Spot α} {stack : List (Spot α)} {stage : Stage α}

theorem next?_of_visit {w w' : Postorder α} (h : w.step = .visit s w') : w.next? = some (s, w') := by
  unfold next?
  split
  · next hstep => simp [h] at hstep
  · next hstep =>
    rw [h, Turn.visit.injEq] at hstep
    rw [hstep.1, hstep.2]
  · next hstep => simp [h] at hstep

theorem next?_of_putBack {w w' : Postorder α} (h : w.step = .putBack w') : w.next? = w'.next? := by
  rw [next?]
  split
  · next hstep => simp [h] at hstep
  · next hstep => simp [h] at hstep
  · next hstep =>
    rw [h, Turn.putBack.injEq] at hstep
    rw [hstep]

/-- From every moment, the walk goes on to the answer of the next call. -/
theorem Reaches.next?_eq (h : Reaches t k stack stage) :
    (stage.resume stack).next? = (Walk.after k (ofTree t)).next? := by
  induction h with
  | start => rfl
  | pushRight _ ih => exact ih
  | push _ ih => exact ih
  | edgeDone _ ih => exact ih
  | takeOff _ ih => exact ih
  | @handOut k s stack _ htake ih =>
    have hstep : ((Stage.test s).resume stack).step = .visit s ⟨stack⟩ := by simp only [Stage.resume, step, htake]
    have hnext : Walk.next? (Walk.after k (ofTree t)) = some (s, ⟨stack⟩) := ih.symm.trans (next?_of_visit hstep)
    rw [Walk.after_succ, Walk.call, hnext]
    rfl
  | @takeRight k s r stack below _ htake ih =>
    have hstep : ((Stage.test s).resume stack).step = .putBack ((Stage.putBack s r).resume below) := by
      simp only [Stage.resume, step, htake]
    exact (next?_of_putBack hstep).symm.trans ih
  | putBack _ ih => exact ih
  | @ended k _ ih =>
    have hnext : Walk.next? (Walk.after k (ofTree t)) = none := ih.symm.trans (next?_of_stack_eq_nil rfl)
    rw [Walk.after_succ, Walk.call, hnext]
    exact ih

theorem Reaches.pushEdge (h : Reaches t k stack (.goDown p u)) : Reaches t k (pushEdge stack p u) .iterate := by
  induction u generalizing stack p with
  | empty => exact h.edgeDone
  | node value left right ihLeft _ => exact ihLeft h.pushRight.push

/-- A call goes through such moments, and the next one begins at the last of them. -/
theorem Reaches.next? {w w' : Postorder α} (h : Reaches t k w.stack .iterate) (hnext : w.next? = some (s, w')) :
    Reaches t (k + 1) w'.stack .iterate := by
  fun_induction Postorder.next? w with
  | case1 => cases hnext
  | case2 w top w₁ hstep =>
    obtain ⟨rfl, rfl⟩ := Prod.mk.inj (Option.some.inj hnext)
    obtain ⟨stack, hstack, htake, rfl⟩ := stack_of_visit hstep
    rw [hstack] at h
    exact h.takeOff.handOut htake
  | case3 w w₁ hstep ih =>
    obtain ⟨top, stack, r, below, hstack, htake, rfl⟩ := stack_of_putBack hstep
    rw [hstack] at h
    exact ih (h.takeOff.takeRight htake).putBack.pushEdge hnext

theorem reaches_after (t : Tree α) (k : Nat) : Reaches t k (Walk.after k (ofTree t)).stack .iterate := by
  induction k with
  | zero => exact Reaches.start.pushEdge
  | succ k ih =>
    rw [Walk.after_succ]
    by_cases hstack : (Walk.after k (ofTree t)).stack = []
    · have hnext : Walk.next? (Walk.after k (ofTree t)) = none := next?_of_stack_eq_nil hstack
      rw [Walk.call, hnext]
      rw [hstack] at ih ⊢
      exact ih.ended
    · obtain ⟨s, w, hnext⟩ := exists_next? hstack
      have hcall : Walk.next? (Walk.after k (ofTree t)) = some (s, w) := hnext
      rw [Walk.call, hcall]
      exact ih.next? hnext

/-- What a way has left is not as deep as where it leads to, on top. -/
theorem topAbove_of_way (h : t.Way leaves p u stack) : TopAbove p.depth stack := by
  cases h with
  | root => exact topAbove_nil _
  | left => exact topAbove_cons (Nat.lt_succ_self _) _
  | right => exact topAbove_cons (Nat.lt_succ_self _) _

/-- What a way has left has a node on top that lies on the way, with its right child beneath it or without. -/
theorem way_of_cons (h : t.Way leaves p u (s :: stack)) :
    ∃ below, (stack = s.right?.toList ++ below ∨ stack = below) ∧ t.Way leaves s.place s.node.toTree below := by
  generalize hstack : s :: stack = whole at h
  cases h with
  | root => cases hstack
  | left above =>
    obtain ⟨rfl, rfl⟩ := List.cons.inj hstack
    exact ⟨_, Or.inl rfl, above⟩
  | right above =>
    obtain ⟨rfl, rfl⟩ := List.cons.inj hstack
    exact ⟨_, Or.inr rfl, above⟩

/-- The stack is what a way has left, less what the walk has in hand. -/
def Stage.OnWay (t : Tree α) (stack : List (Spot α)) : Stage α → Prop
  | .iterate => ∃ p u, t.Way leaves p u stack
  | .goDown p u => t.Way leaves p u stack
  | .putAbove s => ∃ below, stack = s.right?.toList ++ below ∧ t.Way leaves s.place s.node.toTree below
  | .test s => ∃ below, (stack = s.right?.toList ++ below ∨ stack = below) ∧
      t.Way leaves s.place s.node.toTree below
  | .putBack s r => s.right? = some r ∧ t.Way leaves s.place s.node.toTree stack

theorem Reaches.onWay (h : Reaches t k stack stage) : stage.OnWay t stack := by
  induction h with
  | start => exact .root
  | @pushRight k stack p value left right _ ih => exact ⟨stack, rfl, ih⟩
  | push _ ih =>
    obtain ⟨below, rfl, hway⟩ := ih
    exact .left hway
  | edgeDone _ ih => exact ⟨_, _, ih⟩
  | takeOff _ ih =>
    obtain ⟨p, u, hway⟩ := ih
    exact way_of_cons hway
  | @handOut k s stack _ htake ih =>
    obtain ⟨below, rfl | rfl, hway⟩ := ih
    · -- a right child that lies there would have been taken out
      cases hr : s.right? with
      | none => exact ⟨_, _, hway⟩
      | some r => simp [takeRight?, hr] at htake
    · exact ⟨_, _, hway⟩
  | @takeRight k s r stack below' _ htake ih =>
    obtain ⟨below, rfl | rfl, hway⟩ := ih
    · obtain ⟨top, hstack, hr, -⟩ := takeRight?_eq_some htake
      rw [hr] at hstack
      obtain ⟨-, rfl⟩ := List.cons.inj hstack
      exact ⟨hr, hway⟩
    · -- nothing beneath is as deep as a child of the node
      rw [takeRight?_of_topAbove (topAbove_of_way hway) (Nat.le_succ _)] at htake
      cases htake
  | @putBack k s r stack _ ih =>
    obtain ⟨hr, hway⟩ := ih
    obtain ⟨n, hn, rfl⟩ := Option.map_eq_some_iff.1 hr
    show t.Way leaves s.place.right n.toTree (s :: stack)
    rw [Tree.toTree_root? hn]
    exact .right hway
  | ended _ ih => exact ih

/-- At every moment, what is on the stack lies at the bottom of what a way has left. -/
theorem Reaches.exists_way (h : Reaches t k stack stage) : ∃ p u upper, t.Way leaves p u (upper ++ stack) := by
  have hway := h.onWay
  cases stage with
  | iterate =>
    obtain ⟨p, u, hway⟩ := hway
    exact ⟨p, u, [], hway⟩
  | goDown p u => exact ⟨p, u, [], hway⟩
  | putAbove s =>
    obtain ⟨below, rfl, hway⟩ := hway
    exact ⟨_, _, [s], .left hway⟩
  | test s =>
    obtain ⟨below, rfl | rfl, hway⟩ := hway
    · exact ⟨_, _, [s], .left hway⟩
    · exact ⟨_, _, [s], .right hway⟩
  | putBack s r => exact ⟨_, _, [], hway.2⟩

/-- Only a node with something on its right leaves a right child. -/
theorem length_leaves_left_le (s : Spot α) : (leaves .left s).length ≤ 1 + min 1 s.node.right.height := by
  obtain ⟨p, value, left, right⟩ := s
  cases right with
  | empty => exact Nat.le_refl 1
  | node v l r =>
    show 2 ≤ 1 + min 1 (1 + max l.height r.height)
    omega

theorem Reaches.length_le (h : Reaches t k stack stage) : stack.length ≤ 2 * t.height - 1 := by
  obtain ⟨p, u, upper, hway⟩ := h.exists_way
  have hroom : (upper ++ stack).length + (2 * u.height - 1) ≤ 2 * t.height - 1 := by
    refine hway.length_add_le (fun u => 2 * u.height - 1) (fun p value left right => ?_)
      (fun p value left right => ?_)
    · have hlength : (leaves .left ⟨p, ⟨value, left, right⟩⟩).length ≤ 1 + min 1 right.height :=
        length_leaves_left_le _
      show (leaves .left ⟨p, ⟨value, left, right⟩⟩).length + (2 * left.height - 1) ≤
        2 * (1 + max left.height right.height) - 1
      omega
    · show 1 + (2 * right.height - 1) ≤ 2 * (1 + max left.height right.height) - 1
      omega
  rw [List.length_append] at hroom
  omega

end Postorder

/-! ## Both walks -/

/-- The stack holds nodes of the tree, none of them twice, and no more of them than the bound. -/
structure Tree.Stacked (t : Tree α) (bound : Nat) (stack : List (Spot α)) : Prop where
  length_le : stack.length ≤ bound
  locate? : ∀ s ∈ stack, t.locate? s.place.path = some s
  nodup : (stack.map Spot.place).Nodup

theorem Inorder.Reaches.stacked {t u : Tree α} {k : Nat} {stack : List (Spot α)} {p : Place}
    (h : Reaches t k stack p u) : t.Stacked t.height stack :=
  ⟨h.length_le, fun _ => h.way.locate?_of_mem leavesNear, h.way.nodup leavesNear⟩

theorem Postorder.Reaches.stacked {t : Tree α} {k : Nat} {stack : List (Spot α)} {stage : Stage α}
    (h : Reaches t k stack stage) : t.Stacked (2 * t.height - 1) stack := by
  obtain ⟨p, u, upper, hway⟩ := h.exists_way
  refine ⟨h.length_le, fun s hs => hway.locate?_of_mem leavesNear (List.mem_append_right upper hs), ?_⟩
  exact (hway.nodup leavesNear).sublist ((List.sublist_append_right upper stack).map Spot.place)

/-- **The stacks are no longer than the tree is high.** At every moment, between the calls and inside them, there are
no more nodes on the stack of the in-order walk than on the longest way down the tree, and on that of the post-order
walk no more than twice as many less one. -/
theorem stacks_within_height (t : Tree α) :
    (∀ k, (∃ p, Inorder.Reaches t k (Walk.after k (Inorder.ofTree t)).stack p .empty) ∧
      Postorder.Reaches t k (Walk.after k (Postorder.ofTree t)).stack .iterate) ∧
    (∀ k stack p u, Inorder.Reaches t k stack p u →
      Walk.after k (Inorder.ofTree t) = ⟨Inorder.pushLeftEdge stack p u⟩ ∧ t.Stacked t.height stack) ∧
    ∀ k stack stage, Postorder.Reaches t k stack stage →
      (stage.resume stack).next? = (Walk.after k (Postorder.ofTree t)).next? ∧
        t.Stacked (2 * t.height - 1) stack := by
  refine ⟨fun k => ⟨Inorder.reaches_after t k, Postorder.reaches_after t k⟩, fun k stack p u h => ?_,
    fun k stack stage h => ?_⟩
  · exact ⟨h.after_eq, h.stacked⟩
  · exact ⟨h.next?_eq, h.stacked⟩

/-- Five nodes on three levels. Before its first call the post-order walk has all of them on its stack, as many as there
can be; the in-order walk has put one on it when it is about to put on the next. -/
theorem stacks_within_height_full :
    let t : Tree Nat := .node 1 (.node 2 (.node 4 .empty .empty) (.node 5 .empty .empty)) (.node 3 .empty .empty)
    let full := (Postorder.ofTree t).stack
    let root : Spot Nat := ⟨.root, ⟨1, .node 2 (.node 4 .empty .empty) (.node 5 .empty .empty), .node 3 .empty .empty⟩⟩
    (Postorder.Reaches t 0 full .iterate ∧ full.length = 2 * t.height - 1 ∧ t.Stacked 5 full) ∧
      Inorder.Reaches t 0 [root] root.place.left root.node.left ∧ t.Stacked 3 [root] := by
  intro t full root
  obtain ⟨hcalls, hinorder, hpostorder⟩ := stacks_within_height t
  have hfull : Postorder.Reaches t 0 full .iterate := (hcalls 0).2
  have hroot : Inorder.Reaches t 0 [root] root.place.left root.node.left := .push .start
  exact ⟨⟨hfull, by decide, (hpostorder 0 full .iterate hfull).2⟩, hroot, (hinorder 0 [root] _ _ hroot).2⟩

end TreeWalk
