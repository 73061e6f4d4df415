import Mathlib.Data.List.Nodup
import TreeWalk.Copy
import TreeWalk.Proofs.Walk.Ranks

/-!
# The iterations of the post-order walk

A call of the post-order walk iterates until a node is handed out. Every iteration takes a node off the stack, and puts
it back if its right child lies right beneath it. Whether the right child lies there tells whether its subtree is still
to be walked, because what lies on the stack are nodes of the tree, and only that child has its place.

* `Postorder.Runs` : a run of iterations from one state to another, in the middle of a call or over several calls, with
  a log of what they do. What a run hands out is taken off the front of what was to come (`Runs.pending_eq`), and
  the entries of the stack stay nodes of the tree (`Runs.entries`);
* `Postorder.Runs.testsRight` : what the test for the right child says in any state of a run;
* `Postorder.runs_of_next?`, `Postorder.exists_runs_after` : a call is a run that puts some nodes back and then hands
  one out;
* `Tree.iterations` : the log of the walk over a tree, by recursion. Going down the left edge of a tree starts this run,
  whatever lies beneath (`Postorder.runs_pushEdge`), and every other run is the beginning of it (`Runs.exists_rest`).
  It puts the nodes with a right child back in in-order (`Postorder.putBacks_iterations`).

The test is exact in every state that the walk comes to, in the middle of a call or over several calls
(`Postorder.right_test_exact`). If the right child does not lie there, all of its subtree has been visited. From every
such state, the next call puts a number of nodes back and then hands one out, or the stack is empty and the call
answers nothing. After a call for each node the stack is empty. The run that leads there has one iteration for each
node, and one more for each node with a right child.
-/

namespace TreeWalk

universe u

variable {α : Type u}

/-! ## Runs of iterations -/

namespace Postorder

/-- What an iteration does with the node that it takes off the stack. -/
inductive Iteration (α : Type u) where
  | handOut (s : Spot α)
  | putBack (s : Spot α)

namespace Iteration

def handedOut? : Iteration α → Option (Spot α)
  | handOut s => some s
  | putBack _ => none

def putBack? : Iteration α → Option (Spot α)
  | handOut _ => none
  | putBack s => some s

end Iteration

/-- The nodes that are handed out in a run, in order. -/
def handedOut (log : List (Iteration α)) : List (Spot α) := log.filterMap Iteration.handedOut?

/-- The nodes that are put back in a run, in order. -/
def putBacks (log : List (Iteration α)) : List (Spot α) := log.filterMap Iteration.putBack?

/-- The iterations in the log lead from one state to another. -/
inductive Runs : Postorder α → List (Iteration α) → Postorder α → Prop where
  | refl (w : Postorder α) : Runs w [] w
  | handOut {w w' w'' : Postorder α} {s : Spot α} {log : List (Iteration α)} (hstep : w.step = .visit s w')
      (rest : Runs w' log w'') : Runs w (.handOut s :: log) w''
  | putBack {w w' w'' : Postorder α} {s : Spot α} {below : List (Spot α)} {log : List (Iteration α)}
      (hstack : w.stack = s :: below) (hstep : w.step = .putBack w') (rest : Runs w' log w'') :
      Runs w (.putBack s :: log) w''

variable {w w' w'' : Postorder α} {log log' : List (Iteration α)}

theorem length_log (log : List (Iteration α)) : log.length = (handedOut log).length + (putBacks log).length := by
  induction log with
  | nil => rfl
  | cons i log ih =>
    unfold handedOut putBacks at ih ⊢
    cases i with
    | handOut s =>
      simp only [List.filterMap_cons, Iteration.handedOut?, Iteration.putBack?, List.length_cons]
      omega
    | putBack s =>
      simp only [List.filterMap_cons, Iteration.handedOut?, Iteration.putBack?, List.length_cons]
      omega

theorem Runs.trans (h : Runs w log w') (h' : Runs w' log' w'') : Runs w (log ++ log') w'' := by
  induction h with
  | refl => exact h'
  | handOut hstep _ ih => exact .handOut hstep (ih h')
  | putBack hstack hstep _ ih => exact .putBack hstack hstep (ih h')

/-- A run to the end begins with every other run from the same state. -/
theorem Runs.exists_rest (h : Runs w log w') (hfull : Runs w log' w'') (hended : w''.stack = []) :
    ∃ rest, log' = log ++ rest ∧ Runs w' rest w'' := by
  have hdone : ∀ {w : Postorder α}, w.stack = [] → w.step = .done := by
    intro w hstack
    unfold step
    rw [hstack]
  induction h generalizing log' with
  | refl w => exact ⟨log', rfl, hfull⟩
  | handOut hstep _ ih =>
    cases hfull with
    | refl => simp [hdone hended] at hstep
    | handOut hstep' rest =>
      rw [hstep, Turn.visit.injEq] at hstep'
      obtain ⟨rfl, rfl⟩ := hstep'
      obtain ⟨tail, rfl, htail⟩ := ih rest
      exact ⟨tail, rfl, htail⟩
    | putBack _ hstep' _ => simp [hstep] at hstep'
  | putBack hstack hstep _ ih =>
    cases hfull with
    | refl => simp [hdone hended] at hstep
    | handOut hstep' _ => simp [hstep] at hstep'
    | putBack hstack' hstep' rest =>
      rw [hstep, Turn.putBack.injEq] at hstep'
      rw [hstack, List.cons.injEq] at hstack'
      obtain ⟨rfl, -⟩ := hstack'
      subst hstep'
      obtain ⟨tail, rfl, htail⟩ := ih rest
      exact ⟨tail, rfl, htail⟩

/-- What a run hands out comes first in what was to come. -/
theorem Runs.pending_eq (h : Runs w log w') : pending w.stack = handedOut log ++ pending w'.stack := by
  induction h with
  | refl => rfl
  | handOut hstep _ ih =>
    rw [pending_of_visit hstep, ih]
    rfl
  | putBack _ hstep _ ih =>
    rw [← pending_of_putBack hstep, ih]
    rfl

/-! ## Calls -/

/-- A call puts some nodes back and then hands one out. -/
theorem runs_of_next? {s : Spot α} (h : w.next? = some (s, w')) :
    ∃ backs : List (Spot α), Runs w (backs.map .putBack ++ [.handOut s]) w' := by
  fun_induction next? w with
  | case1 => simp at h
  | case2 w t w₁ hstep =>
    rw [Option.some.injEq, Prod.mk.injEq] at h
    obtain ⟨rfl, rfl⟩ := h
    exact ⟨[], .handOut hstep (.refl _)⟩
  | case3 w w₁ hstep ih =>
    obtain ⟨backs, hbacks⟩ := ih h
    obtain ⟨t, _, _, _, hstack, -, -⟩ := stack_of_putBack hstep
    exact ⟨t :: backs, .putBack hstack hstep hbacks⟩

theorem next?_of_stack_eq_nil (h : w.stack = []) : w.next? = none := by
  obtain ⟨stack⟩ := w
  obtain rfl : stack = [] := h
  unfold next?
  rfl

/-- Calls are a run, which hands out one node for each call until the walk ends. -/
theorem exists_runs_after (k : Nat) (w : Postorder α) :
    ∃ log, Runs w log (Walk.after k w) ∧ handedOut log = (pending w.stack).take k := by
  have hruns : ∃ log, Runs w log (Walk.after k w) := by
    induction k generalizing w with
    | zero => exact ⟨[], .refl w⟩
    | succ k ih =>
      obtain ⟨log, hlog⟩ := ih (Walk.call w).2
      have hcall : ∃ first, Runs w first (Walk.call w).2 := by
        unfold Walk.call
        split
        · exact ⟨[], .refl w⟩
        · next hnext =>
          obtain ⟨backs, hbacks⟩ := runs_of_next? hnext
          exact ⟨_, hbacks⟩
      obtain ⟨first, hfirst⟩ := hcall
      exact ⟨first ++ log, hfirst.trans hlog⟩
  obtain ⟨log, hlog⟩ := hruns
  have hpending := hlog.pending_eq
  rw [← toList_eq_pending (Walk.after k w), Walk.toList_after, toList_eq_pending] at hpending
  refine ⟨log, hlog, List.append_cancel_right (hpending.symm.trans ?_)⟩
  exact (List.take_append_drop k _).symm

/-- A walk that has been called once for each node is at its end. -/
theorem after_eq_nil {k : Nat} {t : Tree α} (h : t.size ≤ k) : Walk.after k (ofTree t) = ⟨[]⟩ := by
  have hlist : Walk.toList (Walk.after k (ofTree t)) = [] := by
    rw [Walk.toList_after, toList_ofTree, List.drop_eq_nil_iff, t.length_spotsPost]
    exact h
  by_cases hstack : (Walk.after k (ofTree t)).stack = []
  · exact congrArg Postorder.mk hstack
  · obtain ⟨s, w', hnext⟩ := exists_next? hstack
    rw [Walk.toList_of_some hnext] at hlist
    cases hlist

/-! ## The test for the right child -/

theorem mem_pushEdge {stack : List (Spot α)} {p : Place} {t : Tree α} {x : Spot α} (h : x ∈ pushEdge stack p t) :
    x ∈ t.spotsPost p ∨ x ∈ stack := by
  induction t generalizing stack p with
  | empty => exact Or.inr h
  | node value left right ihLeft _ =>
    simp only [Tree.spotsPost, List.mem_append, List.mem_singleton]
    rcases ihLeft h with hleft | hstack
    · exact Or.inl (Or.inl hleft)
    · rcases List.mem_cons.1 hstack with rfl | hstack
      · exact Or.inl (Or.inr (Or.inr rfl))
      · rcases List.mem_append.1 hstack with hright | hbelow
        · cases right with
          | empty => simp at hright
          | node v l r =>
            rw [Tree.spot?_node, Option.toList_some, List.mem_singleton] at hright
            exact Or.inl (Or.inr (Or.inl (by simp [Tree.spotsPost, hright])))
        · exact Or.inr hbelow

theorem locate?_of_mem_spotsPost {t : Tree α} {x : Spot α} (h : x ∈ t.spotsPost .root) :
    t.locate? x.place.path = some x := by
  change x ∈ t.spots .root .postorder at h
  exact t.locate?_of_mem_spots h

/-- The nodes below the right child of a node of the tree are nodes of the tree. -/
theorem spotsPost_right?_subset {t : Tree α} {s r : Spot α} (hs : s ∈ t.spotsPost .root) (hr : s.right? = some r) :
    r.node.toTree.spotsPost r.place ⊆ t.spotsPost .root := by
  have hchild : t.locate? (s.place.path ++ [.right]) = some r :=
    (Tree.locate?_concat (locate?_of_mem_spotsPost hs) .right).trans hr
  exact (Tree.spotsPost_infix hchild).subset

/-- The entries of the stack are nodes of the tree. -/
theorem Runs.entries {t : Tree α} (h : Runs w log w') (hw : ∀ x ∈ w.stack, x ∈ t.spotsPost .root) :
    ∀ x ∈ w'.stack, x ∈ t.spotsPost .root := by
  induction h with
  | refl => exact hw
  | handOut hstep _ ih =>
    obtain ⟨stack, hstack, -, rfl⟩ := stack_of_visit hstep
    exact ih fun x hx => hw x (hstack ▸ List.mem_cons_of_mem _ hx)
  | putBack _ hstep _ ih =>
    obtain ⟨s, stack, r, below, hstack, htake, rfl⟩ := stack_of_putBack hstep
    obtain ⟨top, rfl, hr, -⟩ := takeRight?_eq_some htake
    refine ih fun x hx => ?_
    rcases mem_pushEdge hx with hx | hx
    · exact spotsPost_right?_subset (hw s (hstack ▸ List.mem_cons_self)) hr hx
    · refine hw x (hstack ▸ ?_)
      rcases List.mem_cons.1 hx with rfl | hx
      · exact List.mem_cons_self
      · exact List.mem_cons_of_mem _ (List.mem_cons_of_mem _ hx)

theorem Runs.mem_spotsPost {t : Tree α} (h : Runs (ofTree t) log w) {x : Spot α} (hx : x ∈ w.stack) :
    x ∈ t.spotsPost .root := by
  refine h.entries (fun y hy => ?_) x hx
  rcases mem_pushEdge hy with hy | hy
  · exact hy
  · cases hy

/-- What the walk has handed out and what is still to come are the nodes of the tree. -/
theorem Runs.spotsPost_eq {t : Tree α} (h : Runs (ofTree t) log w) :
    t.spotsPost .root = handedOut log ++ pending w.stack := by
  rw [← h.pending_eq, ← toList_eq_pending, toList_ofTree]

/-- The node `s` has been taken off the stack, which is left as `stack`, and the test whether its right child `r` lies
on top says whether the subtree of this child is still to be visited: none of its nodes has been visited, or all
have. -/
structure TestsRight (visited : List (Spot α)) (s : Spot α) (stack : List (Spot α)) (r : Spot α) : Prop where
  taken_iff : (takeRight? s stack).isSome = true ↔ stack.head? = some r
  unvisited_iff : stack.head? = some r ↔ ∀ x ∈ r.node.toTree.spotsPost r.place, x ∉ visited
  visited_iff : stack.head? ≠ some r ↔ ∀ x ∈ r.node.toTree.spotsPost r.place, x ∈ visited

section RightTest

variable {visited stack : List (Spot α)} {s r : Spot α}

theorem self_mem_spotsPost (r : Spot α) : r ∈ r.node.toTree.spotsPost r.place :=
  List.mem_append_right _ (List.mem_append_right _ (List.mem_singleton.2 rfl))

theorem testsRight_of_unvisited (htake : (takeRight? s stack).isSome = true) (htop : stack.head? = some r)
    (hnone : ∀ x ∈ r.node.toTree.spotsPost r.place, x ∉ visited) : TestsRight visited s stack r :=
  ⟨iff_of_true htake htop, iff_of_true htop hnone,
    iff_of_false (fun h => h htop) fun hall => hnone r (self_mem_spotsPost r) (hall r (self_mem_spotsPost r))⟩

theorem testsRight_of_visited (htake : takeRight? s stack = none) (htop : stack.head? ≠ some r)
    (hall : ∀ x ∈ r.node.toTree.spotsPost r.place, x ∈ visited) : TestsRight visited s stack r :=
  ⟨iff_of_false (by simp [htake]) htop,
    iff_of_false htop fun hnone => hnone r (self_mem_spotsPost r) (hall r (self_mem_spotsPost r)),
    iff_of_true htop hall⟩

theorem takeRight?_eq_none_iff (hr : s.right? = some r) :
    takeRight? s stack = none ↔ ∀ top ∈ stack.head?, top.place ≠ r.place := by
  cases stack with
  | nil => simp [takeRight?]
  | cons top below => simp [takeRight?, hr]

theorem spotsPost_of_right? (hr : s.right? = some r) :
    r.node.toTree.spotsPost r.place = s.node.right.spotsPost s.place.right := by
  unfold Spot.right? Tree.spot? at hr
  obtain ⟨n, hn, rfl⟩ := Option.map_eq_some_iff.1 hr
  rw [Tree.toTree_root? hn]

variable {t : Tree α}

/-- When a node is next, all that comes before it in post-order has been handed out. -/
theorem Runs.before_subset (h : Runs (ofTree t) log w) (hw : w.stack = s :: stack) (htake : takeRight? s stack = none) :
    s.before .postorder ⊆ handedOut log := by
  have hs : s ∈ t.spotsPost .root := h.mem_spotsPost (hw ▸ List.mem_cons_self)
  have hspots := h.spotsPost_eq
  rw [hw, pending_of_takeRight?_none htake] at hspots
  obtain ⟨front, back, hsplit⟩ := Tree.exists_split (locate?_of_mem_spotsPost hs) .postorder
  have hboth : handedOut log ++ s :: pending stack = (front ++ s.before .postorder) ++ s :: back := by
    rw [← hspots]
    exact hsplit.trans (by simp [Spot.after])
  -- the node comes once, so the two lists are the same up to it
  have hnodup := (t.listedBy_spotsPost .root).nodup.of_map Spot.place
  rw [hspots, List.nodup_middle] at hnodup
  have hnotMem : s ∉ handedOut log ∧ s ∉ pending stack := by simpa using hnodup.notMem
  rw [((List.append_cons_inj_of_notMem hnotMem.1 hnotMem.2).1 hboth).1]
  exact List.subset_append_right _ _

/-- When a node is put back, what it is put back for is still to come. -/
theorem Runs.notMem_of_takeRight? {below : List (Spot α)} (h : Runs (ofTree t) log w) (hw : w.stack = s :: stack)
    (htake : takeRight? s stack = some (r, below)) {x : Spot α} (hx : x ∈ r.node.toTree.spotsPost r.place) :
    x ∉ handedOut log := by
  have hspots := h.spotsPost_eq
  have hnodup := (t.listedBy_spotsPost .root).nodup.of_map Spot.place
  rw [hspots, hw, pending_of_takeRight?_some htake] at hnodup
  exact fun hvisited => List.disjoint_of_nodup_append hnodup hvisited (List.mem_append_left _ hx)

/-- In every state of a run, a node that is taken off the stack tells by what lies beneath it whether its right subtree
is still to be visited. -/
theorem Runs.testsRight (h : Runs (ofTree t) log w) (hw : w.stack = s :: stack) (hr : s.right? = some r) :
    TestsRight (handedOut log) s stack r := by
  rcases htake : takeRight? s stack with _ | ⟨r', below⟩
  · have htop : stack.head? ≠ some r := fun htop => (takeRight?_eq_none_iff hr).1 htake r htop rfl
    refine testsRight_of_visited htake htop fun x hx => h.before_subset hw htake ?_
    rw [spotsPost_of_right? hr] at hx
    exact List.mem_append_right _ hx
  · -- the entry on top has the place of the child, and different nodes have different places
    obtain ⟨top, rfl, hr', hplace⟩ := takeRight?_eq_some htake
    obtain rfl : r = r' := Option.some.inj (hr.symm.trans hr')
    have hs : s ∈ t.spotsPost .root := h.mem_spotsPost (hw ▸ List.mem_cons_self)
    have htop : top ∈ t.spotsPost .root := h.mem_spotsPost (hw ▸ List.mem_cons_of_mem s List.mem_cons_self)
    have hchild : r ∈ t.spotsPost .root := spotsPost_right?_subset hs hr (self_mem_spotsPost r)
    obtain rfl : top = r :=
      List.inj_on_of_nodup_map (t.listedBy_spotsPost .root).nodup htop hchild hplace
    exact testsRight_of_unvisited (Option.isSome_of_eq_some htake) rfl fun x hx => h.notMem_of_takeRight? hw htake hx

end RightTest

/-! ## The whole walk -/

end Postorder

/-- The iterations of the walk over a tree, which lies at the place `p`. The root is taken off as soon as its left
subtree is done, and put back if it has a right one. -/
def Tree.iterations (p : Place) : Tree α → List (Postorder.Iteration α)
  | .empty => []
  | .node value left right =>
      left.iterations p.left ++
        ((if right.isEmpty then [] else [.putBack ⟨p, ⟨value, left, right⟩⟩]) ++
          (right.iterations p.right ++ [.handOut ⟨p, ⟨value, left, right⟩⟩]))

namespace Postorder

theorem handedOut_iterations (p : Place) (t : Tree α) : handedOut (t.iterations p) = t.spotsPost p := by
  induction t generalizing p with
  | empty => rfl
  | node value left right ihLeft ihRight =>
    unfold handedOut at ihLeft ihRight ⊢
    rw [Tree.iterations, List.filterMap_append, List.filterMap_append, List.filterMap_append, ihLeft, ihRight]
    cases right <;> rfl

/-- The nodes that are put back are those with a right child, in in-order. -/
theorem putBacks_iterations (p : Place) (t : Tree α) :
    putBacks (t.iterations p) = (t.spotsIn p).filter (·.node.hasRight) := by
  induction t generalizing p with
  | empty => rfl
  | node value left right ihLeft ihRight =>
    unfold putBacks at ihLeft ihRight ⊢
    rw [Tree.iterations, Tree.spotsIn, List.filterMap_append, List.filterMap_append, List.filterMap_append, ihLeft,
      ihRight, List.filter_append, List.filter_cons]
    cases right with
    | empty => rfl
    | node => exact congrArg (_ ++ _ :: ·) (List.append_nil _)

/-- A tree takes its own iterations, whatever lies beneath it, if the entry right beneath is not as deep as the tree's
root. -/
theorem runs_pushEdge {stack : List (Spot α)} {p : Place} (t : Tree α) (h : TopAbove p.depth stack) :
    Runs ⟨pushEdge stack p t⟩ (t.iterations p) ⟨stack⟩ := by
  induction t generalizing stack p with
  | empty => exact .refl _
  | node value left right ihLeft ihRight =>
    let s : Spot α := ⟨p, ⟨value, left, right⟩⟩
    have hself : s.place.depth < p.depth + 1 := Nat.lt_succ_self _
    have hbelow : takeRight? s stack = none := takeRight?_of_topAbove h (Nat.le_succ _)
    have hlast : Runs ⟨s :: stack⟩ [.handOut s] ⟨stack⟩ := by
      refine .handOut ?_ (.refl _)
      simp only [step, hbelow]
    refine (ihLeft (topAbove_cons hself _)).trans ?_
    cases right with
    | empty => exact hlast
    | node v l r =>
      have hback : step ⟨s :: ⟨p.right, ⟨v, l, r⟩⟩ :: stack⟩ =
          .putBack ⟨pushEdge (s :: stack) p.right (.node v l r)⟩ := by
        simp [step, takeRight?, Spot.right?, s, Node.toTree]
      exact .putBack rfl hback ((ihRight (topAbove_cons hself stack)).trans hlast)

theorem runs_ofTree (t : Tree α) : Runs (ofTree t) (t.iterations .root) ⟨[]⟩ :=
  runs_pushEdge t (topAbove_nil _)

/-- There is one iteration for each node, and one more for each node with a right child. -/
theorem length_iterations (t : Tree α) :
    (t.iterations .root).length = t.size + (t.spotsPre .root).countP (·.node.hasRight) := by
  rw [length_log, handedOut_iterations, putBacks_iterations, t.length_spotsPost, ← List.countP_eq_length_filter,
    (t.spotsIn_perm .root).countP_eq]

/-- Of a node, whether it has a right child says how often it is put back. -/
theorem count_putBacks {t : Tree α} {path : List Side} {x : Spot α} (h : t.locate? path = some x) :
    ((putBacks (t.iterations .root)).map Spot.place).count x.place = if x.node.hasRight then 1 else 0 := by
  have hlisted := t.listedBy_spotsIn .root
  have hx : x ∈ t.spotsIn .root := (hlisted.mem_iff x).2 ⟨path, h⟩
  rw [putBacks_iterations]
  split
  · next hright =>
    have hnodup : (((t.spotsIn .root).filter (·.node.hasRight)).map Spot.place).Nodup :=
      hlisted.nodup.sublist (List.filter_sublist.map _)
    exact List.count_eq_one_of_mem hnodup (List.mem_map_of_mem (List.mem_filter.2 ⟨hx, hright⟩))
  · next hright =>
    refine List.count_eq_zero.2 fun hmem => ?_
    obtain ⟨y, hy, hplace⟩ := List.mem_map.1 hmem
    obtain ⟨hy, hyRight⟩ := List.mem_filter.1 hy
    obtain rfl := List.inj_on_of_nodup_map hlisted.nodup hy hx hplace
    exact hright hyRight

/-- **The test for the right child is exact, and the loop ends.** Whenever a node with a right child is taken off the
stack, this child lies on top of what is left if and only if its subtree is still to be visited. Such a node is put
back once, and no other one. -/
theorem right_test_exact (t : Tree α) :
    (∀ log w, Runs (ofTree t) log w →
      (∀ s stack r, w.stack = s :: stack → s.right? = some r → TestsRight (handedOut log) s stack r) ∧
      ((w.stack = [] ∧ w.next? = none) ∨ ∃ s w', ∃ backs : List (Spot α), w.next? = some (s, w') ∧
        Runs w (backs.map .putBack ++ [.handOut s]) w')) ∧
    (∀ k, (∃ log, Runs (ofTree t) log (Walk.after k (ofTree t)) ∧ handedOut log = (t.spotsPost .root).take k) ∧
      (t.size ≤ k → Walk.after k (ofTree t) = ⟨[]⟩)) ∧
    ∃ log, Runs (ofTree t) log ⟨[]⟩ ∧ (∀ log' w, Runs (ofTree t) log' w → log' <+: log) ∧
      handedOut log = t.spotsPost .root ∧ putBacks log = (t.spotsIn .root).filter (·.node.hasRight) ∧
      (∀ path x, t.locate? path = some x →
        ((putBacks log).map Spot.place).count x.place = if x.node.hasRight then 1 else 0) ∧
      log.length = t.size + (t.spotsPre .root).countP (·.node.hasRight) := by
  refine ⟨fun log w h => ⟨fun s stack r hw hr => h.testsRight hw hr, ?_⟩, fun k => ⟨?_, after_eq_nil⟩,
    t.iterations .root, runs_ofTree t, fun log' w h => ?_, handedOut_iterations .root t, putBacks_iterations .root t,
    fun path x hx => count_putBacks hx, length_iterations t⟩
  · by_cases hstack : w.stack = []
    · exact Or.inl ⟨hstack, next?_of_stack_eq_nil hstack⟩
    · obtain ⟨s, w', hnext⟩ := exists_next? hstack
      obtain ⟨backs, hbacks⟩ := runs_of_next? hnext
      exact Or.inr ⟨s, w', backs, hnext, hbacks⟩
  · obtain ⟨log, hlog, hhanded⟩ := exists_runs_after k (ofTree t)
    refine ⟨log, hlog, ?_⟩
    rw [hhanded, ← toList_eq_pending, toList_ofTree]
  · obtain ⟨rest, hrest, -⟩ := h.exists_rest (runs_ofTree t) rfl
    exact ⟨rest, hrest.symm⟩

/-- Five nodes that hold the same, of which the root and its left child have right children. At the start the left
child is on top, and its own right child beneath. -/
theorem right_test_exact_alike :
    let t : Tree Nat := .node 0 (.node 0 .empty (.node 0 .empty .empty)) (.node 0 (.node 0 .empty .empty) .empty)
    let s : Spot Nat := ⟨Place.root.left, ⟨0, .empty, .node 0 .empty .empty⟩⟩
    let r : Spot Nat := ⟨Place.root.left.right, ⟨0, .empty, .empty⟩⟩
    (∃ stack, (ofTree t).stack = s :: stack ∧ s.right? = some r ∧ TestsRight [] s stack r) ∧
      ∃ log, Runs (ofTree t) log ⟨[]⟩ ∧ (putBacks log).map Spot.place = [Place.root.left, Place.root] ∧
        log.length = 7 := by
  intro t s r
  obtain ⟨hstates, -, log, hruns, -, -, hbacks, -, hlength⟩ := right_test_exact t
  have hstart : TestsRight [] s [r, ⟨.root, ⟨0, _, _⟩⟩, ⟨Place.root.right, ⟨0, _, _⟩⟩] r :=
    (hstates [] (ofTree t) (.refl _)).1 s _ r rfl rfl
  refine ⟨⟨_, rfl, rfl, hstart⟩, log, hruns, ?_, hlength.trans (by decide)⟩
  rw [hbacks]
  decide

end Postorder

end TreeWalk
