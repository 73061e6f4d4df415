import Mathlib.Data.List.Induction
import Mathlib.Data.List.Nodup
import Mathlib.Data.List.Pairwise
import TreeWalk.Proofs.Walk.Abreast
import TreeWalk.Proofs.Walk.Kinship

/-!
# What lies on the stack of a pre-order walk

A pre-order walk that has come to a node has left the right children that it passed on its way down, where it went left,
for later. These are the stack, and no more than there are nodes on a way down.

* `Tree.rightsPassed` : these right children, read off the path from the root. One step further down adds the right
  sibling of a left child (`rightsPassed_concat`), and the way down is long enough for them
  (`length_rightsPassed_add_height_le`);
* `Preorder.OnWay` : the next node is on top, and beneath lies what its path has passed. A leaf is left for the last
  right child passed, however far up its parent is (`onWay_rightsPassed`), and any other node for one of its children
  (`onWay_pushChildren`);
* `Preorder.not_isAbove_of_mem_after` : of two nodes on the stack, neither is above the other, as each still stands for
  nodes of its own;
* `Tree.Yields`, `Tree.Keeps` : what a call of the three pre-order walks yields, and what they keep after some calls.

The walks are one that shares the tree, one that gives out its cells, to which a program may write meanwhile, and one
that takes it apart (`preorder_stack`). As many calls as the tree has nodes yield a node each, the same one in each
walk. From bottom to top the stack then holds, for each node above the yielded one at which the way goes left and
which has a right child, this child, and then the right and the left child of the yielded node, as far as it has them.
After any number of calls, no node on the stack is above another one, and there are no more of them than there are
nodes on the longest way down the tree.
-/

namespace TreeWalk

universe u v

variable {α : Type u} {β : Type v} {t : Tree α} {path : List Side} {s x : Spot α}

/-! ## The right children passed on the way down -/

namespace Tree

/-- The right children of those nodes above the end of the path at which it goes left, the uppermost one first. -/
def rightsPassed (t : Tree α) (path : List Side) : List (Spot α) :=
  (List.range path.length).filterMap fun i =>
    if path[i]? = some .left then (t.locate? (path.take i)).bind Spot.right? else none

@[simp] theorem rightsPassed_nil (t : Tree α) : t.rightsPassed [] = [] := rfl

theorem rightsPassed_concat (h : t.locate? path = some s) (side : Side) :
    t.rightsPassed (path ++ [side]) = t.rightsPassed path ++ if side = .left then s.right?.toList else [] := by
  unfold rightsPassed
  rw [List.length_append, List.length_singleton, List.range_succ, List.filterMap_append]
  congr 1
  · refine List.filterMap_congr fun i hi => ?_
    have hlt := List.mem_range.1 hi
    rw [List.getElem?_append_left hlt, List.take_append_of_le_length (Nat.le_of_lt hlt)]
  · have hlast : (path ++ [side])[path.length]? = some side := List.getElem?_concat_length
    rw [List.filterMap_cons, List.filterMap_nil, hlast, List.take_left, h, Option.bind_some]
    cases side with
    | left => cases s.right? <;> rfl
    | right => rfl

theorem rightsPassed_left (h : t.locate? path = some s) :
    t.rightsPassed (path ++ [.left]) = t.rightsPassed path ++ s.right?.toList :=
  rightsPassed_concat h .left

theorem rightsPassed_right (h : t.locate? path = some s) : t.rightsPassed (path ++ [.right]) = t.rightsPassed path :=
  (rightsPassed_concat h .right).trans (List.append_nil _)

/-- There are nodes enough on the way down through a node for the right children passed before it. -/
theorem length_rightsPassed_add_height_le (h : t.locate? path = some x) :
    (t.rightsPassed path).length + x.node.toTree.height ≤ t.height := by
  induction path using List.reverseRecOn generalizing x with
  | nil =>
    obtain ⟨n, hn, rfl⟩ := Option.map_eq_some_iff.1 ((locateFrom?_nil .root t).symm.trans h)
    rw [toTree_root? hn, rightsPassed_nil, List.length_nil]
    omega
  | append_singleton path side ih =>
    obtain ⟨s, hs, hchild⟩ := exists_parent h
    have hparent := ih hs
    have hheight : s.node.toTree.height = 1 + max s.node.left.height s.node.right.height := rfl
    cases side with
    | left =>
      obtain ⟨n, hn, rfl⟩ := Option.map_eq_some_iff.1 hchild
      have hone : s.right?.toList.length ≤ 1 := Option.length_toList_le
      rw [rightsPassed_left hs, List.length_append, toTree_root? hn]
      omega
    | right =>
      obtain ⟨n, hn, rfl⟩ := Option.map_eq_some_iff.1 hchild
      rw [rightsPassed_right hs, toTree_root? hn]
      omega

end Tree

/-! ## The stack on the way -/

namespace Preorder

/-- The walk is at its end, or on its way to a node: this node is on top, and beneath lies what its path has passed. -/
def OnWay (t : Tree α) (w : Preorder α) : Prop :=
  w.stack = [] ∨ ∃ path x, t.locate? path = some x ∧ w.stack = x :: (t.rightsPassed path).reverse

/-- When all below a node is done, the walk goes on to the last right child that was passed, however far up. -/
theorem onWay_rightsPassed (h : t.locate? path = some x) : OnWay t ⟨(t.rightsPassed path).reverse⟩ := by
  induction path using List.reverseRecOn generalizing x with
  | nil => exact Or.inl rfl
  | append_singleton path side ih =>
    obtain ⟨s, hs, -⟩ := Tree.exists_parent h
    cases side with
    | left =>
      rw [Tree.rightsPassed_left hs]
      cases hr : s.right? with
      | none =>
        rw [Option.toList_none, List.append_nil]
        exact ih hs
      | some r =>
        refine Or.inr ⟨path ++ [.right], r, (Tree.locate?_concat hs .right).trans hr, ?_⟩
        rw [Tree.rightsPassed_right hs, Option.toList_some, List.reverse_append]
        rfl
    | right =>
      rw [Tree.rightsPassed_right hs]
      exact ih hs

/-- From a node the walk goes on to its left child, else to its right child, else to the last right child passed. -/
theorem onWay_pushChildren (h : t.locate? path = some x) : OnWay t ⟨pushChildren x (t.rightsPassed path).reverse⟩ := by
  unfold pushChildren
  cases hl : x.left? with
  | some l =>
    refine Or.inr ⟨path ++ [.left], l, (Tree.locate?_concat h .left).trans hl, ?_⟩
    rw [Tree.rightsPassed_left h, List.reverse_append]
    cases x.right? <;> rfl
  | none =>
    cases hr : x.right? with
    | some r =>
      refine Or.inr ⟨path ++ [.right], r, (Tree.locate?_concat h .right).trans hr, ?_⟩
      rw [Tree.rightsPassed_right h]
      rfl
    | none => exact onWay_rightsPassed h

theorem onWay_call {w : Preorder α} (h : OnWay t w) : OnWay t (Walk.call w).2 := by
  rcases w.call_cases with ⟨-, hcall⟩ | ⟨s, below, hstack, hcall⟩
  · rwa [hcall]
  · rw [hcall]
    rcases h with hnil | ⟨path, x, hx, htop⟩
    · rw [hnil] at hstack
      cases hstack
    · rw [hstack, List.cons.injEq] at htop
      obtain ⟨rfl, rfl⟩ := htop
      exact onWay_pushChildren hx

theorem onWay_ofTree (t : Tree α) : OnWay t (ofTree t) := by
  cases t with
  | empty => exact Or.inl rfl
  | node => exact Or.inr ⟨[], _, rfl, rfl⟩

theorem onWay_after (k : Nat) (t : Tree α) : OnWay t (Walk.after k (ofTree t)) := by
  induction k with
  | zero => exact onWay_ofTree t
  | succ k ih =>
    rw [Walk.after_succ]
    exact onWay_call ih

/-- The stack is no longer than a way down through the node on top. -/
theorem OnWay.length_le {w : Preorder α} (h : OnWay t w) : w.stack.length ≤ t.height := by
  rcases h with hnil | ⟨path, x, hx, hstack⟩
  · rw [hnil, List.length_nil]
    omega
  · have hheight := Tree.length_rightsPassed_add_height_le hx
    have hnode : x.node.toTree.height = 1 + max x.node.left.height x.node.right.height := rfl
    rw [hstack, List.length_cons, List.length_reverse]
    omega

theorem OnWay.below_eq {w : Preorder α} {below : List (Spot α)} (h : OnWay t w) (hw : w.stack = x :: below) :
    below = (t.rightsPassed x.place.path).reverse := by
  rcases h with hnil | ⟨path, y, hy, hstack⟩
  · rw [hnil] at hw
    cases hw
  · rw [hw, List.cons.injEq] at hstack
    obtain ⟨rfl, rfl⟩ := hstack
    rw [Tree.path_of_locate? hy]

/-- Of the nodes on the stack, none is above another one: the nodes that each of them stands for come only once. -/
theorem not_isAbove_of_mem_after {k : Nat} {a b : Spot α} (ha : a ∈ (Walk.after k (ofTree t)).stack)
    (hb : b ∈ (Walk.after k (ofTree t)).stack) : ¬ a.IsAbove b := by
  intro h
  have hnodup : (pending (Walk.after k (ofTree t)).stack).Nodup := by
    rw [pending_after]
    exact ((t.nodup_spotsPre .root).of_map Spot.place).sublist (List.drop_sublist _ _)
  have hne : a ≠ b := by
    rintro rfl
    exact Nat.lt_irrefl _ h.depth_lt
  have hsymm : Std.Symm (Function.onFun List.Disjoint fun s : Spot α => s.node.toTree.spotsPre s.place) :=
    ⟨fun _ _ hdisjoint _ hx hy => hdisjoint hy hx⟩
  have hdisjoint := (List.nodup_flatMap.1 hnodup).2.forall ha hb hne
  exact hdisjoint (List.mem_cons_of_mem a h.mem_after_preorder) List.mem_cons_self

/-- From bottom to top, the children lie behind what was there, the right one first. -/
theorem reverse_pushChildren (s : Spot α) (stack : List (Spot α)) :
    (pushChildren s stack.reverse).reverse = stack ++ (s.right?.toList ++ s.left?.toList) := by
  have hchild : ∀ c : Option (Spot α), c.toList.reverse = c.toList := by
    intro c
    cases c <;> rfl
  unfold pushChildren
  rw [List.reverse_append, List.reverse_append, List.reverse_reverse, hchild, hchild, List.append_assoc]

/-- Before the call that yields the node `x`, this node is on top of the right children that its path has passed, and
after it, its children are. -/
theorem stack_after {k : Nat} (h : (t.spotsPre .root)[k]? = some x) :
    (Walk.after k (ofTree t)).stack = x :: (t.rightsPassed x.place.path).reverse ∧
      (Walk.after (k + 1) (ofTree t)).stack = pushChildren x (t.rightsPassed x.place.path).reverse := by
  have hyields : (Walk.call (Walk.after k (ofTree t))).1 = some x :=
    (Walk.handsOut_of_toList_eq (toList_ofTree t) k).trans h
  rcases (Walk.after k (ofTree t)).call_cases with ⟨-, hcall⟩ | ⟨s, below, hstack, hcall⟩
  · rw [hcall] at hyields
    cases hyields
  · rw [hcall, Option.some.injEq] at hyields
    subst hyields
    rw [Walk.after_succ, hcall, hstack, (onWay_after k t).below_eq hstack]
    exact ⟨rfl, rfl⟩

end Preorder

/-! ## The three walks -/

theorem Owning.call_after (g : Spot α → β) (t : Tree α) (k : Nat) :
    (Walk.call (Walk.after k (ofTree (t.relabel g .root)))).1 =
      (Walk.call (Walk.after k (Preorder.ofTree t))).1.map g :=
  (call_of_stack_eq (stack_after g t k)).2

namespace CellStep

/-- A program has as many cells as it has called the walk, until there are no more. -/
theorem size_cells_run {steps : List (CellStep α)} (h : calls steps ≤ t.size) :
    (run steps (.ofTree t)).cells.size = calls steps := by
  have hreached : (CellRow.run steps (.ofTree t)).reached = min (0 + calls steps) (CellRow.ofTree t).values.size :=
    CellRow.reached_run (Nat.zero_le _)
  have hrow : (CellRow.ofTree t).values.size = t.size := t.length_preorder
  rw [(tracks_run t steps).reached, hreached, hrow]
  omega

/-- The next call of a program's walk gives a new cell, at the node which is on top of the stack. -/
theorem call_run {steps : List (CellStep α)} {below : List (Spot α)}
    (h : (Walk.after (calls steps) (Preorder.ofTree t)).stack = x :: below) :
    (Walk.call (run steps (.ofTree t))).1 = some (run steps (.ofTree t)).cells.size ∧
      (Walk.call (run steps (.ofTree t))).2.cells = (run steps (.ofTree t)).cells.push (.ofSpot x) := by
  rw [← stack_run t steps] at h
  rcases (run steps (.ofTree t)).call_cases with ⟨hnil, -⟩ | ⟨s, stack, hstack, hcall⟩
  · rw [h] at hnil
    cases hnil
  · rw [h, List.cons.injEq] at hstack
    rw [hcall, hstack.1]
    exact ⟨rfl, rfl⟩

end CellStep

namespace Tree

/-- The three pre-order walks over the tree keep `stack`, bottom to top, after `k` calls, whatever a program does
between them with the cells that it was handed. The walk that owns a tree of places tells at which places the nodes
are. -/
structure Keeps (t : Tree α) (k : Nat) (stack : List (Spot α)) : Prop where
  shared : (Walk.after k (Preorder.ofTree t)).stack.reverse = stack
  cells : ∀ steps, CellStep.calls steps = k → (CellStep.run steps (.ofTree t)).stack.reverse = stack
  owning : (Walk.after k (Owning.ofTree t)).stack.reverse = stack.map Spot.node
  placed : (Walk.after k (Owning.ofTree (t.relabel Spot.place .root))).stack.reverse =
    stack.map (Spot.relabel Spot.place)

/-- The call of the three pre-order walks over the tree after `k` others yields the node `x`: the node itself, cell
number `k` at its place and with its value, its value, and its place if the walk owns a tree of places. -/
structure Yields (t : Tree α) (k : Nat) (x : Spot α) : Prop where
  shared : (Walk.call (Walk.after k (Preorder.ofTree t))).1 = some x
  number : ∀ steps, CellStep.calls steps = k → (Walk.call (CellStep.run steps (.ofTree t))).1 = some k
  cell : ∀ steps, CellStep.calls steps = k →
    (Walk.call (CellStep.run steps (.ofTree t))).2.cells = (CellStep.run steps (.ofTree t)).cells.push (.ofSpot x)
  placeAndValue : ∀ steps, CellStep.calls steps = k →
    ((Walk.call (CellStep.run steps (.ofTree t))).2.cells[k]?).map (fun c => (c.place, c.value)) =
      some (x.place, x.value)
  owning : (Walk.call (Walk.after k (Owning.ofTree t))).1 = some x.value
  placed : (Walk.call (Walk.after k (Owning.ofTree (t.relabel Spot.place .root)))).1 = some x.place

theorem keeps_after (t : Tree α) (k : Nat) : t.Keeps k (Walk.after k (Preorder.ofTree t)).stack.reverse where
  shared := rfl
  cells steps hcalls := by rw [CellStep.stack_run, hcalls]
  owning := by rw [Owning.stack_after_ofTree, List.map_reverse]
  placed := by rw [Owning.stack_after, List.map_reverse]

theorem yields_of_getElem? {k : Nat} (h : (t.spotsPre .root)[k]? = some x) : t.Yields k x := by
  have hstack := (Preorder.stack_after h).1
  have hk : k < t.size := t.length_spotsPre .root ▸ (List.getElem?_eq_some_iff.1 h).1
  have hshared : (Walk.call (Walk.after k (Preorder.ofTree t))).1 = some x :=
    (Walk.handsOut_of_toList_eq (Preorder.toList_ofTree t) k).trans h
  have hvalue := Owning.call_after Spot.value t k
  have hplace := Owning.call_after Spot.place t k
  rw [t.relabel_value, hshared] at hvalue
  rw [hshared] at hplace
  have hnumber : ∀ steps, CellStep.calls steps = k → (Walk.call (CellStep.run steps (.ofTree t))).1 = some k := by
    rintro steps rfl
    rw [(CellStep.call_run hstack).1, CellStep.size_cells_run (Nat.le_of_lt hk)]
  refine ⟨hshared, hnumber, ?_, ?_, hvalue, hplace⟩
  · rintro steps rfl
    exact (CellStep.call_run hstack).2
  · rintro steps rfl
    have hcell := CellWalk.map_cell_call (CellStep.stack_run t steps)
    rwa [hnumber steps rfl, hshared, Option.bind_some] at hcell

end Tree

/-- **What lies on the stack of a pre-order walk.** After the call that yields the node `x`, the stack of each of the
three walks holds the right children passed on the way to `x`, and on them the children of `x`, the left one on top.
It is never longer than the tree is high. -/
theorem preorder_stack (t : Tree α) :
    (∀ k, k < t.size → ∃ x, (t.spotsPre .root)[k]? = some x ∧ t.locate? x.place.path = some x ∧ t.Yields k x ∧
      t.Keeps (k + 1) (t.rightsPassed x.place.path ++ (x.right?.toList ++ x.left?.toList))) ∧
    ∀ k, ∃ stack, t.Keeps k stack ∧ (∀ a ∈ stack, ∀ b ∈ stack, ¬ a.IsAbove b) ∧ stack.length ≤ t.height := by
  refine ⟨fun k hk => ?_, fun k => ⟨_, t.keeps_after k, fun a ha b hb => ?_, ?_⟩⟩
  · rw [← t.length_spotsPre .root] at hk
    have hx := List.getElem?_eq_getElem hk
    have hkeeps := t.keeps_after (k + 1)
    rw [(Preorder.stack_after hx).2, Preorder.reverse_pushChildren] at hkeeps
    exact ⟨_, hx, Tree.locate?_of_mem_spotsPre (List.getElem_mem hk), Tree.yields_of_getElem? hx, hkeeps⟩
  · exact Preorder.not_isAbove_of_mem_after (List.mem_reverse.1 ha) (List.mem_reverse.1 hb)
  · rw [List.length_reverse]
    exact (Preorder.onWay_after k t).length_le

/-- The third of five nodes: the way to it goes left twice, past two right children. -/
theorem preorder_stack_third :
    let t : Tree Nat := .node 1 (.node 2 (.node 4 .empty .empty) (.node 5 .empty .empty)) (.node 3 .empty .empty)
    2 < t.size ∧ t.Yields 2 ⟨Place.root.left.left, ⟨4, .empty, .empty⟩⟩ ∧
      t.Keeps 3 [⟨Place.root.right, ⟨3, .empty, .empty⟩⟩, ⟨Place.root.left.right, ⟨5, .empty, .empty⟩⟩] := by
  intro t
  have hk : 2 < t.size := by decide
  obtain ⟨x, hx, -, hyields, hkeeps⟩ := (preorder_stack t).1 2 hk
  obtain rfl : (⟨Place.root.left.left, ⟨4, .empty, .empty⟩⟩ : Spot Nat) = x := Option.some.inj hx
  exact ⟨hk, hyields, hkeeps⟩

end TreeWalk
