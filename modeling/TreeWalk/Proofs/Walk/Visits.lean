import TreeWalk.Proofs.Copy
import TreeWalk.Proofs.Walk.CellSteps

/-!
# Visiting the values of a tree

A visitor is given one value after another, each with the state that it left the time before, and gives a new value for
each. It can be led to the values by the walk over their cells (`Tree.visitCells`) or by recursion (`Tree.visit`). Since
it may answer in any way it likes to what it was given before, both do the same only if they lead it to the same values
in the same order.

* `Tree.visitAll` : the recursion over the trees of a list, one after another;
* `Cell.visitAll_eq_attach` : once a node is taken off the stack, its cell with the new value is put over the first of
  the visited subtrees that were pending then. So visiting a node and then its children as entries of the stack is
  visiting the subtree of the node;
* `CellWalk.trees_visitRest` : therefore the walk that visits the rest leaves what recursion makes of the pending
  subtrees, from any cells, stack and state on;
* `tracing` : a visitor that keeps the list of its calls;
* `Tree.Visited` : what the calls have to do with the tree, the states and the new tree. The calls that recursion makes
  are of this kind (`Tree.visit_tracing`), and the walk over the cells makes the same ones (`visitCells_like_visit`).

The tree that both leave has the shape of the tree and holds what the calls gave. The values that the three walks over
it hand out are those of the three recursive orders.
-/

namespace TreeWalk

universe u

variable {α σ : Type u}

/-! ## Several trees by recursion -/

namespace Tree

/-- Replaces the values of the trees one tree after another, each in pre-order. -/
def visitAll (f : α → StateM σ α) : List (Tree α) → StateM σ (List (Tree α))
  | [] => pure []
  | t :: trees => do
      let t ← t.visit f
      let trees ← visitAll f trees
      pure (t :: trees)

theorem visitAll_cons (f : α → StateM σ α) (t : Tree α) (trees : List (Tree α)) (st : σ) :
    visitAll f (t :: trees) st =
      let st₁ := (t.visit f st).2
      ((t.visit f st).1 :: (visitAll f trees st₁).1, (visitAll f trees st₁).2) := rfl

theorem visitAll_forest (f : α → StateM σ α) (t : Tree α) (st : σ) :
    visitAll f t.forest st = ((t.visit f st).1.forest, (t.visit f st).2) := by
  cases t <;> rfl

end Tree

/-! ## The walk that visits the rest -/

namespace Cell

/-- A subtree that comes first among those that are visited comes out first. -/
theorem takeTree_visitAll (f : α → StateM σ α) (t : Tree α) (rest : List (Tree α)) (st : σ) :
    let all := Tree.visitAll f (t.forest ++ rest) st
    let after := Tree.visitAll f rest (t.visit f st).2
    takeTree (!t.isEmpty) all.1 = ((t.visit f st).1, after.1) ∧ all.2 = after.2 := by
  cases t with
  | empty => exact ⟨rfl, rfl⟩
  | node value left right => exact ⟨rfl, rfl⟩

/-- The pending subtrees once a node is taken off the stack. -/
theorem map_toTree_pushChildren (s : Spot α) (stack : List (Spot α)) :
    (Preorder.pushChildren s stack).map (·.node.toTree) =
      s.node.left.forest ++ (s.node.right.forest ++ stack.map (·.node.toTree)) := by
  have hforest : ∀ (p : Place) (t : Tree α), (t.spot? p).toList.map (·.node.toTree) = t.forest := by
    intro p t
    cases t <;> rfl
  unfold Preorder.pushChildren Spot.left? Spot.right?
  rw [List.map_append, List.map_append, hforest, hforest]

/-- The cell of a node with its new value is put over the visited children of the node, which come first among the
subtrees that are pending once the node is taken off the stack. -/
theorem visitAll_eq_attach {f : α → StateM σ α} {s : Spot α} {st st' : σ} {b : α} (h : f s.value st = (b, st'))
    (stack : List (Spot α)) :
    let below := Tree.visitAll f ((Preorder.pushChildren s stack).map (·.node.toTree)) st'
    Tree.visitAll f ((s :: stack).map (·.node.toTree)) st =
      ({ ofSpot s with value := b }.attach below.1, below.2) := by
  intro below
  have hbelow : Tree.visitAll f (s.node.left.forest ++ (s.node.right.forest ++ stack.map (·.node.toTree))) st' =
      below := by
    rw [← map_toTree_pushChildren]
  obtain ⟨hleft, hleftState⟩ := takeTree_visitAll f s.node.left (s.node.right.forest ++ stack.map (·.node.toTree)) st'
  obtain ⟨hright, hrightState⟩ := takeTree_visitAll f s.node.right (stack.map (·.node.toTree)) (s.node.left.visit f st').2
  rw [hbelow] at hleft hleftState
  have hattach : { ofSpot s with value := b }.attach below.1 =
      .node b (s.node.left.visit f st').1 (s.node.right.visit f (s.node.left.visit f st').2).1 ::
        (Tree.visitAll f (stack.map (·.node.toTree)) (s.node.right.visit f (s.node.left.visit f st').2).2).1 := by
    show Tree.node b (takeTree (!s.node.left.isEmpty) below.1).1
      (takeTree (!s.node.right.isEmpty) (takeTree (!s.node.left.isEmpty) below.1).2).1 ::
      (takeTree (!s.node.right.isEmpty) (takeTree (!s.node.left.isEmpty) below.1).2).2 = _
    rw [hleft, hright]
  have hroot : s.node.toTree.visit f st =
      (.node b (s.node.left.visit f st').1 (s.node.right.visit f (s.node.left.visit f st').2).1,
        (s.node.right.visit f (s.node.left.visit f st').2).2) := by
    have hnode := Tree.visit_node f s.value s.node.left s.node.right st
    rwa [h] at hnode
  rw [List.map_cons, Tree.visitAll_cons, hroot, hattach, hleftState, hrightState]

end Cell

namespace CellWalk

/-- A write to the cell that was handed out last. -/
theorem set_push (cells : Array (Cell α)) (c : Cell α) (stack : List (Spot α)) (a : α) :
    (⟨cells.push c, stack⟩ : CellWalk α).set cells.size a = ⟨cells.push { c with value := a }, stack⟩ := by
  have hcells : (cells.push c).modify cells.size (fun c => { c with value := a }) =
      cells.push { c with value := a } := by
    refine Array.ext_getElem? fun k => ?_
    rw [Array.getElem?_modify, Array.getElem?_push, Array.getElem?_push]
    by_cases hk : k = cells.size
    · simp [hk]
    · simp [hk, Ne.symm hk]
  unfold set
  rw [hcells]

/-- All that a step can do: it hands out the cell of the top node, which holds the value of this node. -/
theorem eq_of_next?_eq_some {w w' : CellWalk α} {i : Nat} (h : Walk.next? w = some (i, w')) :
    ∃ s stack, w.stack = s :: stack ∧ i = w.cells.size ∧
      w' = ⟨w.cells.push (.ofSpot s), Preorder.pushChildren s stack⟩ ∧ w'.get? i = some s.value := by
  obtain ⟨cells, _ | ⟨s, stack⟩⟩ := w
  · cases h
  · obtain ⟨rfl, rfl⟩ := Prod.mk.inj (Option.some.inj h)
    refine ⟨s, stack, rfl, rfl, rfl, ?_⟩
    unfold get?
    rw [Array.getElem?_push_size]
    rfl

/-- The walk that visits the rest leaves the cells with the visited subtrees below them. -/
theorem trees_visitRest (f : α → StateM σ α) (w : CellWalk α) (st : σ) :
    let below := Tree.visitAll f (w.stack.map (·.node.toTree)) st
    (w.visitRest f st).1.trees = w.cells.toList.foldr Cell.attach below.1 ∧ (w.visitRest f st).2 = below.2 := by
  fun_induction visitRest f w st with
  | case1 w st h =>
    obtain ⟨cells, _ | ⟨s, stack⟩⟩ := w
    · exact ⟨rfl, rfl⟩
    · cases h
  | case2 w st i w' h hget =>
    -- a cell that was just handed out holds a value
    obtain ⟨s, -, -, -, -, hvalue⟩ := eq_of_next?_eq_some h
    rw [hvalue] at hget
    cases hget
  | case3 w st i w' h a hget b st' hf ih =>
    obtain ⟨s, stack, hstack, rfl, rfl, hvalue⟩ := eq_of_next?_eq_some h
    obtain rfl : s.value = a := Option.some.inj (hvalue.symm.trans hget)
    rw [set_push] at ih ⊢
    obtain ⟨htrees, hstate⟩ := ih
    rw [hstack, Cell.visitAll_eq_attach hf]
    refine ⟨?_, hstate⟩
    rw [htrees, Array.toList_push, List.foldr_append]
    rfl

end CellWalk

/-- Led through the cells of a tree, a visitor makes of it what it makes of it by recursion. -/
theorem Tree.visitCells_eq (f : α → StateM σ α) (t : Tree α) (st : σ) : t.visitCells f st = t.visit f st := by
  have hstack : (CellWalk.ofTree t).stack.map (·.node.toTree) = t.forest := by cases t <;> rfl
  have hrest := CellWalk.trees_visitRest f (.ofTree t) st
  rw [hstack, visitAll_forest] at hrest
  obtain ⟨htrees, hstate⟩ := hrest
  have htree : ((CellWalk.ofTree t).visitRest f st).1.tree = (t.visit f st).1 := by
    rw [CellWalk.tree_eq, htrees]
    cases (t.visit f st).1 <;> rfl
  exact Prod.ext htree hstate

/-! ## The calls of the visitor -/

/-- Visits as `f` does, and notes every call: the value and the state that it was given. -/
def tracing (f : α → StateM σ α) (a : α) : StateM (σ × List (α × σ)) α := fun progress =>
  let (b, st) := f a progress.1
  (b, st, progress.2 ++ [(a, progress.1)])

namespace Tree

/-- The calls lead the visitor `f` through the values of the tree `t` in pre-order, from the state `st` on. Each call
is given the state that the one before it left, and `last` is left in the end; and `u` is the tree with what the calls
gave, in the same shape. -/
structure Visited (f : α → StateM σ α) (t : Tree α) (st : σ) (calls : List (α × σ)) (u : Tree α) (last : σ) :
    Prop where
  args : calls.map Prod.fst = t.preorder
  states : calls.map Prod.snd ++ [last] = st :: calls.map fun call => (f call.1 call.2).2
  results : u.preorder = calls.map fun call => (f call.1 call.2).1
  sameShape : t.SameShape u

variable {f : α → StateM σ α}

theorem visited_empty (st : σ) : (empty : Tree α).Visited f st [] empty st :=
  ⟨rfl, rfl, rfl, SameShape.refl _⟩

/-- The calls for a node are the call for its value, then those for its left and those for its right subtree. -/
theorem visited_node {value : α} {left right left' right' : Tree α} {st last last' : σ}
    {calls calls' : List (α × σ)} (hleft : left.Visited f (f value st).2 calls left' last)
    (hright : right.Visited f last calls' right' last') :
    (node value left right).Visited f st ((value, st) :: (calls ++ calls')) (node (f value st).1 left' right') last' where
  args := by rw [List.map_cons, List.map_append, hleft.args, hright.args, preorder_node]
  states := by
    -- the state that the calls on the left leave is the one that the first call on the right is given
    have hchain : calls.map Prod.snd ++ (last :: calls'.map fun call => (f call.1 call.2).2) =
        (f value st).2 :: (calls.map (fun call => (f call.1 call.2).2) ++
          calls'.map fun call => (f call.1 call.2).2) := by
      rw [← List.cons_append, ← hleft.states, List.append_assoc, List.singleton_append]
    rw [List.map_cons, List.map_append, List.cons_append, List.append_assoc, hright.states, hchain, List.map_cons,
      List.map_append]
  results := by rw [preorder_node, hleft.results, hright.results, List.map_cons, List.map_append]
  sameShape := (sameShape_node_node ..).2 ⟨hleft.sameShape, hright.sameShape⟩

/-- The recursion makes these calls, after whatever was noted before. -/
theorem visit_tracing (t : Tree α) (st : σ) (before : List (α × σ)) :
    ∃ calls, t.visit (tracing f) (st, before) = ((t.visit f st).1, (t.visit f st).2, before ++ calls) ∧
      t.Visited f st calls (t.visit f st).1 (t.visit f st).2 := by
  induction t generalizing st before with
  | empty => exact ⟨[], by rw [List.append_nil]; rfl, visited_empty st⟩
  | node value left right ihLeft ihRight =>
    obtain ⟨calls, hleft, hleftVisited⟩ := ihLeft (f value st).2 (before ++ [(value, st)])
    obtain ⟨calls', hright, hrightVisited⟩ := ihRight (left.visit f (f value st).2).2
      (before ++ [(value, st)] ++ calls)
    refine ⟨(value, st) :: (calls ++ calls'), ?_, visited_node hleftVisited hrightVisited⟩
    have htracing : tracing f value (st, before) = ((f value st).1, (f value st).2, before ++ [(value, st)]) := rfl
    rw [visit_node, htracing]
    simp only [hleft, hright, visit_node]
    rw [List.append_assoc, List.append_assoc, List.singleton_append]

/-- The values that the walk in an order hands out. -/
theorem walkValues_eq (t : Tree α) (order : Order) : t.walkValues order = (t.spots .root order).map Spot.value := by
  rw [walkValues, OrderedWalk.toList_ofTree]

end Tree

/-- **A visitor led through the cells and by recursion.** The walk over the cells and the recursion make the same
calls, on the values in pre-order, each in the state that the call before it left. They leave the same tree and the
same state, whatever the visitor answers. -/
theorem visitCells_like_visit (f : α → StateM σ α) (t : Tree α) (st : σ) :
    ∃ u last calls,
      (t.visitCells (tracing f) (st, []) = (u, last, calls) ∧ t.visit (tracing f) (st, []) = (u, last, calls)) ∧
      (t.visitCells f st = (u, last) ∧ t.visit f st = (u, last)) ∧
      t.Visited f st calls u last ∧
      (u.walkValues .preorder = u.preorder ∧ u.walkValues .inorder = u.inorder ∧
        u.walkValues .postorder = u.postorder) := by
  obtain ⟨calls, hcalls, hvisited⟩ := t.visit_tracing (f := f) st []
  rw [List.nil_append] at hcalls
  refine ⟨(t.visit f st).1, (t.visit f st).2, calls, ⟨?_, hcalls⟩, ⟨t.visitCells_eq f st, rfl⟩, hvisited, ?_, ?_, ?_⟩
  · rw [t.visitCells_eq, hcalls]
  · rw [Tree.walkValues_eq]
    exact Tree.spotsPre_map_value .root _
  · rw [Tree.walkValues_eq]
    exact Tree.spotsIn_map_value .root _
  · rw [Tree.walkValues_eq]
    exact Tree.spotsPost_map_value .root _

end TreeWalk
