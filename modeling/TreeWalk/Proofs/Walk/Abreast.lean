import TreeWalk.Proofs.Walk.CellSteps
import TreeWalk.Proofs.Walk.Owning

/-!
# Three pre-order walks abreast

The pre-order walk, the walk over cells and the owning walk keep stacks of the same subtrees, so they are at the same
node all the time, whatever is written to the cells meanwhile.

* `CellStep.stack_run` : the stack of a walk over cells after a program is that of the pre-order walk after as many
  calls;
* `Owning.stack_after` : the same for the owning walk, over a tree in which every node holds something made of the node.
  If that is the value, it is the tree itself (`Owning.stack_after_ofTree`); if it is the place, then what the owning
  walk keeps and hands out tells at which node it is;
* `CellWalk.call_of_stack_eq`, `Owning.call_of_stack_eq` : one call of two walks that keep the same stack;
* `walks_abreast` : the three walks after as many calls of each. The next call answers a node, the cell of this node,
  and its value; the walk that owns a tree of places answers its place. One call after another gives the nodes in the
  order node, left subtree, right subtree, each of them once, and then nothing for ever. Their values are those of the
  recursive pre-order, and they are as many as the recursion counts.
-/

namespace TreeWalk

universe u v

variable {α : Type u} {β : Type v}

/-! ## One call -/

/-- All that a call of the pre-order walk can do. -/
theorem Preorder.call_cases (w : Preorder α) :
    (w.stack = [] ∧ Walk.call w = (none, w)) ∨
    ∃ s stack, w.stack = s :: stack ∧ Walk.call w = (some s, ⟨pushChildren s stack⟩) := by
  obtain ⟨_ | ⟨s, stack⟩⟩ := w
  · exact Or.inl ⟨rfl, rfl⟩
  · exact Or.inr ⟨s, stack, rfl, rfl⟩

theorem CellWalk.call_of_stack_eq {w : CellWalk α} {shared : Preorder α} (h : w.stack = shared.stack) :
    (Walk.call w).2.stack = (Walk.call shared).2.stack ∧
      (Walk.call w).1 = (Walk.call shared).1.map (fun _ => w.cells.size) ∧
      (Walk.call w).2.cells.toList = w.cells.toList ++ ((Walk.call shared).1.map Cell.ofSpot).toList := by
  rcases shared.call_cases with ⟨hstack, hshared⟩ | ⟨s, stack, hstack, hshared⟩
  · rcases w.call_cases with ⟨-, hcall⟩ | ⟨_, _, hw, -⟩
    · rw [hcall, hshared]
      exact ⟨h, rfl, (List.append_nil _).symm⟩
    · rw [h, hstack] at hw
      cases hw
  · rcases w.call_cases with ⟨hw, -⟩ | ⟨_, _, hw, hcall⟩
    · rw [h, hstack] at hw
      cases hw
    · rw [h, hstack, List.cons.injEq] at hw
      obtain ⟨rfl, rfl⟩ := hw
      rw [hcall, hshared]
      exact ⟨rfl, rfl, Array.toList_push⟩

/-- The cell that a call answers lies at the place of the node that the other walk answers, and holds its value. -/
theorem CellWalk.map_cell_call {w : CellWalk α} {shared : Preorder α} (h : w.stack = shared.stack) :
    ((Walk.call w).1.bind fun i => (Walk.call w).2.cells[i]?).map (fun c => (c.place, c.value)) =
      (Walk.call shared).1.map fun s => (s.place, s.value) := by
  obtain ⟨-, hnumber, hcells⟩ := call_of_stack_eq h
  rw [hnumber]
  cases hcall : (Walk.call shared).1 with
  | none => rfl
  | some s =>
    rw [hcall, Option.map_some, Option.toList_some] at hcells
    have hcell : (Walk.call w).2.cells[w.cells.size]? = some (.ofSpot s) := by
      rw [← Array.getElem?_toList, hcells, ← Array.length_toList]
      exact List.getElem?_concat_length
    rw [Option.map_some, Option.bind_some, hcell]
    rfl

/-- The children of a node that holds other values come from its children. -/
theorem Preorder.map_relabel_pushChildren (g : Spot α → β) (s : Spot α) (stack : List (Spot α)) :
    (pushChildren s stack).map (Spot.relabel g) = (s.relabel g).left.root?.toList ++
      ((s.relabel g).right.root?.toList ++ stack.map (Spot.relabel g)) := by
  unfold pushChildren Spot.left? Spot.right?
  rw [List.map_append, List.map_append, ← Option.toList_map, ← Option.toList_map, ← Tree.root?_relabel,
    ← Tree.root?_relabel]
  rfl

theorem Owning.call_of_stack_eq {g : Spot α → β} {w : Owning β} {shared : Preorder α}
    (h : w.stack = shared.stack.map (Spot.relabel g)) :
    (Walk.call w).2.stack = (Walk.call shared).2.stack.map (Spot.relabel g) ∧
      (Walk.call w).1 = (Walk.call shared).1.map g := by
  obtain ⟨stack⟩ := w
  obtain rfl : stack = shared.stack.map (Spot.relabel g) := h
  obtain ⟨_ | ⟨s, below⟩⟩ := shared
  · exact ⟨rfl, rfl⟩
  · exact ⟨(Preorder.map_relabel_pushChildren g s below).symm, rfl⟩

/-! ## Any number of calls -/

theorem Owning.stack_after (g : Spot α → β) (t : Tree α) (k : Nat) :
    (Walk.after k (ofTree (t.relabel g .root))).stack =
      (Walk.after k (Preorder.ofTree t)).stack.map (Spot.relabel g) := by
  have key : ∀ (w : Owning β) (shared : Preorder α), w.stack = shared.stack.map (Spot.relabel g) →
      (Walk.after k w).stack = (Walk.after k shared).stack.map (Spot.relabel g) := by
    induction k with
    | zero => exact fun w shared h => h
    | succ k ih => exact fun w shared h => ih _ _ (Owning.call_of_stack_eq h).1
  refine key _ _ ?_
  unfold ofTree Preorder.ofTree
  rw [Tree.root?_relabel, Option.toList_map]

theorem Owning.stack_after_ofTree (t : Tree α) (k : Nat) :
    (Walk.after k (ofTree t)).stack = (Walk.after k (Preorder.ofTree t)).stack.map Spot.node := by
  have h := stack_after Spot.value t k
  rw [t.relabel_value] at h
  rw [h]
  exact List.map_congr_left fun s _ => s.relabel_value

namespace CellStep

theorem stack_foldl (steps : List (CellStep α)) {w : CellWalk α} {shared : Preorder α} (h : w.stack = shared.stack) :
    (run steps w).stack = (Walk.after (calls steps) shared).stack := by
  induction steps generalizing w shared with
  | nil => exact h
  | cons step steps ih =>
    cases step with
    | next => exact ih (CellWalk.call_of_stack_eq h).1
    | write i a => exact ih (w := w.set i a) h
    | swap i j => exact ih ((w.stack_swap i j).trans h)

theorem stack_run (t : Tree α) (steps : List (CellStep α)) :
    (run steps (.ofTree t)).stack = (Walk.after (calls steps) (Preorder.ofTree t)).stack :=
  stack_foldl steps rfl

end CellStep

/-- **Three walks abreast.** After as many calls of each, whatever a program has done with the cells, the three stacks
hold the same subtrees of the tree, each at its own place and as it was at the start. So the next call of the three
answers the same node, and its value. -/
theorem walks_abreast (t : Tree α) (steps : List (CellStep α)) :
    let k := CellStep.calls steps
    let shared := Walk.after k (Preorder.ofTree t)
    let cells := CellStep.run steps (.ofTree t)
    let owning := Walk.after k (Owning.ofTree t)
    let placed := Walk.after k (Owning.ofTree (t.relabel Spot.place .root))
    (cells.stack = shared.stack ∧ owning.stack = shared.stack.map Spot.node ∧
      placed.stack = shared.stack.map (Spot.relabel Spot.place) ∧
      shared.stack.map (fun s => t.locate? s.place.path) = shared.stack.map some) ∧
    ((Walk.call cells).1 = (Walk.call shared).1.map (fun _ => cells.cells.size) ∧
      (Walk.call cells).2.cells.toList = cells.cells.toList ++ ((Walk.call shared).1.map Cell.ofSpot).toList ∧
      ((Walk.call cells).1.bind fun i => (Walk.call cells).2.cells[i]?).map (fun c => (c.place, c.value)) =
        (Walk.call shared).1.map (fun s => (s.place, s.value)) ∧
      (Walk.call owning).1 = (Walk.call shared).1.map Spot.value ∧
      (Walk.call placed).1 = (Walk.call shared).1.map Spot.place) ∧
    (Walk.HandsOut (Preorder.ofTree t) (t.spotsPre .root) ∧ t.ListedBy .root (t.spotsPre .root) ∧
      (t.spotsPre .root).map Spot.value = t.preorder ∧ Walk.HandsOut (Owning.ofTree t) t.preorder) ∧
    Walk.count (Preorder.ofTree t) = t.size := by
  intro k shared cells owning placed
  have hcells : cells.stack = shared.stack := CellStep.stack_run t steps
  have howning : owning.stack = shared.stack.map (Spot.relabel Spot.value) := by
    have h := Owning.stack_after Spot.value t k
    rwa [t.relabel_value] at h
  have hplaced : placed.stack = shared.stack.map (Spot.relabel Spot.place) := Owning.stack_after Spot.place t k
  have hshared : Walk.HandsOut (Preorder.ofTree t) (t.spotsPre .root) :=
    Walk.handsOut_of_toList_eq (Preorder.toList_ofTree t)
  have howned : Walk.HandsOut (Owning.ofTree t) t.preorder := Walk.handsOut_of_toList_eq (Owning.toList_ofTree t)
  obtain ⟨-, hnumber, hcell⟩ := CellWalk.call_of_stack_eq hcells
  exact ⟨⟨hcells, Owning.stack_after_ofTree t k, hplaced, Preorder.map_locate?_after k t⟩,
    ⟨hnumber, hcell, CellWalk.map_cell_call hcells, (Owning.call_of_stack_eq howning).2,
      (Owning.call_of_stack_eq hplaced).2⟩,
    ⟨hshared, t.listedBy_spotsPre .root, t.spotsPre_map_value .root, howned⟩, Preorder.count_ofTree t⟩

end TreeWalk
