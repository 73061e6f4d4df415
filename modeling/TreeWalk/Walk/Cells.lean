import TreeWalk.Walk.Preorder

/-!
# The walk over the cells of a tree

`CellWalk α` hands out the cells of a tree in pre-order, so that the values in them can be changed while
the walk goes on. A cell is known by its number, which is the number of cells handed out before it. The
walk keeps the cells handed out so far apart from the subtrees still to be walked: what is written to a
cell can neither reach those subtrees nor turn the walk aside.

* `CellWalk.set`, `CellWalk.swap` : a new value for a cell, and the values of two cells exchanged;
* `CellWalk.tree` : the tree as it stands, put together from the cells and the subtrees still to come;
* `Tree.visitCells` : every value replaced by an action that keeps a state.
-/

namespace TreeWalk

universe u

/-- A cell of a tree: where it is, what it holds and which children lie below it. -/
structure Cell (α : Type u) where
  place : Place
  value : α
  hasLeft : Bool
  hasRight : Bool

/-- A pre-order walk over cells: the cells handed out so far, the first one first, and the subtrees still
to be walked, the next one first. -/
structure CellWalk (α : Type u) where
  cells : Array (Cell α)
  stack : List (Spot α)

namespace Cell

variable {α : Type u}

def ofSpot (s : Spot α) : Cell α := ⟨s.place, s.value, s.node.hasLeft, s.node.hasRight⟩

/-- Takes the first tree from a list if there is to be one. -/
def takeTree (isThere : Bool) (trees : List (Tree α)) : Tree α × List (Tree α) :=
  match isThere, trees with
  | true, t :: rest => (t, rest)
  | _, _ => (.empty, trees)

/-- Puts a cell over the subtrees that follow it in pre-order. -/
def attach (c : Cell α) (trees : List (Tree α)) : List (Tree α) :=
  let (left, trees) := takeTree c.hasLeft trees
  let (right, trees) := takeTree c.hasRight trees
  .node c.value left right :: trees

end Cell

namespace CellWalk

variable {α σ : Type u}

def ofTree (t : Tree α) : CellWalk α := ⟨#[], (t.spot? .root).toList⟩

/-- Hands out the cell of the top node, with the node's children in its place on the stack. -/
@[inline] def next? (w : CellWalk α) : Option (Nat × CellWalk α) :=
  match w with
  | ⟨_, []⟩ => none
  | ⟨cells, s :: stack⟩ => some (cells.size, ⟨cells.push (.ofSpot s), Preorder.pushChildren s stack⟩)

instance : Walk (CellWalk α) Nat where
  next? := next?
  work w := (⟨w.stack⟩ : Preorder α).work
  work_lt {w w' i} h := by
    obtain ⟨cells, stack⟩ := w
    cases stack with
    | nil => simp [next?] at h
    | cons s stack =>
      simp only [next?, Option.some.injEq, Prod.mk.injEq] at h
      obtain ⟨rfl, rfl⟩ := h
      exact Nat.lt_of_succ_le (Nat.le_of_eq (Preorder.work_pushChildren s stack))

/-- The value in the cell with the number `i`, if it has been handed out. -/
def get? (w : CellWalk α) (i : Nat) : Option α := w.cells[i]?.map Cell.value

def values (w : CellWalk α) : List α := (w.cells.map Cell.value).toList

/-- Writes a value to the cell with the number `i`, if it has been handed out. -/
def set (w : CellWalk α) (i : Nat) (a : α) : CellWalk α :=
  { w with cells := w.cells.modify i fun c => { c with value := a } }

/-- Exchanges the values in two cells, if both have been handed out. -/
def swap (w : CellWalk α) (i j : Nat) : CellWalk α :=
  match w.get? i, w.get? j with
  | some a, some b => (w.set i b).set j a
  | _, _ => w

/-- The tree as it stands. -/
def tree (w : CellWalk α) : Tree α :=
  (w.cells.foldr Cell.attach (w.stack.map (·.node.toTree))).headD .empty

/-- Replaces the value in the cell that a call hands out, until the walk ends. -/
def visitRest (f : α → StateM σ α) (w : CellWalk α) : StateM σ (CellWalk α) := fun st =>
  match _h : Walk.next? w with
  | none => (w, st)
  | some (i, w') => match w'.get? i with
    | none => visitRest f w' st
    | some a =>
        let (b, st) := f a st
        visitRest f (w'.set i b) st
termination_by Walk.work w
decreasing_by
  · exact Walk.work_lt ‹_›
  · exact (Walk.work_lt ‹_› : Walk.work w' < Walk.work w)

end CellWalk

/-- Replaces the values one after another as the cell walk hands out their cells; each replacement sees
the state that the one before it left. -/
def Tree.visitCells {α σ : Type u} (f : α → StateM σ α) (t : Tree α) : StateM σ (Tree α) := do
  let w ← (CellWalk.ofTree t).visitRest f
  pure w.tree

end TreeWalk
