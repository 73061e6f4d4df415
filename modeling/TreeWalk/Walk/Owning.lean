import TreeWalk.Tree
import TreeWalk.Walk

/-!
# The owning walk

`Owning α` takes a tree apart as it goes. A step takes the top node off the stack, takes both subtrees
away from it (`Node.detach`), puts them on the stack as in the pre-order walk, and hands out the value of
the leaf that is left. The nodes on the stack are all that the walk still owns.
-/

namespace TreeWalk

universe u

/-- A walk that takes a tree apart in pre-order: the nodes it still owns, the next one first. -/
structure Owning (α : Type u) where
  stack : List (Node α)

namespace Owning

variable {α : Type u}

/-- The walk that takes one node and all below it apart. -/
def ofNode (n : Node α) : Owning α := ⟨[n]⟩

def ofTree (t : Tree α) : Owning α := ⟨t.root?.toList⟩

/-- Hands out the value of the top node, which has given up its subtrees to the stack. -/
def next? (w : Owning α) : Option (α × Owning α) :=
  match w.stack with
  | [] => none
  | n :: stack =>
      let (shell, left, right) := n.detach
      some (shell.value, ⟨left.root?.toList ++ (right.root?.toList ++ stack)⟩)

def work (w : Owning α) : Nat := Walk.load Node.size w.stack

theorem load_root? (t : Tree α) : Walk.load Node.size t.root?.toList = t.size := by
  cases t with
  | empty => rfl
  | node => simp [Node.size]

theorem work_next? {w w' : Owning α} {a : α} (h : w.next? = some (a, w')) : w'.work + 1 = w.work := by
  obtain ⟨stack⟩ := w
  cases stack with
  | nil => simp [next?] at h
  | cons n below =>
    simp only [next?, Node.detach, Option.some.injEq, Prod.mk.injEq] at h
    obtain ⟨rfl, rfl⟩ := h
    simp only [work, Walk.load_append, load_root?, Walk.load_cons, Node.size]
    omega

instance : Walk (Owning α) α where
  next? := next?
  work := work
  work_lt h := by have := work_next? h; omega

end Owning

end TreeWalk
