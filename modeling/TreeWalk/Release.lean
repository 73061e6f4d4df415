import TreeWalk.Walk.Owning

/-!
# Releasing trees

A node owns the values and nodes below it, and gives all of them up when it is released: its own value
first, then its left slot, then its right slot. A slot is emptied by a loop with a stack: it takes a node
off, takes both subtrees away from that node and puts them on the stack, the right one on top, and only
then releases the node, which is a leaf by now. So the release of one node never runs inside that of
another to a depth that grows with the tree.

The account of a release is a list of `Event`s: which slots were opened and closed, and which nodes were
released in which state. `Event.values` reads off the values in the order in which they are freed.

`Node.releaseInto`, `Tree.releaseSlotInto` and `emptyStackInto` add to an account that is already there;
`Node.release`, `Tree.release` and `Owning.release` are the accounts of one release. A tree or node
whose release follows the recursion instead frees its values in pre-order, `Tree.preorder`.
-/

namespace TreeWalk

universe u

/-- An event in the account of a release. -/
inductive Event (α : Type u) where
  | opened
  /-- A node is released, in the state in which it is then. -/
  | freed (n : Node α)
  | closed

namespace Event

variable {α : Type u}

def value? : Event α → Option α
  | freed n => some n.value
  | _ => none

/-- The values freed in an account, in order. -/
def values (events : List (Event α)) : List α := events.filterMap value?

end Event

variable {α : Type u}

mutual

/-- Releases a node: its own value, then its left slot, then its right slot. -/
def Node.releaseInto (n : Node α) (account : Array (Event α)) : Array (Event α) :=
  n.right.releaseSlotInto (n.left.releaseSlotInto (account.push (.freed n)))
termination_by (n.size, 0)
decreasing_by all_goals (apply Prod.Lex.left; simp only [Node.size]; omega)

def Tree.releaseSlotInto (t : Tree α) (account : Array (Event α)) : Array (Event α) :=
  (emptyStackInto t.root?.toList (account.push .opened)).push .closed
termination_by (t.size, 2)
decreasing_by rw [Owning.load_root?]; exact Prod.Lex.right _ (by decide)

/-- Takes the nodes of a stack apart and releases each one once its subtrees are on the stack. -/
def emptyStackInto (stack : List (Node α)) (account : Array (Event α)) : Array (Event α) :=
  match stack with
  | [] => account
  | n :: stack => match _h : n.detach with
    | (shell, left, right) =>
        emptyStackInto (right.root?.toList ++ (left.root?.toList ++ stack)) (shell.releaseInto account)
termination_by (Walk.load Node.size stack, 1)
decreasing_by
  · simp only [Node.detach, Prod.mk.injEq] at _h
    obtain ⟨rfl, -, -⟩ := _h
    rw [Walk.load_cons]
    rcases Nat.eq_or_lt_of_le (Nat.le_add_right_of_le (k := Walk.load Node.size stack) n.size_pos) with h | h
    · rw [← h]
      exact Prod.Lex.right _ (by decide)
    · exact Prod.Lex.left _ _ h
  · simp only [Node.detach, Prod.mk.injEq] at _h
    obtain ⟨-, rfl, rfl⟩ := _h
    apply Prod.Lex.left
    simp only [Walk.load_append, Owning.load_root?, Walk.load_cons, Node.size]
    omega

end

def Node.release (n : Node α) : List (Event α) := (n.releaseInto #[]).toList

/-- The account of the release of a tree, which is that of its root. -/
def Tree.release (t : Tree α) : List (Event α) := (t.root?.elim #[] (Node.releaseInto · #[])).toList

/-- The account of what a call of a walk frees besides the value that it hands out: the leaf that held this
value gives up its slots. -/
def Owning.callAccount (w : Owning α) : List (Event α) :=
  match w.stack with
  | [] => []
  | n :: _ =>
      let shell := n.detach.1
      (shell.right.releaseSlotInto (shell.left.releaseSlotInto #[])).toList

/-- The account of the release of a walk that may have handed out some values: the nodes that it still
owns are released from the bottom of its stack to the top. -/
def Owning.release (w : Owning α) : List (Event α) :=
  (w.stack.reverse.foldl (fun account n => n.releaseInto account) #[]).toList

end TreeWalk
