import TreeWalk.Place
import TreeWalk.Walk

/-!
# The post-order walk

`Postorder α` keeps one stack for two kinds of entries: nodes whose left subtree is done, and right
children that are still to be walked. Going down a left edge (`pushEdge`) puts every node on the stack
directly above its own right child. A node is taken off twice if it has a right child: the first time
that child lies right below it, is taken out, and its subtree is walked with the node put back beneath;
the second time something else lies there, and the node is handed out. Which of the two it is shows in
the place of the entry below, so nodes that look alike are not confused.

`Postorder.work` is the exact number of iterations (`step`) that are left. It is computed without
running them: a tree costs one iteration for each node and one more for each node with a right child
(`Tree.turns`), and every iteration lowers it by one, whatever the stack holds (`work_step`).
-/

namespace TreeWalk

universe u

/-- A post-order walk: nodes that are next once what lies above them is done, each directly above its
right child while that child is still to be walked. The next entry comes first. -/
structure Postorder (α : Type u) where
  stack : List (Spot α)

/-- The number of nodes, and of nodes with a right child, together. -/
def Tree.turns {α : Type u} : Tree α → Nat
  | .empty => 0
  | .node _ left right => 1 + left.turns + (if right.isEmpty then 0 else 1) + right.turns

namespace Postorder

variable {α : Type u}

/-- Puts the root of a tree, its left child, the left child of that and so on onto a stack, each one
above its right child. The tree lies at the place `p`. -/
def pushEdge (stack : List (Spot α)) (p : Place) : Tree α → List (Spot α)
  | .empty => stack
  | .node value left right =>
      pushEdge (⟨p, ⟨value, left, right⟩⟩ :: ((right.spot? p.right).toList ++ stack)) p.left left

def ofSpot (s : Spot α) : Postorder α := ⟨pushEdge [] s.place s.node.toTree⟩

/-- The walk over the subtree of one node, with places counted from it. -/
def ofNode (n : Node α) : Postorder α := ofSpot ⟨.root, n⟩

def ofTree (t : Tree α) : Postorder α := ⟨pushEdge [] .root t⟩

inductive Turn (α : Type u) where
  | done
  | visit (s : Spot α) (w : Postorder α)
  /-- A node was put back beneath its right subtree. -/
  | putBack (w : Postorder α)

/-- Takes the right child of `s` off the stack, if that is what lies on top of it. -/
def takeRight? (s : Spot α) : List (Spot α) → Option (Spot α × List (Spot α))
  | [] => none
  | top :: below => match s.right? with
    | none => none
    | some r => if top.place = r.place then some (r, below) else none

/-- One iteration: takes the top node off, and either hands it out or, if its right child lies right
below it, puts it back beneath the left edge of that child. -/
def step (w : Postorder α) : Turn α :=
  match w.stack with
  | [] => .done
  | s :: stack => match takeRight? s stack with
    | none => .visit s ⟨stack⟩
    | some (r, below) => .putBack ⟨pushEdge (s :: below) r.place r.node.toTree⟩

/-- The iterations that are left when `s` lies on a stack. -/
def workAbove (s : Spot α) : List (Spot α) → Nat
  | [] => 1
  | top :: below => match s.right? with
    | none => 1 + workAbove top below
    | some r =>
        if top.place = r.place then 1 + r.node.toTree.turns + workAbove s below
        else 1 + workAbove top below

def workOn : List (Spot α) → Nat
  | [] => 0
  | s :: stack => workAbove s stack

def work (w : Postorder α) : Nat := workOn w.stack

@[simp] theorem workOn_cons (s : Spot α) (stack : List (Spot α)) : workOn (s :: stack) = workAbove s stack := rfl

theorem workAbove_of_takeRight?_none {s : Spot α} {stack : List (Spot α)} (h : takeRight? s stack = none) :
    workAbove s stack = 1 + workOn stack := by
  cases stack with
  | nil => rfl
  | cons top below =>
    simp only [takeRight?] at h
    simp only [workAbove, workOn]
    split
    · rfl
    · next r hr =>
      simp only [hr] at h
      split at h
      · simp at h
      · next hne => rw [if_neg hne]

theorem workAbove_of_takeRight?_some {s r : Spot α} {stack below : List (Spot α)}
    (h : takeRight? s stack = some (r, below)) :
    workAbove s stack = 1 + r.node.toTree.turns + workAbove s below := by
  cases stack with
  | nil => simp [takeRight?] at h
  | cons top rest =>
    simp only [takeRight?] at h
    simp only [workAbove]
    split at h
    · simp at h
    · next r' hr =>
      split at h
      · next he =>
        simp only [Option.some.injEq, Prod.mk.injEq] at h
        obtain ⟨rfl, rfl⟩ := h
        rw [if_pos he]
      · simp at h

/-- The next entry of the stack, if there is one, is less deep than `d`. -/
def TopAbove (d : Nat) (stack : List (Spot α)) : Prop := ∀ s ∈ stack.head?, s.place.depth < d

theorem topAbove_nil (d : Nat) : TopAbove d ([] : List (Spot α)) := by simp [TopAbove]

theorem topAbove_cons {d : Nat} {s : Spot α} (h : s.place.depth < d) (stack : List (Spot α)) :
    TopAbove d (s :: stack) := by
  simpa [TopAbove] using h

theorem takeRight?_of_topAbove {s : Spot α} {d : Nat} {stack : List (Spot α)} (h : TopAbove d stack)
    (hd : d ≤ s.place.depth + 1) : takeRight? s stack = none := by
  cases stack with
  | nil => rfl
  | cons top below =>
    have htop : top.place.depth < d := h top (by simp)
    simp only [takeRight?]
    split
    · rfl
    · next r hr =>
      rw [if_neg]
      intro he
      have : r.place = s.place.right := by
        simp only [Spot.right?, Tree.spot?, Option.map_eq_some_iff] at hr
        obtain ⟨n, _, rfl⟩ := hr
        rfl
      have hdepth := congrArg Place.depth (he.trans this)
      rw [Place.depth_right] at hdepth
      omega

/-- A tree costs its own iterations, whatever lies beneath it, if the entry right beneath it is not as
deep as the tree's root. -/
theorem workOn_pushEdge {stack : List (Spot α)} {p : Place} (t : Tree α) (h : TopAbove p.depth stack) :
    workOn (pushEdge stack p t) = t.turns + workOn stack := by
  induction t generalizing stack p with
  | empty => simp [pushEdge, Tree.turns]
  | node value left right ihLeft ihRight =>
    rw [pushEdge, ihLeft (topAbove_cons (Nat.lt_succ_self _) _)]
    simp only [workOn_cons, Tree.turns]
    cases hr : right with
    | empty =>
      rw [Tree.spot?_empty, Option.toList_none, List.nil_append,
        workAbove_of_takeRight?_none (takeRight?_of_topAbove h (Nat.le_succ _))]
      simp [Tree.turns, Tree.isEmpty]
      omega
    | node v l r =>
      have hs : takeRight? (⟨p, ⟨value, left, .node v l r⟩⟩ : Spot α)
          (((Tree.node v l r).spot? p.right).toList ++ stack) = some (⟨p.right, ⟨v, l, r⟩⟩, stack) := by
        simp [takeRight?, Spot.right?]
      rw [workAbove_of_takeRight?_some hs,
        workAbove_of_takeRight?_none (takeRight?_of_topAbove h (Nat.le_succ _))]
      simp [Node.toTree, Tree.isEmpty]
      omega

/-- An iteration that hands out a node is one of those that were left. -/
theorem work_of_visit {w w' : Postorder α} {s : Spot α} (h : w.step = .visit s w') : w'.work + 1 = w.work := by
  obtain ⟨stack⟩ := w
  cases stack with
  | nil => simp [step] at h
  | cons top below =>
    simp only [step] at h
    split at h
    · next ht =>
      simp only [Turn.visit.injEq] at h
      obtain ⟨rfl, rfl⟩ := h
      simp only [work, workOn, workAbove_of_takeRight?_none ht]
      omega
    · simp at h

/-- An iteration that puts a node back is one of those that were left. -/
theorem work_of_putBack {w w' : Postorder α} (h : w.step = .putBack w') : w'.work + 1 = w.work := by
  obtain ⟨stack⟩ := w
  cases stack with
  | nil => simp [step] at h
  | cons s stack =>
    simp only [step] at h
    split at h
    · simp at h
    · next r below ht =>
      simp only [Turn.putBack.injEq] at h
      subst h
      have hplace : r.place.depth = s.place.depth + 1 := by
        cases stack with
        | nil => simp [takeRight?] at ht
        | cons top rest =>
          simp only [takeRight?] at ht
          split at ht
          · simp at ht
          · next r' hr =>
            split at ht
            · simp only [Option.some.injEq, Prod.mk.injEq] at ht
              obtain ⟨rfl, rfl⟩ := ht
              simp only [Spot.right?, Tree.spot?, Option.map_eq_some_iff] at hr
              obtain ⟨n, _, rfl⟩ := hr
              rfl
            · simp at ht
      have habove : TopAbove r.place.depth (s :: below) := topAbove_cons (by omega) below
      simp only [work, workOn_pushEdge _ habove]
      simp only [workOn, workAbove_of_takeRight?_some ht]
      omega

/-- Iterates until a node is handed out or the stack is empty. -/
def next? (w : Postorder α) : Option (Spot α × Postorder α) :=
  match _h : w.step with
  | .done => none
  | .visit s w' => some (s, w')
  | .putBack w' => next? w'
termination_by w.work
decreasing_by have := work_of_putBack ‹_›; omega

theorem work_next? {w w' : Postorder α} {s : Spot α} (h : w.next? = some (s, w')) : w'.work < w.work := by
  fun_induction next? w with
  | case1 => simp at h
  | case2 w t w'' ht =>
    simp only [Option.some.injEq, Prod.mk.injEq] at h
    obtain ⟨rfl, rfl⟩ := h
    have := work_of_visit ht
    omega
  | case3 w w'' ht ih =>
    have := ih h
    have := work_of_putBack ht
    omega

instance : Walk (Postorder α) (Spot α) where
  next? := next?
  work := work
  work_lt := work_next?

end Postorder

end TreeWalk
