import TreeWalk.Tree

/-!
# Places in a tree

A `Place` tells a node of a tree apart from every other node, whatever values they hold: it is the way
from the root to the node. A `Spot` is a node together with its place, so that the walks, which hand
out spots, say which node they are at and not only what it holds.

* `Side`, `Place` : a step down, and a way down;
* `Spot.left?`, `Spot.right?` : the children of a node, at their places;
* `Tree.locate?`, `Tree.replaceAt` : the node at the end of a path, and the tree with the subtree there
  exchanged;
* `Tree.spotsPre`, `Tree.spotsIn`, `Tree.spotsPost` : all the nodes in the three orders, by recursion.

A place keeps the last step first, so a child's place shares its steps with its parent's. Two places are
compared by their depths, then by their last steps, then by the rest, which is found equal without
reading it when both share it. The comparison of a node's place with that of a child of the same
parent, or of a node on another level, is therefore fast at any depth.
-/

namespace TreeWalk

universe u

inductive Side where
  | left
  | right
  deriving DecidableEq

namespace Side

/-- The letter `L` means left, and any other one right. -/
def ofChar (c : Char) : Side := if c = 'L' then left else right

def toChar : Side → Char
  | left => 'L'
  | right => 'R'

/-- The path that a text spells out. -/
def readPath (s : String) : List Side := s.toList.map ofChar

def pathText (path : List Side) : String := String.ofList (path.map toChar)

end Side

/-- The way from the root of a tree down to one of its nodes. -/
structure Place where
  /-- The steps of the way, the last one first. -/
  steps : List Side
  depth : Nat
  depth_eq : depth = steps.length := by rfl

namespace Place

def root : Place := ⟨[], 0, rfl⟩

/-- One step further down. -/
def child (p : Place) (s : Side) : Place := ⟨s :: p.steps, p.depth + 1, by simp [p.depth_eq]⟩

def left (p : Place) : Place := p.child .left

def right (p : Place) : Place := p.child .right

/-- The steps from the root on. -/
def path (p : Place) : List Side := p.steps.reverse

@[simp] theorem depth_left (p : Place) : p.left.depth = p.depth + 1 := rfl

@[simp] theorem depth_right (p : Place) : p.right.depth = p.depth + 1 := rfl

theorem eq_of_steps_eq {p q : Place} (h : p.steps = q.steps) : p = q := by
  obtain ⟨ps, pd, hp⟩ := p
  obtain ⟨qs, qd, hq⟩ := q
  simp only at h
  subst h hp hq
  rfl

/-- Equality of the steps, which looks at the last step first. -/
def decideSteps : (ps qs : List Side) → Decidable (ps = qs)
  | [], [] => .isTrue rfl
  | [], _ :: _ => .isFalse (by simp)
  | _ :: _, [] => .isFalse (by simp)
  | s :: ps, t :: qs =>
      if h : s = t then
        match withPtrEqDecEq ps qs fun _ => decideSteps ps qs with
        | .isTrue e => .isTrue (by rw [h, e])
        | .isFalse e => .isFalse (by simp [e])
      else .isFalse (by simp [h])

instance : DecidableEq Place := fun p q =>
  if hd : p.depth = q.depth then
    match decideSteps p.steps q.steps with
    | .isTrue h => .isTrue (eq_of_steps_eq h)
    | .isFalse h => .isFalse fun e => h (by rw [e])
  else .isFalse fun e => hd (by rw [e])

end Place

/-- A node and where it is. -/
structure Spot (α : Type u) where
  place : Place
  node : Node α

variable {α : Type u}

/-- The root of the tree `t`, where `t` lies at the place `p` of a larger tree. -/
def Tree.spot? (p : Place) (t : Tree α) : Option (Spot α) := t.root?.map (Spot.mk p)

@[simp] theorem Tree.spot?_empty (p : Place) : (Tree.empty : Tree α).spot? p = none := rfl

@[simp] theorem Tree.spot?_node (p : Place) (value : α) (left right : Tree α) :
    (Tree.node value left right).spot? p = some ⟨p, ⟨value, left, right⟩⟩ := rfl

namespace Spot

def value (s : Spot α) : α := s.node.value

def size (s : Spot α) : Nat := s.node.size

def left? (s : Spot α) : Option (Spot α) := s.node.left.spot? s.place.left

def right? (s : Spot α) : Option (Spot α) := s.node.right.spot? s.place.right

def child? (s : Spot α) : Side → Option (Spot α)
  | .left => s.left?
  | .right => s.right?

/-- The node at the end of the path that starts at this one. -/
def follow? (s : Spot α) : List Side → Option (Spot α)
  | [] => some s
  | side :: path => match s.child? side with
    | none => none
    | some c => c.follow? path

end Spot

namespace Tree

/-- The node at the end of the path from the root, if the path stays in the tree. -/
def locate? (t : Tree α) (path : List Side) : Option (Spot α) :=
  (t.spot? .root).bind (·.follow? path)

/-- Exchanges the subtree at the end of the path; a path that leaves the tree changes nothing. -/
def replaceAt : Tree α → List Side → Tree α → Tree α
  | _, [], new => new
  | empty, _ :: _, _ => empty
  | node value left right, .left :: path, new => node value (left.replaceAt path new) right
  | node value left right, .right :: path, new => node value left (right.replaceAt path new)

/-- The nodes in pre-order, where the tree lies at the place `p`. -/
def spotsPre (p : Place) : Tree α → List (Spot α)
  | empty => []
  | node value left right =>
      ⟨p, ⟨value, left, right⟩⟩ :: (left.spotsPre p.left ++ right.spotsPre p.right)

def spotsIn (p : Place) : Tree α → List (Spot α)
  | empty => []
  | node value left right =>
      left.spotsIn p.left ++ ⟨p, ⟨value, left, right⟩⟩ :: right.spotsIn p.right

def spotsPost (p : Place) : Tree α → List (Spot α)
  | empty => []
  | node value left right =>
      left.spotsPost p.left ++ (right.spotsPost p.right ++ [⟨p, ⟨value, left, right⟩⟩])

end Tree

/-- Exchanges the node at the end of the path; a path that leaves the tree changes nothing. -/
def Node.replaceAt (n : Node α) (path : List Side) (new : Node α) : Node α :=
  match path with
  | [] => new
  | .left :: path => { n with left := n.left.replaceAt path new.toTree }
  | .right :: path => { n with right := n.right.replaceAt path new.toTree }

end TreeWalk
