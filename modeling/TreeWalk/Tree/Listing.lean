import TreeWalk.Tree.Shape
import TreeWalk.Value

/-!
# Reading trees

A tree is given by its listing or by its shape. The listing is the pre-order sequence of its values, with a
mark for every absent subtree. It is read from its end: every mark is a finished subtree, and every value
takes the two subtrees finished last as its left and right ones, so the first fault that is found is the
last one in the listing.
-/

namespace TreeWalk

variable {α : Type}

/-- Reads one entry of a listing on top of the subtrees that follow it: a mark, or a value over its subtrees. -/
def Tree.listStep (read : Datum → Except Fault α) (subtrees : List (Tree α)) :
    Datum → Except Fault (List (Tree α))
  | .null => .ok (.empty :: subtrees)
  | entry => do
      let value ← read entry
      match subtrees with
      | left :: right :: rest => .ok (.node value left right :: rest)
      | _ => .error .missingSubtree

/-- The tree that a listing describes. -/
def Tree.ofListing (read : Datum → Except Fault α) (entries : List Datum) : Except Fault (Tree α) := do
  match ← entries.reverse.foldlM (Tree.listStep read) [] with
  | [] => .error .missingSubtree
  | [t] => .ok t
  | _ => .error .extraSubtrees

/-- A tree of the shape that is named, whose nodes hold their numbers. -/
def Tree.ofShape (shape : String) (n : Nat) : Except Fault (Tree Value) :=
  let label (i : Nat) : Value := .int (Int64.ofNat i)
  if shape = "full" then .ok (Tree.complete label 1 n)
  else match Growth.ofName? shape with
    | some g => .ok (g.chain label n)
    | none => if n = 0 then .ok (Node.leaf (label 0)).toTree else .error .unknownShape

/-- The tree that a datum describes: by its listing, or by its shape and a number. -/
def Tree.read : Datum → Except Fault (Tree Value)
  | .list entries => Tree.ofListing Value.read entries
  | .record fields => do
      let shape ← (Datum.record fields).requireText "gen"
      Tree.ofShape shape (((Datum.record fields).nat? "n").getD 0)
  | _ => .error .notATree

end TreeWalk
