/-!
# What can be wrong with a request

Every way in which a request or a step of it can fail is a `Fault`. A fault has a kind (`Fault.kind`) and a
text (`Fault.message`). The trees and walks themselves never fail: all faults are about what a request says
or about the slots, nodes and walks that it names.
-/

namespace TreeWalk

/-- A way in which a request or one of its steps can fail. -/
inductive Fault where
  /-- A field that has to be a text is absent or is something else. -/
  | missingText (field : String)
  | missingSteps
  | unknownOp (name : String)
  | unknownStep (name : String)
  | unknownKind
  | unknownForm
  | unknownOrder
  | unknownPermute
  /-- A walk is to be walked together with itself. -/
  | oneWalkTwice
  | notAValue
  | notATree
  /-- A listing of a tree ends before the tree is complete. -/
  | missingSubtree
  /-- A listing of a tree goes on after the tree is complete. -/
  | extraSubtrees
  | unknownShape
  | emptyNode
  | notAnEdit
  | unknownEdit
  | noSlot (name : String)
  | noNode (path : String)
  | noWalk (field : String)
  /-- The step does not apply to what the slot holds. -/
  | wrongKind
  | notANode
  deriving DecidableEq

namespace Fault

def kind : Fault → String
  | missingText _ | missingSteps | unknownOp _ | unknownStep _ | unknownKind | unknownForm | unknownOrder
  | unknownPermute | oneWalkTwice => "bad_request"
  | notAValue => "bad_value"
  | notATree | missingSubtree | extraSubtrees | unknownShape | emptyNode => "bad_tree"
  | notAnEdit | unknownEdit => "bad_edit"
  | noSlot _ => "no_slot"
  | noNode _ => "no_node"
  | noWalk _ => "no_iterator"
  | wrongKind | notANode => "wrong_kind"

def message : Fault → String
  | missingText field => "missing string field " ++ field
  | missingSteps => "missing steps"
  | unknownOp name => "unknown op " ++ name
  | unknownStep name => "unknown step " ++ name
  | unknownKind => "unknown kind"
  | unknownForm => "unknown form"
  | unknownOrder => "unknown order"
  | unknownPermute => "unknown permute"
  | oneWalkTwice => "zip needs two iterators"
  | notAValue => "not a value"
  | notATree => "not a tree"
  | missingSubtree => "missing subtree"
  | extraSubtrees => "extra subtrees"
  | unknownShape => "unknown gen"
  | emptyNode => "empty node"
  | notAnEdit => "not an edit"
  | unknownEdit => "unknown edit"
  | noSlot name => name
  | noNode path => path
  | noWalk field => field
  | wrongKind => "step not available on this kind"
  | notANode => "not a node"

end Fault

end TreeWalk
