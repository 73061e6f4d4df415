import TreeWalk.Session.Slots
import TreeWalk.Tree.Listing

/-!
# Steps that make trees and nodes

* `build` : a tree, a node or a plain one of either from a description;
* `makeNode` : a node from a value and the nodes of other slots, which are moved out of them;
* `toTree` : a node moved out of its slot becomes the tree in another slot.
-/

namespace TreeWalk.Session

def requireRoot (t : Tree Value) : Except Fault (Node Value) :=
  match t.root? with
  | some n => .ok n
  | none => .error .emptyNode

/-- What is to be held for a description of a tree. The kind is looked at before the description, which does
not matter where the empty tree is asked for by name. -/
def Held.ofDescription (kind : String) (tree : Datum) : Except Fault Held :=
  match kind with
  | "tree" => do pure (.tree (← Tree.read tree))
  | "from" => do pure (.tree (← requireRoot (← Tree.read tree)).toTree)
  | "node" => do pure (.node (← requireRoot (← Tree.read tree)))
  | "simple" => do pure (.plainTree (← Tree.read tree))
  | "snode" => do pure (.plainNode (← requireRoot (← Tree.read tree)))
  | "default" => pure (.tree .empty)
  | "simple_default" => pure (.plainTree .empty)
  | _ => throw .unknownKind

def build (step : Datum) : Step Datum := do
  let target ← Action.text step "to"
  let held ← Held.ofDescription ((step.text? "kind").getD "tree") (step.field "tree")
  store target held
  pure Action.done

/-- Takes the node out of the slot that a field names; a field that holds nothing means no node. -/
def takeChild (step : Datum) (field : String) : Step (Option (Node Value)) :=
  match step.field field with
  | .null => pure none
  | _ => do
      let name ← Action.text step field
      pure (some (← takeNode name))

/-- A node of the form that is named. A leaf has no children, whatever was given. -/
def nodeOfForm (form : String) (value : Value) (left right : Option (Node Value)) : Except Fault (Node Value) :=
  match form with
  | "new" | "macro" | "macro_opt" => .ok (.ofChildren value left right)
  | "leaf" => .ok (.leaf value)
  | _ => .error .unknownForm

/-- Makes a node from a value and the nodes of other slots, which are moved out of them, the left one first. -/
def makeNode (step : Datum) : Step Datum := do
  let target ← Action.text step "to"
  let value ← Value.read (step.field "value")
  let left ← takeChild step "left"
  let right ← takeChild step "right"
  let n ← nodeOfForm ((step.text? "form").getD "new") value left right
  store target (.node n)
  pure (nodeDatum n)

/-- Moves a node out of its slot and makes it the tree in another one. -/
def toTree (step : Datum) : Step Datum := do
  let target ← Action.text step "to"
  match ← takeChild step "from" with
  | none => throw .wrongKind
  | some n => do
      store target (.tree n.toTree)
      pure Action.done

end TreeWalk.Session
