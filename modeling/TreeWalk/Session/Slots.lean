import TreeWalk.Action
import TreeWalk.Place
import TreeWalk.Value
import TreeWalk.Walk.Owning

/-!
# Slots and steps

A session keeps what it works on in named slots, and a step of it acts on these.

* `Held` : what a slot holds. Trees and nodes come in two sorts: those that are walked with stacks, and plain
  ones, on which everything follows the recursion of the tree;
* `Slots` : the slots, in ascending order of their names;
* `slot`, `takeNode` : the slot that a field names, and a node moved out of its slot;
* `Held.locate?`, `Held.replaceAt` : the node that a path leads to, and the exchange of that node.
-/

namespace TreeWalk.Session

/-- What a slot holds. -/
inductive Held where
  | tree (t : Tree Value)
  | node (n : Node Value)
  | owning (w : Owning Value)
  /-- A tree on which everything follows the recursion. -/
  | plainTree (t : Tree Value)
  /-- A node on which everything follows the recursion. -/
  | plainNode (n : Node Value)

/-- Named slots, in ascending order of the names. -/
structure Slots where
  entries : List (String × Held)

namespace Slots

def empty : Slots := ⟨[]⟩

/-- The content of the slot with the name, if there is one. -/
def get? (s : Slots) (name : String) : Option Held := s.entries.lookup name

/-- Puts an entry into a list at the place of its name, where it replaces one with the same name. -/
def insertEntry (name : String) (held : Held) : List (String × Held) → List (String × Held)
  | [] => [(name, held)]
  | (other, h) :: rest =>
      if name < other then (name, held) :: (other, h) :: rest
      else if name = other then (name, held) :: rest
      else (other, h) :: insertEntry name held rest

/-- Puts something into the slot with the name, where it replaces what was there. -/
def insert (s : Slots) (name : String) (held : Held) : Slots := ⟨insertEntry name held s.entries⟩

/-- Without the slot with the name. -/
def erase (s : Slots) (name : String) : Slots := ⟨s.entries.filter fun entry => entry.1 != name⟩

/-- The names of the slots, in ascending order. -/
def names (s : Slots) : List String := s.entries.map Prod.fst

end Slots

/-- What a step of a session does. -/
abbrev Step (β : Type) := Action Slots β

/-- The content of the slot with the name. -/
def held (name : String) : Step Held := do
  match (← get).get? name with
  | some h => pure h
  | none => throw (.noSlot name)

/-- The slot that a field of the step names, and its content. -/
def slot (step : Datum) (field : String) : Step (String × Held) := do
  let name ← Action.text step field
  pure (name, ← held name)

/-- Puts something into a slot. -/
def store (name : String) (held : Held) : Step Unit := modify (·.insert name held)

/-- Takes a node out of a slot. A slot that holds something else keeps it. -/
def takeNode (name : String) : Step (Node Value) := do
  match ← held name with
  | .node n => do
      modify (·.erase name)
      pure n
  | _ => throw .notANode

/-- A field of the step that may hold a path. -/
def pathOf? (step : Datum) (field : String) : Option (List Side) := (step.text? field).map Side.readPath

/-- The node that a path leads to in a tree or node. -/
def Held.locate? (path : List Side) : Held → Except Fault (Option (Spot Value))
  | .tree t => .ok (t.locate? path)
  | .node n => .ok (n.toTree.locate? path)
  | _ => .error .wrongKind

/-- Exchanges the node that a path leads to in a tree or node. -/
def Held.replaceAt (path : List Side) (new : Node Value) : Held → Held
  | .tree t => .tree (t.replaceAt path new.toTree)
  | .node n => .node (n.replaceAt path new)
  | held => held

/-- What is shown of a node: its value, and the children's presence and values. -/
def nodeDatum (n : Node Value) : Datum :=
  .record [("value", n.value.datum), ("has_left", .bool n.hasLeft), ("has_right", .bool n.hasRight),
    ("is_leaf", .bool n.isLeaf), ("left", .option (n.left?.map (·.value.datum))),
    ("right", .option (n.right?.map (·.value.datum)))]

end TreeWalk.Session
