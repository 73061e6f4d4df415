import TreeWalk.Action
import TreeWalk.Tree.Listing
import TreeWalk.Walk.Ordered

/-!
# Walks side by side

Several walks go over one tree, each at its own pace; they are numbered in the order in which they start.
The tree never changes. A node that a walk hands out is answered as its path from the root of the tree,
which tells it apart from every other node, and the end of a walk as nothing. A walk that has ended can
still be called.
-/

namespace TreeWalk.SideBySide

/-- A tree and the walks over it. -/
structure Walks where
  tree : Tree Value
  walks : Array (OrderedWalk Value)

abbrev Step (β : Type) := Action Walks β

/-- The number and the state of the walk that a field of the step names. -/
def walk (step : Datum) (field : String) : Step (Nat × OrderedWalk Value) := do
  match step.nat? field with
  | none => throw (.noWalk field)
  | some i => match (← get).walks[i]? with
    | none => throw (.noWalk field)
    | some w => pure (i, w)

/-- Sets the state of the walk with the number `i`. -/
def move (i : Nat) (w : OrderedWalk Value) : Step Unit :=
  modify fun s => { s with walks := s.walks.setIfInBounds i w }

/-- The answer for a node: its path. -/
def pathDatum (s : Spot Value) : Datum := .text (Side.pathText s.place.path)

def answerDatum (s? : Option (Spot Value)) : Datum := .option (s?.map pathDatum)

/-- The walk that a step starts, over the tree or over the subtree that a path leads to. -/
def startWalk (step : Datum) (t : Tree Value) : Except Fault (OrderedWalk Value) := do
  let name ← step.requireText "order"
  match step.text? "path" with
  | none => match Order.ofTreeName? name with
    | some order => pure (.ofTree t order)
    | none => throw .unknownOrder
  | some path => match t.locate? (Side.readPath path), Order.ofName? name with
    | none, _ => throw (.noNode path)
    | some s, some order => pure (.ofSpot s order)
    | some _, none => throw .unknownOrder

/-- Starts a walk and answers its number. -/
def start (step : Datum) : Step Datum := do
  let s ← get
  let w ← startWalk step s.tree
  set { s with walks := s.walks.push w }
  pure (.count s.walks.size)

/-- Moves two walks together until one of them ends, and answers the pairs of nodes and whether they are the
same. -/
def zip (step : Datum) : Step Datum := do
  let (i, a) ← walk step "a"
  let (j, b) ← walk step "b"
  if i = j then throw .oneWalkTwice
  let (pairs, a, b) := Walk.zipOnto #[] a b
  move i a
  move j b
  pure (.list (pairs.toList.map fun (x, y) => .list [pathDatum x, pathDatum y, .bool (x.place = y.place)]))

/-- Moves the walk with the number `i`, in the state `w`, as the step says. -/
def moveOne (name : String) (step : Datum) (i : Nat) (w : OrderedWalk Value) : Step Datum := do
  match name with
  | "next" => do
      let (answers, w) := Walk.calls ((step.nat? "n").getD 1) w
      move i w
      pure (.list (answers.map answerDatum))
  | "nth" => do
      let (s?, w) := Walk.nth? ((step.nat? "n").getD 0) w
      move i w
      pure (answerDatum s?)
  | "last" => do
      move i (Walk.finish w)
      pure (answerDatum (Walk.last? w))
  | "count" => do
      move i (Walk.finish w)
      pure (.count (Walk.count w))
  | "rest" => do
      move i (Walk.finish w)
      pure (.list ((Walk.toList w).map fun s => .list [pathDatum s, s.value.datum]))
  | "until" => do
      let v ← Value.read (step.field "value")
      let (s?, w) := Walk.find? (fun s => s.value.eq v) w
      move i w
      pure (answerDatum s?)
  | _ => throw (.unknownStep name)

/-- Runs the step that is named. All but two kinds of step move one walk, which is looked up first. -/
def perform (step : Datum) : Step Datum := do
  let name ← Action.text step "do"
  match name with
  | "new" => start step
  | "zip" => zip step
  | _ => do
      let (i, w) ← walk step "id"
      moveOne name step i w

def run (t : Tree Value) (steps : List Datum) : List Datum := Action.answers perform ⟨t, #[]⟩ steps

end TreeWalk.SideBySide
