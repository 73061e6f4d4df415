import TreeWalk.Digest
import TreeWalk.Edit
import TreeWalk.Session.Slots
import TreeWalk.Walk.Cells

/-!
# Steps that change values

* `setValue` : edits the value of one node;
* `mutate` : edits the values of some nodes in pre-order, or permutes the values of all.

An edit is read only where there is a value to be edited, so a fault in it shows only there.
-/

namespace TreeWalk.Session

def setValue (step : Datum) : Step Datum := do
  let (on, held) ← slot step "on"
  let path := (pathOf? step "path").getD []
  match ← (held.locate? path) with
  | none => pure .null
  | some s => do
      let edit ← Edit.read (step.field "edit")
      let value := edit.apply 0 s.value
      store on (held.replaceAt path { s.node with value })
      pure value.datum

/-- The numbers `skip`, `skip + every`, `skip + 2 * every` and so on below `n`, at most `take` of them. -/
def selection (n skip every : Nat) (take : Option Nat) : List Nat :=
  let count := (n - skip + every - 1) / every
  (List.range (match take with | none => count | some k => min count k)).map fun i => skip + every * i

/-- The cells with their values in reverse order. -/
def reverseCells (w : CellWalk Value) : CellWalk Value :=
  let n := w.cells.size
  (List.range (n / 2)).foldl (fun w i => w.swap i (n - 1 - i)) w

/-- The cells with each value moved one place to the front, and the first one to the end. -/
def rotateCells (w : CellWalk Value) : CellWalk Value :=
  (List.range (w.cells.size - 1)).foldl (fun w i => w.swap i (i + 1)) w

/-- The cells with those of the given numbers edited, each with its place in the list as its index. -/
def editCells (edit : Edit) (numbers : List Nat) (w : CellWalk Value) : CellWalk Value :=
  numbers.zipIdx.foldl (fun w (number, i) => match w.get? number with
    | some v => w.set number (edit.apply i v)
    | none => w) w

/-- Changes the values of a tree through its cells, and gives the values that the step answers: after a
permutation the new ones, before an edit the old ones of the cells that are edited. -/
def mutateTree (step : Datum) (t : Tree Value) : Except Fault (Tree Value × List Value) := do
  let w := Walk.finish (CellWalk.ofTree t)
  match step.text? "permute" with
  | some name => do
      let w ← match name with
        | "reverse" => .ok (reverseCells w)
        | "rotate" => .ok (rotateCells w)
        | _ => .error .unknownPermute
      pure (w.tree, w.values)
  | none => do
      let every := max 1 ((step.nat? "every").getD 1)
      let numbers := selection w.cells.size ((step.nat? "skip").getD 0) every (step.nat? "take")
      if numbers.isEmpty then pure (t, [])
      else
        let edit ← Edit.read (step.field "edit")
        pure ((editCells edit numbers w).tree, numbers.filterMap w.get?)

/-- Edits every value of a plain tree by recursion, and gives the old values. -/
def mutatePlain (step : Datum) (t : Tree Value) : Except Fault (Tree Value × List Value) := do
  if t.isEmpty then pure (t, [])
  else
    let edit ← Edit.read (step.field "edit")
    let (t, seen) := t.visit (fun v (seen : Array Value) => (edit.apply seen.size v, seen.push v)) #[]
    pure (t, seen.toList)

/-- Changes the values of a tree, of a subtree, or of a plain tree. -/
def mutate (step : Datum) : Step Datum := do
  let (on, held) ← slot step "on"
  let answer (values : List Value) : Datum := Digest.sequence (step.isTrue "digest") values
  match held, pathOf? step "path" with
  | .tree t, none => do
      let (t, values) ← mutateTree step t
      store on (.tree t)
      pure (answer values)
  | .plainTree t, none => do
      let (t, values) ← mutatePlain step t
      store on (.plainTree t)
      pure (answer values)
  | _, path? => do
      let path := path?.getD []
      match ← (held.locate? path) with
      | none => pure .null
      | some s => do
          let (t, values) ← mutateTree step s.node.toTree
          match t.root? with
          | some n => store on (held.replaceAt path n)
          | none => pure ()
          pure (answer values)

end TreeWalk.Session
