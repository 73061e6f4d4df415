import TreeWalk.Copy
import TreeWalk.Digest
import TreeWalk.Release
import TreeWalk.Session.Slots

/-!
# Steps that copy, take apart and release

* `copy` : a copy of what a slot holds, with the order in which its values were copied;
* `intoOwning`, `nextOwned`, `restOwned` : a tree turned into a walk that takes it apart, and that walk;
* `release` : a slot given up, with the order in which its values are freed.
-/

namespace TreeWalk.Session

/-- A copy of what is held, or of the node that a path leads to, with the values in the order in which they
were copied. There is no copy where the path leads to no node. -/
def Held.copy? (path? : Option (List Side)) (held : Held) : Except Fault (Option (Held × List Value)) :=
  match held, path? with
  | .tree t, none =>
      let (t, copied) := t.copy noteCopy #[]
      .ok (some (.tree t, copied.toList))
  | .node n, none =>
      let (n, copied) := n.copy noteCopy #[]
      .ok (some (.node n, copied.toList))
  | .plainTree t, none =>
      let (t, copied) := t.visit noteCopy #[]
      .ok (some (.plainTree t, copied.toList))
  | .plainNode n, none =>
      let (n, copied) := n.visit noteCopy #[]
      .ok (some (.plainNode n, copied.toList))
  | held, some path => do
      let spot? ← held.locate? path
      pure (spot?.map fun s =>
        let (n, copied) := s.node.copy noteCopy #[]
        (.node n, copied.toList))
  | _, none => throw .wrongKind

/-- Puts a copy into a slot and answers the order in which the values were copied. -/
def copy (step : Datum) : Step Datum := do
  let target ← Action.text step "to"
  let (_, held) ← slot step "on"
  match ← (held.copy? (pathOf? step "path")) with
  | none => pure .null
  | some (held, copied) => do
      store target held
      pure (Digest.sequence (step.isTrue "digest") copied)

def intoOwning (step : Datum) : Step Datum := do
  let (on, held) ← slot step "on"
  let w ← match held with
    | .tree t => pure (Owning.ofTree t)
    | .node n => pure (Owning.ofNode n)
    | _ => throw .wrongKind
  store on (.owning w)
  pure Action.done

def owned (step : Datum) : Step (String × Owning Value) := do
  match ← slot step "on" with
  | (on, .owning w) => pure (on, w)
  | _ => throw .wrongKind

/-- The next values that a walk hands out, one for each call. -/
def nextOwned (step : Datum) : Step Datum := do
  let (on, w) ← owned step
  let (answers, w) := Walk.calls ((step.nat? "n").getD 1) w
  store on (.owning w)
  pure (.list (answers.map fun answer => .option (answer.map Value.datum)))

/-- All values that a walk still hands out; the walk that has ended stays in its slot. -/
def restOwned (step : Datum) : Step Datum := do
  let (on, w) ← owned step
  store on (.owning (Walk.finish w))
  pure (Digest.sequence (step.isTrue "digest") (Walk.toList w))

/-- The values in the order in which they are freed when what is held is released. -/
def Held.freed : Held → List Value
  | .tree t => Event.values t.release
  | .node n => Event.values n.release
  | .owning w => Event.values w.release
  | .plainTree t => t.preorder
  | .plainNode n => n.toTree.preorder

/-- Gives up a slot and answers the order in which the values in it are freed. -/
def release (step : Datum) : Step Datum := do
  let (on, held) ← slot step "on"
  modify (·.erase on)
  pure (Digest.sequence (step.isTrue "digest") held.freed)

end TreeWalk.Session
