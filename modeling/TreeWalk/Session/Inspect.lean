import TreeWalk.Comparison
import TreeWalk.Digest
import TreeWalk.Session.Slots
import TreeWalk.Tree.Outline
import TreeWalk.Walk.Ordered

/-!
# Steps that only look

* `len`, `getNode` : the size of a tree, and one node;
* `sequence` : the values in an order;
* `compare` : whether two trees or nodes are equal, and how much was compared to find out;
* `debug` : the text of a tree or node.
-/

namespace TreeWalk.Session

def len (step : Datum) : Step Datum := do
  match (← slot step "on").2 with
  | .tree t => pure (.list [.count (Walk.count (Preorder.ofTree t)), .bool t.isEmpty])
  | .plainTree t => pure (.list [.count t.size, .bool t.isEmpty])
  | _ => throw .wrongKind

/-- The node at the end of a path, if there is one; of a plain node only the value. -/
def getNode (step : Datum) : Step Datum := do
  let (_, held) ← slot step "on"
  let path := (pathOf? step "path").getD []
  match held with
  | .plainTree t => pure (.option ((t.locate? path).map (·.value.datum)))
  | .plainNode n => pure (.option ((n.toTree.locate? path).map (·.value.datum)))
  | _ => do
      let spot? ← held.locate? path
      pure (.option (spot?.map (nodeDatum ·.node)))

def plainValues (t : Tree Value) : Order → List Value
  | .preorder => t.preorder
  | .inorder => t.inorder
  | .postorder => t.postorder

/-- The values in an order. An order that does not exist is noticed only where there is a node, and a plain
tree does not know it. -/
def sequence (step : Datum) : Step Datum := do
  let name ← Action.text step "order"
  let (_, held) ← slot step "on"
  let answer (values : List Value) : Step Datum := pure (Digest.sequence (step.isTrue "digest") values)
  match held, pathOf? step "path", Order.ofName? name, Order.ofTreeName? name with
  | .tree t, none, _, some order => answer (t.walkValues order)
  | .plainTree t, none, some order, _ => answer (plainValues t order)
  | _, path?, order?, _ =>
    match ← held.locate? (path?.getD []), order? with
    | none, _ => pure .null
    | some _, none => throw .unknownOrder
    | some s, some order => answer (s.walkValues order)

/-- The answer of a comparison, the number of pairs of values compared for it, and the last such pair. -/
def comparisonDatum (c : Comparison Value) : Datum :=
  .record [("eq", .bool c.equal), ("compared", .count c.compared.length),
    ("last", .option (c.compared.getLast?.map fun (a, b) => .list [a.datum, b.datum]))]

/-- The node that a path leads to in a slot, as a node of that slot. -/
def located? (step : Datum) (pathField : String) (slot : String × Held) :
    Step (Option (Located String Value)) := do
  let spot? ← slot.2.locate? ((pathOf? step pathField).getD [])
  pure (spot?.map (Located.mk slot.1))

/-- Whether two trees or nodes are equal. Plain ones are compared by recursion and as a whole. -/
def compare (step : Datum) : Step Datum := do
  let a ← slot step "a"
  let b ← slot step "b"
  match a.2, b.2 with
  | .plainTree s, .plainTree t => pure (comparisonDatum (s.compare Value.eq t))
  | .plainNode m, .plainNode n => pure (comparisonDatum (m.toTree.compare Value.eq n.toTree))
  | _, _ => do
      let a? ← located? step "a_path" a
      let b? ← located? step "b_path" b
      pure (comparisonDatum (Located.compareAbsent Value.eq a? b?))

/-- The text of what a slot holds, or of the node that a path leads to. -/
def Held.debug (layout : Layout) (path? : Option (List Side)) (held : Held) : Except Fault String :=
  match held, path? with
  | .tree t, none => .ok (t.outline layout Value.text)
  | .node n, none => .ok (n.outline layout Value.text)
  | .plainTree t, none => .ok (t.nested layout Value.text)
  | .plainNode n, none => .ok (n.nested layout Value.text)
  | held, some path => do
      let spot? ← held.locate? path
      pure (layout.option (spot?.map (·.node.outline layout.inner Value.text)))
  | _, none => throw .wrongKind

def debug (step : Datum) : Step Datum := do
  let (_, held) ← slot step "on"
  let layout := if step.isTrue "pretty" then Layout.block 0 else .flat
  let text ← held.debug layout (pathOf? step "path")
  pure (Digest.text (step.isTrue "digest") text)

end TreeWalk.Session
