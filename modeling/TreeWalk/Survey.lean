import TreeWalk.Comparison
import TreeWalk.Copy
import TreeWalk.Release
import TreeWalk.Tree.Listing
import TreeWalk.Tree.Outline
import TreeWalk.Walk.Ordered

/-!
# Surveys

A survey answers all there is to know about one tree, each thing twice where both ways exist: as the walks
with stacks find it, and by recursion.
-/

namespace TreeWalk.Survey

def sequence (values : List Value) : Datum := .list (values.map Value.datum)

def pair (a b : Datum) : Datum := .list [a, b]

/-- The answer of a comparison and the number of pairs of values compared for it. -/
def comparison (c : Comparison Value) : Datum := pair (.bool c.equal) (.count c.compared.length)

/-- All there is to know about a tree. -/
def ofTree (t : Tree Value) : Datum :=
  let (copied, copyOrder) := t.copy noteCopy #[]
  let (plainCopied, plainCopyOrder) := t.visit noteCopy #[]
  let root := .option (t.root?.map (·.value.datum))
  .record [
    ("len", pair (.count (Walk.count (Preorder.ofTree t))) (.count t.size)),
    ("is_empty", pair (.bool t.isEmpty) (.bool t.isEmpty)),
    ("root", pair root root),
    ("pre", sequence (t.walkValues .preorder)),
    ("in", sequence (t.walkValues .inorder)),
    ("post", sequence (t.walkValues .postorder)),
    ("simple_pre", sequence t.preorder),
    ("simple_in", sequence t.inorder),
    ("simple_post", sequence t.postorder),
    ("clone_order", sequence copyOrder.toList),
    ("simple_clone_order", sequence plainCopyOrder.toList),
    ("eq_clone", comparison (Located.compareAbsent Value.eq (copied.located? "copy") (t.located? "tree"))),
    ("eq_self", comparison (Located.compareAbsent Value.eq (t.located? "tree") (t.located? "tree"))),
    ("simple_eq_clone", comparison (plainCopied.compare Value.eq t)),
    ("debug", .text (t.outline .flat Value.text)),
    ("simple_debug", .text (t.nested .flat Value.text)),
    ("drop_order", sequence (Event.values copied.release)),
    ("simple_drop_order", sequence plainCopied.preorder),
    ("owned", sequence (Walk.toList (Owning.ofTree t)))]

end TreeWalk.Survey
