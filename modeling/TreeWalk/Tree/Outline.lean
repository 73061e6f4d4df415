import TreeWalk.Layout
import TreeWalk.Walk.Preorder

/-!
# The texts of trees

There are two ways to show a tree. The outline (`Tree.outline`) is the list of its nodes in pre-order, and each
node shows its value and only the values of its children, so the text never nests with the depth of the tree.
The nested text (`Tree.nested`) follows the recursion: a node shows its subtrees inside it. It is written from its
start to its end behind what is already there (`Tree.nestedOnto`), so that no text is copied on the way up a deep
tree; `Tree.nestedRoot_node` gives the text of a tree from those of its subtrees.

How a value is shown is left open.
-/

namespace TreeWalk

universe u

variable {α : Type u}

/-- A node as a record of its value and its children, which are laid out as parts of it. -/
def Layout.node (layout : Layout) (value left right : String) : String :=
  layout.record "Node" [("value", value), ("left", left), ("right", right)]

def Node.outline (layout : Layout) (text : Layout → α → String) (n : Node α) : String :=
  let child (c? : Option (Node α)) : String := layout.inner.option (c?.map (text layout.inner.inner ·.value))
  layout.node (text layout.inner n.value) (child n.left?) (child n.right?)

def Tree.outline (layout : Layout) (text : Layout → α → String) (t : Tree α) : String :=
  layout.list ((Walk.toList (Preorder.ofTree t)).map (·.node.outline layout.inner text))

/-- Writes the root, as something that may be absent, with its subtrees inside it, behind the text `out`. -/
def Tree.nestedOnto (layout : Layout) (text : Layout → α → String) (out : String) : Tree α → String
  | .empty => out ++ layout.option none
  | .node value left right =>
      let node := layout.inner
      let out := out ++ "Some(" ++ layout.lead "" ++ "Node \x7b" ++ node.lead " " ++ "value: "
        ++ text node.inner value ++ node.separator ++ "left: "
      let out := left.nestedOnto node.inner text out ++ node.separator ++ "right: "
      right.nestedOnto node.inner text out ++ node.trail " " ++ "\x7d" ++ layout.trail "" ++ ")"

/-- The root as something that may be absent, with its subtrees inside it. -/
def Tree.nestedRoot (layout : Layout) (text : Layout → α → String) (t : Tree α) : String :=
  t.nestedOnto layout text ""

theorem Tree.nestedOnto_append (layout : Layout) (text : Layout → α → String) (t : Tree α) (s out : String) :
    t.nestedOnto layout text (s ++ out) = s ++ t.nestedOnto layout text out := by
  induction t generalizing layout out with
  | empty => simp only [nestedOnto, String.append_assoc]
  | node value left right ihLeft ihRight => simp only [nestedOnto, String.append_assoc, ihLeft, ihRight]

theorem Tree.nestedOnto_eq (layout : Layout) (text : Layout → α → String) (t : Tree α) (out : String) :
    t.nestedOnto layout text out = out ++ t.nestedRoot layout text := by
  rw [nestedRoot, ← nestedOnto_append, String.append_empty]

@[simp] theorem Tree.nestedRoot_empty (layout : Layout) (text : Layout → α → String) :
    (Tree.empty : Tree α).nestedRoot layout text = layout.option none := by
  rw [nestedRoot, nestedOnto, String.empty_append]

@[simp] theorem Tree.nestedRoot_node (layout : Layout) (text : Layout → α → String) (value : α)
    (left right : Tree α) :
    (Tree.node value left right).nestedRoot layout text =
      layout.option (some (layout.inner.node (text layout.inner.inner value)
        (left.nestedRoot layout.inner.inner text) (right.nestedRoot layout.inner.inner text))) := by
  have h₁ : "Some(" = "Some" ++ "(" := rfl
  have h₂ : "Node \x7b" = "Node" ++ " \x7b" := rfl
  have h₃ : "value: " = "value" ++ ": " := rfl
  have h₄ : "left: " = "left" ++ ": " := rfl
  have h₅ : "right: " = "right" ++ ": " := rfl
  rw [nestedRoot, nestedOnto, h₁, h₂, h₃, h₄, h₅]
  simp only [nestedOnto_eq, Layout.option, Layout.tuple, Layout.node, Layout.record, Layout.enclose, List.map,
    String.intercalate_cons_cons, String.intercalate_singleton, String.append_assoc, String.empty_append]

def Node.nested (layout : Layout) (text : Layout → α → String) (n : Node α) : String :=
  layout.node (text layout.inner n.value) (n.left.nestedRoot layout.inner text) (n.right.nestedRoot layout.inner text)

def Tree.nested (layout : Layout) (text : Layout → α → String) (t : Tree α) : String :=
  layout.record "SimpleTree" [("root", t.nestedRoot layout.inner text)]

end TreeWalk
