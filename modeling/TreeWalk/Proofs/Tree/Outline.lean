import TreeWalk.Proofs.Text.Legible
import TreeWalk.Proofs.Walk.Preorder
import TreeWalk.Tree.Outline

/-!
# The texts of a tree identify it

Both texts of a tree can be read back if the texts of the values can. For the nested text this is an induction over the
tree. The outline is a flat list, and an entry shows only the values of the children: what it tells about the shape is
that a child is there, and then the entries of the subtree follow at once. So the entries of a tree end where they do,
also with the entries of other trees behind them (`Tree.eq_of_entries_append`).

* `Node.entry` : what the outline shows of a node;
* `Tree.eq_of_outline`, `Tree.eq_of_nested` : trees with the same text are the same;
* `Tree.texts_identify` : so it is with the two texts of trees of integers.
-/

namespace TreeWalk

open Text

universe u v

variable {α : Type u} {β γ : Type v} {layout : Layout} {text : Layout → α → String}

/-! ## The same tree -/

theorem Tree.eq_iff_sameShape {s t : Tree α} : s = t ↔ s.SameShape t ∧ s.preorder = t.preorder := by
  refine ⟨by rintro rfl; exact ⟨.refl _, rfl⟩, ?_⟩
  rintro ⟨hshape, hvalues⟩
  induction hshape using SameShape.induction with
  | empty => rfl
  | node a b left right left' right' hleft hright ihLeft ihRight =>
    rw [preorder_node, preorder_node, List.cons.injEq] at hvalues
    obtain ⟨hleftValues, hrightValues⟩ := List.append_inj hvalues.2 hleft.length_preorder_eq
    rw [hvalues.1, ihLeft hleftValues, ihRight hrightValues]

/-! ## Nodes -/

/-- A node is legible if its value and what is shown of its children are. -/
theorem Layout.legible_node {value : α → String} {child : γ → String} {a : α} {left right : γ} (ha : Legible value a)
    (hleft : Legible child left) (hright : Legible child right) (layout : Layout) :
    Legible (fun (a, left, right) => layout.node (value a) (child left) (child right)) (a, left, right) := by
  rintro ⟨b, left', right'⟩ r s hr hs heq
  simp only [node, record, enclose, List.map, String.intercalate_cons_cons, String.intercalate_singleton,
    String.append_assoc, String.append_right_inj] at heq
  obtain ⟨rfl, heq⟩ := ha (layout.ends_separator _) (layout.ends_separator _) heq
  simp only [String.append_right_inj] at heq
  obtain ⟨rfl, heq⟩ := hleft (layout.ends_separator _) (layout.ends_separator _) heq
  simp only [String.append_right_inj] at heq
  obtain ⟨rfl, heq⟩ := hright (layout.ends_trail (by simp [Ends])) (layout.ends_trail (by simp [Ends])) heq
  simp only [String.append_right_inj] at heq
  exact ⟨rfl, heq⟩

/-! ## The outline -/

/-- What the outline shows of a node: its value, and the values of its children. -/
def Node.entry (n : Node α) : α × Option α × Option α :=
  (n.value, n.left?.map Node.value, n.right?.map Node.value)

/-- The text of an entry. -/
def entryText (layout : Layout) (text : Layout → α → String) : α × Option α × Option α → String
  | (value, left?, right?) =>
    let child (a? : Option α) : String := layout.inner.option (a?.map (text layout.inner.inner))
    layout.node (text layout.inner value) (child left?) (child right?)

theorem Node.outline_eq_entryText (n : Node α) : n.outline layout text = entryText layout text n.entry := by
  simp only [outline, entryText, entry, Option.map_map, Function.comp_def]

theorem legible_entryText (htext : ∀ layout a, Legible (text layout) a) (layout : Layout)
    (e : α × Option α × Option α) : Legible (entryText layout text) e := by
  obtain ⟨value, left?, right?⟩ := e
  have hchild : ∀ a?, Legible (fun a? : Option α => layout.inner.option (a?.map (text layout.inner.inner))) a? :=
    fun _ => Layout.legible_option (fun a _ => htext _ a) layout.inner
  exact Layout.legible_node (htext layout.inner value) (hchild left?) (hchild right?) layout

/-- The entries of the nodes of a tree in pre-order. -/
def Tree.entries (t : Tree α) : List (α × Option α × Option α) := (t.spotsPre .root).map (·.node.entry)

theorem Tree.outline_eq (t : Tree α) :
    t.outline layout text = layout.list (t.entries.map (entryText layout.inner text)) := by
  simp only [outline, entries, Preorder.toList_ofTree, List.map_map, Function.comp_def, Node.outline_eq_entryText]

/-- The entry of a node tells whether it has children, and the entries of the left subtree end before those of the right
one begin. -/
theorem Tree.eq_of_entries_append {s t : Tree α} {p q : Place} {xs ys : List (α × Option α × Option α)}
    (hempty : s.isEmpty = t.isEmpty)
    (h : (s.spotsPre p).map (·.node.entry) ++ xs = (t.spotsPre q).map (·.node.entry) ++ ys) : s = t ∧ xs = ys := by
  induction s generalizing t p q xs ys with
  | empty =>
    cases t with
    | empty => exact ⟨rfl, h⟩
    | node => cases hempty
  | node value left right ihLeft ihRight =>
    cases t with
    | empty => cases hempty
    | node value' left' right' =>
      have hisEmpty : ∀ {c c' : Tree α}, c.root?.map Node.value = c'.root?.map Node.value → c.isEmpty = c'.isEmpty := by
        intro c c' hc
        cases c <;> cases c' <;> first | rfl | cases hc
      simp only [spotsPre, List.map_cons, List.map_append, List.cons_append, List.append_assoc, List.cons.injEq] at h
      obtain ⟨hentry, hbelow⟩ := h
      simp only [Node.entry, Prod.mk.injEq] at hentry
      obtain ⟨rfl, hleft, hright⟩ := hentry
      obtain ⟨rfl, hbehind⟩ := ihLeft (hisEmpty hleft) hbelow
      obtain ⟨rfl, hxs⟩ := ihRight (hisEmpty hright) hbehind
      exact ⟨rfl, hxs⟩

theorem Tree.eq_of_entries {s t : Tree α} (h : s.entries = t.entries) : s = t := by
  have hempty : s.isEmpty = t.isEmpty := by
    cases s <;> cases t <;> first | rfl | cases h
  exact (eq_of_entries_append hempty (congrArg (· ++ []) h)).1

theorem Tree.eq_of_outline (htext : ∀ layout a, Legible (text layout) a) {s t : Tree α}
    (h : s.outline layout text = t.outline layout text) : s = t := by
  have hopen : ∀ e r s', entryText layout.inner text e ++ r ≠ "]" ++ s' := by
    intro e r s' heq
    simp [entryText, Layout.node, Layout.record, Layout.enclose, ← String.toList_inj] at heq
  have hlist : Legible (fun es => layout.list (es.map (entryText layout.inner text))) s.entries :=
    Layout.legible_list (fun e _ => legible_entryText htext layout.inner e) hopen layout
  rw [outline_eq, outline_eq] at h
  exact eq_of_entries (hlist.eq_of_eq h)

/-! ## The nested text -/

theorem Tree.nestedRoot_eq (t : Tree α) :
    t.nestedRoot layout text = layout.option (t.root?.map (Node.nested layout.inner text)) := by
  cases t with
  | empty => rw [nestedRoot_empty]; rfl
  | node => rw [nestedRoot_node]; rfl

theorem Tree.root?_injective : Function.Injective (root? : Tree α → Option (Node α)) := by
  intro s t h
  cases s with
  | empty =>
    cases t with
    | empty => rfl
    | node => cases h
  | node => exact toTree_root? h.symm

theorem Tree.legible_nestedRoot (htext : ∀ layout a, Legible (text layout) a) (layout : Layout) (t : Tree α) :
    Legible (Tree.nestedRoot layout text) t := by
  have hroot : ∀ {layout : Layout} {t : Tree α}, (∀ n ∈ t.root?, Legible (Node.nested layout.inner text) n) →
      Legible (Tree.nestedRoot layout text) t := by
    intro layout t h
    have hwrite : Tree.nestedRoot layout text = fun t => layout.option (t.root?.map (Node.nested layout.inner text)) :=
      funext nestedRoot_eq
    rw [hwrite]
    exact (Layout.legible_option h layout).comp root?_injective
  induction t generalizing layout with
  | empty => exact hroot fun _ h => by cases h
  | node value left right ihLeft ihRight =>
    have hparts : Function.Injective fun n : Node α => (n.value, n.left, n.right) := by
      rintro ⟨value, left, right⟩ ⟨value', left', right'⟩ h
      cases h
      rfl
    have hnode := Layout.legible_node (htext layout.inner.inner value) (ihLeft layout.inner.inner)
      (ihRight layout.inner.inner) layout.inner
    refine hroot fun n hn => ?_
    obtain rfl : ⟨value, left, right⟩ = n := Option.some.inj hn
    exact hnode.comp (a := ⟨value, left, right⟩) hparts

theorem Tree.eq_of_nested (htext : ∀ layout a, Legible (text layout) a) {s t : Tree α}
    (h : s.nested layout text = t.nested layout text) : s = t := by
  simp only [nested, Layout.record, Layout.enclose, List.map, String.intercalate_singleton, String.append_assoc,
    String.append_right_inj] at h
  exact (legible_nestedRoot htext _ s (Layout.ends_trail _ (by simp [Ends])) (Layout.ends_trail _ (by simp [Ends])) h).1

/-! ## Trees of integers -/

theorem Tree.outline_map (f : α → β) (text : Layout → β → String) (t : Tree α) :
    (t.map f).outline layout text = t.outline layout fun layout a => text layout (f a) := by
  have hnodes : ∀ p, ((t.map f).spotsPre p).map (·.node.outline layout.inner text) =
      (t.spotsPre p).map (·.node.outline layout.inner fun layout a => text layout (f a)) := by
    induction t with
    | empty => intro p; rfl
    | node value left right ihLeft ihRight =>
      intro p
      have hroot : Node.outline layout.inner text ⟨f value, left.map f, right.map f⟩ =
          Node.outline layout.inner (fun layout a => text layout (f a)) ⟨value, left, right⟩ := by
        cases left <;> cases right <;> rfl
      simp only [map, spotsPre, List.map_cons, List.map_append, hroot, ihLeft, ihRight]
  rw [outline, outline, Preorder.toList_ofTree, Preorder.toList_ofTree, hnodes]

theorem Tree.nested_map (f : α → β) (text : Layout → β → String) (t : Tree α) :
    (t.map f).nested layout text = t.nested layout fun layout a => text layout (f a) := by
  have hroot : ∀ layout, (t.map f).nestedRoot layout text = t.nestedRoot layout fun layout a => text layout (f a) := by
    induction t with
    | empty => intro layout; rw [map, nestedRoot_empty, nestedRoot_empty]
    | node value left right ihLeft ihRight =>
      intro layout
      rw [map, nestedRoot_node, nestedRoot_node, ihLeft, ihRight]
  rw [nested, nested, hroot]

/-- Two trees of integers have the same outline if and only if they have the same shape and the same values, and so it
is with their nested texts. -/
theorem Tree.texts_identify (layout : Layout) (s t : Tree Int64) :
    [s = t,
      s.SameShape t ∧ s.preorder = t.preorder,
      (s.map Value.int).outline layout Value.text = (t.map Value.int).outline layout Value.text,
      (s.map Value.int).nested layout Value.text = (t.map Value.int).nested layout Value.text].TFAE := by
  tfae_have 1 ↔ 2 := eq_iff_sameShape
  tfae_have 1 ↔ 3 := by
    refine ⟨fun h => by rw [h], fun h => ?_⟩
    rw [outline_map, outline_map] at h
    exact eq_of_outline legible_numeral h
  tfae_have 1 ↔ 4 := by
    refine ⟨fun h => by rw [h], fun h => ?_⟩
    rw [nested_map, nested_map] at h
    exact eq_of_nested legible_numeral h
  tfae_finish

end TreeWalk
