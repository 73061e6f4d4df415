import Mathlib.Logic.Relation
import TreeWalk.Proofs.Comparison.Edited
import TreeWalk.Proofs.Walk.Kinship

/-!
# What identity does to a comparison

A node is equal to itself without a look at any value, and two nodes that are not one and the same are equal if they
agree. So to be equal is the reflexive closure of to agree, for the nodes of some trees as well as for the trees
themselves. Laws of the test carry over to agreement, path by path, and from there to the closure, whichever of the
nodes are the same. A test that holds between every value and itself makes agreement reflexive, and then identity adds
nothing.

* `Tree.agree_self_iff` : a tree agrees with itself if each of its values passes the test with itself;
* `Tree.Agree.symm`, `Tree.Agree.trans` : the laws of agreement;
* `Located.equal_compare_iff` : two nodes are equal if they are the same or agree;
* `Trees.Member` : a node of one of several trees. Two that are the same in a comparison are the same member
  (`Trees.Member.eq_of_isSame`);
* `Trees.nodesEqual_eq`, `Trees.treesEqual_eq` : equality as the reflexive closure of agreement;
* `Located.compare_self_and_below` : what the shortcut changes. If the two walks went over a node and all below it all
  the same, the answer would be another one exactly if there is a value that does not pass the test with itself;
* `Trees.compare_equivalence` : laws of the test are laws of equality, whichever of the nodes are one and the same.
  The test need not hold between a value and itself.

An ancestor and a node below it never agree, since there is more below the ancestor.
-/

namespace TreeWalk

universe u v

/-! ## Laws of agreement -/

namespace Tree

variable {α : Type u} {eq : α → α → Bool}

theorem agree_self_iff (t : Tree α) : t.Agree eq t ↔ ∀ v ∈ t.preorder, eq v v = true := by
  induction t with
  | empty => exact iff_of_true agree_empty_empty fun v hv => absurd hv List.not_mem_nil
  | node value left right ihLeft ihRight =>
    rw [agree_node_node, ihLeft, ihRight, preorder_node, List.forall_mem_cons, List.forall_mem_append]

theorem Agree.symm (hsymm : ∀ v w, eq v w = true → eq w v = true) {s t : Tree α} (h : s.Agree eq t) :
    t.Agree eq s :=
  ⟨h.sameShape.symm, fun path a b ha hb => hsymm b a (h.eq_values path b a hb ha)⟩

theorem Agree.trans (htrans : ∀ u v w, eq u v = true → eq v w = true → eq u w = true) {r s t : Tree α}
    (h : r.Agree eq s) (h' : s.Agree eq t) : r.Agree eq t := by
  refine ⟨h.sameShape.trans h'.sameShape, fun path a c ha hc => ?_⟩
  -- the tree in the middle has a value at this path too
  have hmiddle : (s.valueAt? path).isSome = true := by
    rw [← h.sameShape path, ha]
    rfl
  obtain ⟨b, hb⟩ := Option.isSome_iff_exists.1 hmiddle
  exact htrans a b c (h.eq_values path a b ha hb) (h'.eq_values path b c hb hc)

theorem agree_self_of_refl (hrefl : ∀ v, eq v v = true) (t : Tree α) : t.Agree eq t :=
  t.agree_self_iff.2 fun v _ => hrefl v

end Tree

/-- A node and a node below it do not have the same shape. -/
theorem Spot.IsAbove.not_sameShape {α : Type u} {c x : Spot α} (h : c.IsAbove x) :
    ¬ c.node.toTree.SameShape x.node.toTree := by
  intro hshape
  have hsize : c.size = x.size := hshape.size_eq
  have hlt := h.size_lt
  omega

/-! ## One node and itself -/

namespace Located

variable {ι : Type v} {α : Type u} [DecidableEq ι] {eq : α → α → Bool}

theorem isSame_iff (a b : Located ι α) : a.isSame b = true ↔ a.owner = b.owner ∧ a.spot.place = b.spot.place := by
  unfold isSame
  rw [Bool.and_eq_true, decide_eq_true_iff, decide_eq_true_iff]

theorem compare_of_same {a b : Located ι α} (h : a.isSame b = true) : a.compare eq b = ⟨true, []⟩ := by
  unfold compare
  rw [if_pos h]

theorem compare_self (a : Located ι α) : a.compare eq a = ⟨true, []⟩ :=
  compare_of_same ((a.isSame_iff a).2 ⟨rfl, rfl⟩)

theorem equal_compare_iff (a b : Located ι α) :
    (a.compare eq b).equal = true ↔ a.isSame b = true ∨ a.spot.node.toTree.Agree eq b.spot.node.toTree := by
  by_cases h : a.isSame b = true
  · rw [compare_of_same h]
    exact iff_of_true rfl (Or.inl h)
  · rw [compare_of_not_same (Bool.eq_false_iff.2 h), Lockstep.run_ofNodes_equal_iff]
    exact (or_iff_right h).symm

theorem equal_compare_eq_false {a b : Located ι α} (hplace : a.spot.place ≠ b.spot.place)
    (hshape : ¬ a.spot.node.toTree.SameShape b.spot.node.toTree) : (a.compare eq b).equal = false := by
  rw [← Bool.not_eq_true, equal_compare_iff, isSame_iff]
  rintro (⟨-, h⟩ | h)
  · exact hplace h
  · exact hshape h.sameShape

/-- The owners may be one and the same, and then the trees are. -/
theorem equal_compareAbsent_iff {i j : ι} {s t : Tree α} (h : i = j → s = t) :
    (compareAbsent eq (s.located? i) (t.located? j)).equal = true ↔ i = j ∨ s.Agree eq t := by
  cases s with
  | empty =>
    cases t with
    | empty => exact iff_of_true rfl (Or.inr Tree.agree_empty_empty)
    | node b left right =>
      refine iff_of_false Bool.false_ne_true ?_
      rintro (hij | hagree)
      · cases h hij
      · exact Tree.not_agree_empty_node b left right hagree
  | node a left right =>
    cases t with
    | empty =>
      refine iff_of_false Bool.false_ne_true ?_
      rintro (hij | hagree)
      · cases h hij
      · exact Tree.not_agree_node_empty a left right hagree
    | node b left' right' =>
      show (compare eq ⟨i, ⟨.root, ⟨a, left, right⟩⟩⟩ ⟨j, ⟨.root, ⟨b, left', right'⟩⟩⟩).equal = true ↔ _
      rw [equal_compare_iff, isSame_iff]
      exact or_congr (and_iff_left rfl) Iff.rfl

/-- **A node and itself.** A node is equal to itself and a tree is equal to itself, without a look at any value. Two
walks would say the same if and only if every value passes the test with itself. A node and a node below it are never
equal. -/
theorem compare_self_and_below (eq : α → α → Bool) (x : Located ι α) (i : ι) (t : Tree α) :
    let walked := (Lockstep.ofNodes x.spot.node x.spot.node).run eq
    let values := x.spot.node.toTree.preorder
    x.compare eq x = ⟨true, []⟩ ∧
    (walked.equal = true ↔ ∀ v ∈ values, eq v v = true) ∧
    ((x.compare eq x).equal ≠ walked.equal ↔ ∃ v ∈ values, eq v v = false) ∧
    ((∀ v, eq v v = true) → (x.compare eq x).equal = walked.equal) ∧
    (∀ b, x.spot.IsAbove b →
      (compare eq x ⟨x.owner, b⟩).equal = false ∧ (compare eq ⟨x.owner, b⟩ x).equal = false) ∧
    compareAbsent eq (t.located? i) (t.located? i) = ⟨true, []⟩ := by
  intro walked values
  have hself : x.compare eq x = ⟨true, []⟩ := x.compare_self
  have hwalked : walked.equal = true ↔ ∀ v ∈ values, eq v v = true := by
    rw [Lockstep.run_ofNodes_equal_iff, Tree.agree_self_iff]
  have hchanges : (x.compare eq x).equal ≠ walked.equal ↔ ∃ v ∈ values, eq v v = false := by
    rw [hself, ne_comm, Ne, hwalked]
    simp only [not_forall, Bool.not_eq_true, exists_prop]
  refine ⟨hself, hwalked, hchanges, fun hrefl => ?_, fun b hb => ?_, ?_⟩
  · rw [hself, hwalked.2 fun v _ => hrefl v]
  · have hplace : x.spot.place ≠ b.place := fun h => Nat.ne_of_lt hb.depth_lt (congrArg Place.depth h)
    exact ⟨equal_compare_eq_false hplace hb.not_sameShape,
      equal_compare_eq_false hplace.symm fun h => hb.not_sameShape h.symm⟩
  · cases t with
    | empty => rfl
    | node value left right => exact compare_self _

/-- Above a leaf that holds a value which does not pass the test with itself. -/
theorem compare_self_and_below_zero :
    let eq : Nat → Nat → Bool := fun a b => a != 0 && a == b
    let b : Spot Nat := ⟨Place.root.left, ⟨0, .empty, .empty⟩⟩
    let x : Located Nat Nat := ⟨0, ⟨.root, ⟨1, .node 0 .empty .empty, .empty⟩⟩⟩
    x.spot.IsAbove b ∧ (x.compare eq x).equal = true ∧
      ((Lockstep.ofNodes x.spot.node x.spot.node).run eq).equal = false ∧
      (compare eq x ⟨0, b⟩).equal = false ∧ (compare eq ⟨0, b⟩ x).equal = false ∧
      (x.compare (fun v w => v == w) x).equal =
        ((Lockstep.ofNodes x.spot.node x.spot.node).run fun v w => v == w).equal := by
  intro eq b x
  have habove : x.spot.IsAbove b := ⟨.left, [], rfl⟩
  obtain ⟨hself, hwalked, -, -, hbelow, -⟩ := compare_self_and_below eq x 0 .empty
  obtain ⟨-, -, -, hrefl, -, -⟩ := compare_self_and_below (fun v w : Nat => v == w) x 0 .empty
  refine ⟨habove, congrArg Comparison.equal hself, ?_, (hbelow b habove).1, (hbelow b habove).2,
    hrefl fun v => beq_self_eq_true v⟩
  rw [← Bool.not_eq_true, hwalked]
  decide

end Located

/-! ## The nodes of several trees -/

namespace Trees

variable {ι α : Type u} {trees : Trees ι α}

/-- A node of one of the trees. A node that stands alone is the root of a tree of its own. -/
structure Member (trees : Trees ι α) where
  located : Located ι α
  locate?_eq : (trees located.owner).locate? located.spot.place.path = some located.spot

/-- A node of a tree is told by the tree and its place there. -/
theorem Member.eq_of_place_eq {a b : trees.Member} (howner : a.located.owner = b.located.owner)
    (hplace : a.located.spot.place = b.located.spot.place) : a = b := by
  obtain ⟨⟨i, s⟩, ha⟩ := a
  obtain ⟨⟨j, s'⟩, hb⟩ := b
  obtain rfl : i = j := howner
  have hspot : s = s' := by
    have hfound := ha
    rw [show s.place = s'.place from hplace] at hfound
    exact Option.some.inj (hfound.symm.trans hb)
  subst hspot
  rfl

variable [DecidableEq ι]

/-- The two nodes are equal when they are compared. -/
def NodesEqual (eq : α → α → Bool) (trees : Trees ι α) (a b : trees.Member) : Prop :=
  (a.located.compare eq b.located).equal = true

def NodesAgree (eq : α → α → Bool) (trees : Trees ι α) (a b : trees.Member) : Prop :=
  a.located.spot.node.toTree.Agree eq b.located.spot.node.toTree

/-- The trees of the two owners are equal when they are compared. -/
def TreesEqual (eq : α → α → Bool) (trees : Trees ι α) (i j : ι) : Prop := (trees.compare eq i j).equal = true

def TreesAgree (eq : α → α → Bool) (trees : Trees ι α) (i j : ι) : Prop := (trees i).Agree eq (trees j)

variable {eq : α → α → Bool}

theorem nodesEqual_eq (eq : α → α → Bool) (trees : Trees ι α) :
    trees.NodesEqual eq = Relation.ReflGen (trees.NodesAgree eq) := by
  funext a b
  refine propext ?_
  unfold NodesEqual
  rw [Located.equal_compare_iff, Located.isSame_iff, Relation.reflGen_iff]
  refine or_congr ⟨?_, ?_⟩ Iff.rfl
  · rintro ⟨howner, hplace⟩
    exact (Member.eq_of_place_eq howner hplace).symm
  · rintro rfl
    exact ⟨rfl, rfl⟩

theorem treesEqual_eq (eq : α → α → Bool) (trees : Trees ι α) :
    trees.TreesEqual eq = Relation.ReflGen (trees.TreesAgree eq) := by
  funext i j
  refine propext ?_
  unfold TreesEqual compare
  rw [Located.equal_compareAbsent_iff fun hij => congrArg trees hij, Relation.reflGen_iff, eq_comm]
  exact Iff.rfl

/-- **Equality is a partial equivalence.** If the test is symmetric and transitive, so is the comparison of the nodes
of some trees, and of the trees. Both are reflexive because of the shortcut, and if the test is reflexive too, to be
equal is to agree. -/
theorem compare_equivalence {eq : α → α → Bool} (hsymm : ∀ v w, eq v w = true → eq w v = true)
    (htrans : ∀ u v w, eq u v = true → eq v w = true → eq u w = true) (trees : Trees ι α) :
    (Std.Symm (trees.NodesEqual eq) ∧ IsTrans trees.Member (trees.NodesEqual eq)) ∧
    (Std.Symm (trees.TreesEqual eq) ∧ IsTrans ι (trees.TreesEqual eq)) ∧
    (Std.Refl (trees.NodesEqual eq) ∧ Std.Refl (trees.TreesEqual eq)) ∧
    ((∀ v, eq v v = true) →
      (∀ a b, trees.NodesEqual eq a b ↔ trees.NodesAgree eq a b) ∧
      (∀ i j, trees.TreesEqual eq i j ↔ trees.TreesAgree eq i j)) := by
  have hnodesSymm : Std.Symm (trees.NodesAgree eq) := ⟨fun _ _ h => h.symm hsymm⟩
  have hnodesTrans : IsTrans trees.Member (trees.NodesAgree eq) := ⟨fun _ _ _ h h' => h.trans htrans h'⟩
  have htreesSymm : Std.Symm (trees.TreesAgree eq) := ⟨fun _ _ h => h.symm hsymm⟩
  have htreesTrans : IsTrans ι (trees.TreesAgree eq) := ⟨fun _ _ _ h h' => h.trans htrans h'⟩
  rw [nodesEqual_eq, treesEqual_eq]
  refine ⟨⟨inferInstance, inferInstance⟩, ⟨inferInstance, inferInstance⟩, ⟨inferInstance, inferInstance⟩,
    fun hrefl => ?_⟩
  -- a reflexive relation is its own reflexive closure
  have hnodesRefl : Std.Refl (trees.NodesAgree eq) := ⟨fun a => Tree.agree_self_of_refl hrefl _⟩
  have htreesRefl : Std.Refl (trees.TreesAgree eq) := ⟨fun i => Tree.agree_self_of_refl hrefl (trees i)⟩
  rw [Relation.reflGen_eq_self, Relation.reflGen_eq_self]
  exact ⟨fun _ _ => Iff.rfl, fun _ _ => Iff.rfl⟩

/-- The trees 0 and 1 hold a value that does not pass the first test with itself, and the trees 2 and 3 are alike. The
second test holds between every value and itself. -/
theorem compare_equivalence_zero :
    let eq : Nat → Nat → Bool := fun a b => a != 0 && a == b
    let same : Nat → Nat → Bool := fun a b => a == b
    let trees : Trees Nat Nat := fun i => .node (i / 2) (.node 2 .empty .empty) .empty
    ((∀ v w, eq v w = true → eq w v = true) ∧ (∀ u v w, eq u v = true → eq v w = true → eq u w = true)) ∧
      ((∀ v w, same v w = true → same w v = true) ∧ (∀ u v w, same u v = true → same v w = true → same u w = true) ∧
        ∀ v, same v v = true) ∧
      trees.TreesEqual eq 0 0 ∧ trees.TreesEqual eq 2 3 ∧ trees.TreesEqual eq 3 2 ∧ trees.TreesEqual same 0 1 := by
  intro eq same trees
  have hsymm : ∀ v w, eq v w = true → eq w v = true := by
    intro v w h
    simp only [eq, Bool.and_eq_true, bne_iff_ne, beq_iff_eq] at h ⊢
    omega
  have htrans : ∀ u v w, eq u v = true → eq v w = true → eq u w = true := by
    intro u v w h h'
    simp only [eq, Bool.and_eq_true, bne_iff_ne, beq_iff_eq] at h h' ⊢
    omega
  have hsame : ∀ v w, same v w = true ↔ v = w := fun v w => beq_iff_eq
  have hsameSymm : ∀ v w, same v w = true → same w v = true := by
    intro v w h
    rw [hsame] at h ⊢
    exact h.symm
  have hsameTrans : ∀ u v w, same u v = true → same v w = true → same u w = true := by
    intro u v w h h'
    rw [hsame] at h h' ⊢
    exact h.trans h'
  have hsameRefl : ∀ v, same v v = true := fun v => (hsame v v).2 rfl
  obtain ⟨-, ⟨htreesSymm, -⟩, ⟨-, htreesRefl⟩, -⟩ := compare_equivalence hsymm htrans trees
  obtain ⟨-, -, -, hreflexive⟩ := compare_equivalence hsameSymm hsameTrans trees
  have htwo : trees.TreesEqual eq 2 3 := by
    rw [treesEqual_eq]
    exact .single (((trees 2).compare_equal_iff (trees 3)).1 (by decide))
  have hzero : trees.TreesAgree same 0 1 := ((trees 0).compare_equal_iff (trees 1)).1 (by decide)
  exact ⟨⟨hsymm, htrans⟩, ⟨hsameSymm, hsameTrans, hsameRefl⟩, htreesRefl.refl 0, htwo, htreesSymm.symm 2 3 htwo,
    ((hreflexive hsameRefl).2 0 1).2 hzero⟩

end Trees

end TreeWalk
