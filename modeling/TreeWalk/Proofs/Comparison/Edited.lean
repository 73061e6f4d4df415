import TreeWalk.Proofs.Comparison.Trace
import TreeWalk.Proofs.Copy
import TreeWalk.Proofs.Walk.CellSteps

/-!
# A tree and an edited copy of it

A copy has the shape of its original, whatever the copying of values does, and so has what a walk over the cells of the
copy leaves of it. Two trees of one shape can differ in their values only. So the lockstep goes along the values of both
in pre-order, and it ends at the first two that do not pass the test.

* `Comparison.Along` : a comparison that goes along a list of pairs of values. That of two trees of one shape is of this
  kind (`Located.along_of_sameShape`), since their nodes agree in which children they have
  (`Tree.SameShape.childrenDiffer_eq_false`);
* `CellStep.editing` : the walk that is called some times and writes to some of the cells. What it makes of the values
  in pre-order is known (`CellRow.toList_editing`);
* `Tree.zip_postorder_perm` : in two trees of one shape both orders pair up the same values;
* `Trees.copy`, `Trees.edit`, `Trees.compare` : trees of several owners, of which one is copied or edited, or two are
  compared;
* `Trees.ComparedAfter` : after a copy and edits, the trees of all others are as they were, the edited copy has the
  shape of the tree, and its values in pre-order are what the program makes of the array of the copied values. The
  answer is whether all pairs of values pass the test, and the pairs that are compared are all, or those up to the
  first one that does not pass;
* `Trees.compare_edited_copy` : a walk that is called some times and writes to some cells replaces the values of these
  and no others. What counts is whether a value that was written passes the test with the value in the tree, wherever
  the node lies and whatever else was written. If the copying of values is exact, that is the value which was
  replaced. If it is not, an edit may bring back what the tree holds (`Trees.compare_edited_copy_restored`). Without
  any edit, the two are equal if and only if every value passes the test with its copy.
-/

namespace TreeWalk

universe u v

/-! ## Trees of one shape -/

/-- The comparison goes along the pairs of values, up to the first pair that does not pass the test. -/
structure Comparison.Along {α : Type u} (eq : α → α → Bool) (pairs : List (α × α)) (c : Comparison α) : Prop where
  equal_iff : c.equal = true ↔ ∀ pair ∈ pairs, eq pair.1 pair.2 = true
  compared_all : c.equal = true → c.compared = pairs
  compared_to : ∀ k pair, pairs[k]? = some pair → eq pair.1 pair.2 = false →
    (∀ before ∈ pairs.take k, eq before.1 before.2 = true) →
      c.compared = pairs.take (k + 1) ∧ c.compared.length = k + 1 ∧ c.compared.getLast? = some pair

section Shape

variable {α : Type u} {eq : α → α → Bool}

open Lockstep

theorem Lockstep.differ_of_not_childrenDiffer {pair : Spot α × Spot α} (h : childrenDiffer pair.1 pair.2 = false) :
    differ eq pair = !eq pair.1.value pair.2.value := by
  rw [differ, h, Bool.false_or]

/-- Pairs of nodes that agree in which children they have are examined along their values. -/
theorem Lockstep.along_examined {pairs : List (Spot α × Spot α)}
    (h : ∀ pair ∈ pairs, childrenDiffer pair.1 pair.2 = false) :
    Comparison.Along eq (pairs.map (Prod.map Spot.value Spot.value))
      ⟨!pairs.any (differ eq), (examined eq pairs).map (Prod.map Spot.value Spot.value)⟩ where
  equal_iff := by
    rw [Bool.not_eq_true', List.any_eq_false, List.forall_mem_map]
    refine forall₂_congr fun pair hpair => ?_
    rw [differ_of_not_childrenDiffer (h pair hpair), Bool.not_eq_true', Bool.not_eq_false]
    rfl
  compared_all := by
    intro hequal
    have hnone : pairs.findIdx? (differ eq) = none := by
      rw [← Option.not_isSome_iff_eq_none, List.findIdx?_isSome, Bool.not_eq_true]
      simpa using hequal
    exact congrArg _ (examined_of_none hnone)
  compared_to := by
    intro k pair hpair hfails hbefore
    rw [List.getElem?_map, Option.map_eq_some_iff] at hpair
    obtain ⟨spots, hspots, rfl⟩ := hpair
    obtain ⟨hk, hget⟩ := List.getElem?_eq_some_iff.1 hspots
    have hsame := h spots (List.mem_of_getElem? hspots)
    have hfirst : pairs.findIdx? (differ eq) = some k := by
      rw [List.findIdx?_eq_some_iff_getElem]
      refine ⟨hk, ?_, fun i hi => ?_⟩
      · rw [hget, differ_of_not_childrenDiffer hsame, Bool.not_eq_true']
        exact hfails
      · have hmem : pairs[i] ∈ pairs.take k := List.mem_take_iff_getElem.2 ⟨i, by omega, rfl⟩
        have hpass := hbefore _ (List.map_take ▸ List.mem_map_of_mem hmem)
        rw [differ_of_not_childrenDiffer (h _ (List.mem_of_mem_take hmem)), Bool.not_eq_true', Bool.not_eq_false]
        exact hpass
    obtain ⟨spots', hspots', hcompared⟩ := examined_of_some hfirst
    obtain rfl := Option.some.inj (hspots.symm.trans hspots')
    rw [hsame, if_neg Bool.false_ne_true] at hcompared
    rw [hcompared, List.map_take]
    refine ⟨rfl, ?_, ?_⟩
    · rw [List.length_take, List.length_map]
      omega
    · rw [List.getLast?_take, if_neg (Nat.succ_ne_zero k), Nat.add_sub_cancel, List.getElem?_map, hspots]
      rfl

namespace Tree

/-- In trees of one shape, nodes that come at the same time in the two pre-orders agree in which children they have. -/
theorem SameShape.childrenDiffer_eq_false {s t : Tree α} (h : s.SameShape t) (p q : Place) :
    ∀ pair ∈ (s.spotsPre p).zip (t.spotsPre q), childrenDiffer pair.1 pair.2 = false := by
  induction h using SameShape.induction generalizing p q with
  | empty => exact fun _ hpair => absurd hpair List.not_mem_nil
  | node a b left right left' right' hleft hright ihLeft ihRight =>
    intro pair hpair
    rw [spotsPre, spotsPre, List.zip_cons_cons, List.zip_append (hleft.length_spotsPre_eq ..), List.mem_cons,
      List.mem_append] at hpair
    rcases hpair with rfl | hpair | hpair
    · unfold childrenDiffer Node.hasLeft Node.hasRight
      rw [hleft.isEmpty_eq, hright.isEmpty_eq, bne_self_eq_false, bne_self_eq_false]
      rfl
    · exact ihLeft p.left q.left pair hpair
    · exact ihRight p.right q.right pair hpair

/-- Both orders pair up the values of the same nodes. -/
theorem zip_postorder_perm {s t : Tree α} (h : s.SameShape t) :
    (s.postorder.zip t.postorder).Perm (s.preorder.zip t.preorder) := by
  induction h using SameShape.induction with
  | empty => exact List.Perm.refl _
  | node a b left right left' right' hleft hright ihLeft ihRight =>
    have hzip : (node a left right).preorder.zip (node b left' right').preorder =
        (a, b) :: (left.preorder.zip left'.preorder ++ right.preorder.zip right'.preorder) := by
      rw [preorder_node, preorder_node, List.zip_cons_cons, List.zip_append hleft.length_preorder_eq]
    rw [hzip, postorder_node, postorder_node, List.zip_append hleft.length_postorder_eq,
      List.zip_append hright.length_postorder_eq, ← List.append_assoc]
    exact (List.perm_append_singleton _ _).trans ((ihLeft.append ihRight).cons _)

end Tree

/-- Different trees of one shape are compared along their values in pre-order. -/
theorem Located.along_of_sameShape {ι : Type v} [DecidableEq ι] (eq : α → α → Bool) {i j : ι} (hij : i ≠ j)
    {s t : Tree α} (h : s.SameShape t) :
    (compareAbsent eq (s.located? i) (t.located? j)).Along eq (s.preorder.zip t.preorder) := by
  cases s with
  | empty =>
    cases t with
    | empty => exact @along_examined α eq [] fun _ hpair => absurd hpair List.not_mem_nil
    | node => cases h []
  | node a left right =>
    cases t with
    | empty => cases h []
    | node b left' right' =>
      have hsame : isSame (⟨i, ⟨.root, ⟨a, left, right⟩⟩⟩ : Located ι α) ⟨j, ⟨.root, ⟨b, left', right'⟩⟩⟩ = false := by
        rw [isSame, decide_eq_false hij, Bool.false_and]
      have halong := @along_examined α eq _ (h.childrenDiffer_eq_false .root .root)
      rw [← List.zip_map, Tree.spotsPre_map_value, Tree.spotsPre_map_value] at halong
      show Comparison.Along eq _ (compare eq _ _)
      rw [compare_eq hsame]
      exact halong

end Shape

/-! ## Walks that edit -/

section Editing

variable {α : Type u}

/-- The walk is called `n` times, and a value is written to each new cell for which there is one. -/
def CellStep.editing (edits : Nat → Option α) (n : Nat) : List (CellStep α) :=
  (List.range n).flatMap fun i => next :: (edits i).toList.map (write i)

namespace CellRow

theorem run_append (steps steps' : List (CellStep α)) (row : CellRow α) :
    run (steps ++ steps') row = run steps' (run steps row) :=
  List.foldl_append

theorem values_apply_next (row : CellRow α) : (row.apply .next).values = row.values := by
  simp only [apply]
  split <;> rfl

/-- A write to an entry that was reached, or to none, replaces what is in this entry. -/
theorem getElem?_apply_write {row : CellRow α} {n : Nat} (h : n < row.reached ∨ row.values.size ≤ n) (b : α) (k : Nat) :
    (row.apply (.write n b)).values[k]? = row.values[k]?.map fun a => if k = n then b else a := by
  by_cases hk : n = k
  · subst hk
    rcases h with h | h
    · simp only [apply]
      rw [if_pos h, Array.getElem?_setIfInBounds_self]
      by_cases hn : n < row.values.size
      · simp [hn]
      · simp [hn]
    · have hnone : ∀ {values : Array α}, values.size = row.values.size → values[n]? = none :=
        fun hsize => Array.getElem?_eq_none (hsize ▸ h)
      rw [hnone (row.size_apply _), hnone rfl]
      rfl
  · have htouches : (CellStep.write n b).touches k = false := by simp [CellStep.touches, hk]
    rw [getElem?_apply (Or.inr htouches)]
    simp [Ne.symm hk]

/-- The next entry is reached if there is one, and what was in it may be replaced. -/
theorem run_next_write {n : Nat} (edit : Option α) {row : CellRow α} (h : row.reached = min n row.values.size) :
    (run (.next :: edit.toList.map (.write n)) row).reached = min (n + 1) row.values.size ∧
      ∀ k, (run (.next :: edit.toList.map (.write n)) row).values[k]? =
        row.values[k]?.map fun a => if k = n then edit.getD a else a := by
  have hreached : ∀ {steps}, CellStep.calls steps = 1 →
      (run steps row).reached = min (n + 1) row.values.size := by
    intro steps hcalls
    rw [reached_run (by omega), hcalls]
    omega
  have hnext : (row.apply .next).reached = min (n + 1) row.values.size := @hreached [.next] rfl
  cases edit with
  | none =>
    refine ⟨hnext, fun k => ?_⟩
    show (row.apply .next).values[k]? = _
    rw [row.values_apply_next]
    simp
  | some b =>
    refine ⟨@hreached [.next, .write n b] rfl, fun k => ?_⟩
    show ((row.apply .next).apply (.write n b)).values[k]? = _
    rw [getElem?_apply_write, row.values_apply_next]
    · rfl
    · rw [hnext, row.values_apply_next]
      omega

/-- The walk that edits leaves what was written in the entries that it reached, and the rest as it was. -/
theorem run_editing (edits : Nat → Option α) (n : Nat) (row : CellRow α) (h : row.reached = 0) :
    (run (CellStep.editing edits n) row).reached = min n row.values.size ∧
      ∀ k, (run (CellStep.editing edits n) row).values[k]? =
        row.values[k]?.map fun a => if k < n then (edits k).getD a else a := by
  induction n with
  | zero => exact ⟨by rw [Nat.zero_min]; exact h, fun k => by simp [CellStep.editing, run]⟩
  | succ n ih =>
    obtain ⟨hreached, hvalues⟩ := ih
    have hsplit : CellStep.editing edits (n + 1) =
        CellStep.editing edits n ++ .next :: (edits n).toList.map (.write n) := by
      unfold CellStep.editing
      rw [List.range_succ, List.flatMap_append, List.flatMap_singleton]
    have hbefore : (run (CellStep.editing edits n) row).reached =
        min n (run (CellStep.editing edits n) row).values.size := by rw [size_run, hreached]
    obtain ⟨hreached', hvalues'⟩ := run_next_write (edits n) hbefore
    rw [hsplit, run_append]
    refine ⟨by rw [hreached', size_run], fun k => ?_⟩
    rw [hvalues', hvalues, Option.map_map]
    congr 1
    funext a
    rcases Nat.lt_trichotomy k n with hk | rfl | hk
    · simp [hk, Nat.ne_of_lt hk, Nat.lt_succ_of_lt hk]
    · simp
    · simp [Nat.ne_of_gt hk, Nat.not_lt_of_gt hk, Nat.not_lt_of_le hk]

theorem toList_editing (edits : Nat → Option α) (n : Nat) (t : Tree α) :
    (run (CellStep.editing edits n) (.ofTree t)).values.toList =
      t.preorder.mapIdx fun k a => if k < n then (edits k).getD a else a := by
  refine List.ext_getElem? fun k => ?_
  rw [Array.getElem?_toList, (run_editing edits n (.ofTree t) rfl).2, List.getElem?_mapIdx]
  exact congrArg _ List.getElem?_toArray

end CellRow

end Editing

/-! ## The trees of several owners -/

/-- What each owner has. -/
abbrev Trees (ι α : Type u) := ι → Tree α

theorem Tree.visitPost_of_exact {α σ : Type u} {f : α → StateM σ α} (h : ∀ a st, (f a st).1 = a) (t : Tree α)
    (st : σ) : (t.visitPost f st).1 = t := by
  induction t generalizing st with
  | empty => rfl
  | node value left right ihLeft ihRight =>
    rw [visitPost_node]
    simp only [h, ihLeft, ihRight]

namespace Trees

variable {ι α σ : Type u} [DecidableEq ι]

/-- The owner `j` gets a copy of what `i` has. -/
def copy (f : α → StateM σ α) (trees : Trees ι α) (i j : ι) : StateM σ (Trees ι α) := do
  let u ← (trees i).copy f
  pure (Function.update trees j u)

/-- A program walks over the cells of what the owner `j` has. -/
def edit (steps : List (CellStep α)) (trees : Trees ι α) (j : ι) : Trees ι α :=
  Function.update trees j (CellStep.run steps (.ofTree (trees j))).tree

/-- What the owner `i` has is compared with what `j` has. -/
def compare (eq : α → α → Bool) (trees : Trees ι α) (i j : ι) : Comparison α :=
  Located.compareAbsent eq ((trees i).located? i) ((trees j).located? j)

/-- The owner `j` has got a copy of what `i` has, and a program has edited it: this is what `i` and `j` have then, and
how the two compare. -/
structure ComparedAfter (eq : α → α → Bool) (steps : List (CellStep α)) (trees copied : Trees ι α) (i j : ι) :
    Prop where
  original : copied.edit steps j i = trees i
  others : ∀ k, k ≠ j → copied.edit steps j k = trees k
  sameShape : (trees i).SameShape (copied.edit steps j j)
  preorder : (copied.edit steps j j).preorder = (CellRow.run steps (.ofTree (copied j))).values.toList
  length : ((trees i).preorder.zip (copied.edit steps j j).preorder).length = (trees i).size
  along : ((copied.edit steps j).compare eq i j).Along eq
    ((trees i).preorder.zip (copied.edit steps j j).preorder)

theorem copy_fst (f : α → StateM σ α) (trees : Trees ι α) (i j : ι) (st : σ) :
    (trees.copy f i j st).1 = Function.update trees j ((trees i).visitPost f st).1 := by
  rw [← Tree.copy_eq]
  rfl

theorem copy_fst_self (f : α → StateM σ α) (trees : Trees ι α) (i j : ι) (st : σ) :
    (trees.copy f i j st).1 j = ((trees i).visitPost f st).1 := by
  rw [copy_fst, Function.update_self]

theorem copy_fst_of_ne (f : α → StateM σ α) (trees : Trees ι α) (i : ι) {j k : ι} (hk : k ≠ j) (st : σ) :
    (trees.copy f i j st).1 k = trees k := by
  rw [copy_fst, Function.update_of_ne hk]

theorem edit_self (steps : List (CellStep α)) (trees : Trees ι α) (j : ι) :
    trees.edit steps j j = (CellStep.run steps (.ofTree (trees j))).tree := Function.update_self ..

theorem edit_of_ne (steps : List (CellStep α)) (trees : Trees ι α) {j k : ι} (hk : k ≠ j) :
    trees.edit steps j k = trees k := Function.update_of_ne hk ..

theorem sameShape_copy (f : α → StateM σ α) (trees : Trees ι α) (i j : ι) (st : σ) :
    (trees i).SameShape ((trees.copy f i j st).1 j) := by
  rw [copy_fst_self]
  exact (trees i).sameShape_visitPost f st

/-- The copy and what the program makes of it have the shape of the tree, so that tree and copy are compared along their
values. -/
theorem comparedAfter_copy (eq : α → α → Bool) (steps : List (CellStep α)) (f : α → StateM σ α) (st : σ)
    (trees : Trees ι α) {i j : ι} (h : i ≠ j) : ComparedAfter eq steps trees (trees.copy f i j st).1 i j := by
  have htracks := CellStep.tracks_run ((trees.copy f i j st).1 j) steps
  have hothers : ∀ k, k ≠ j → (trees.copy f i j st).1.edit steps j k = trees k :=
    fun k hk => (edit_of_ne steps _ hk).trans (trees.copy_fst_of_ne f i hk st)
  have hshape : (trees i).SameShape ((trees.copy f i j st).1.edit steps j j) := by
    rw [edit_self]
    exact (trees.sameShape_copy f i j st).trans htracks.sameShape
  refine ⟨hothers i h, hothers, hshape, ?_, ?_, ?_⟩
  · rw [edit_self, htracks.preorder_tree]
  · rw [List.length_zip, ← hshape.length_preorder_eq, Nat.min_self, Tree.length_preorder]
  · unfold compare
    rw [hothers i h]
    exact Located.along_of_sameShape eq h hshape

/-- **A tree and an edited copy of it.** The tree of `i` is copied for `j`, with any copying of values, the copy is
edited, and the two are compared. A value that was written is noticed if it does not pass the test with the value of
its node in the tree of `i`. -/
theorem compare_edited_copy (eq : α → α → Bool) (f : α → StateM σ α) (st : σ) (trees : Trees ι α) {i j : ι}
    (h : i ≠ j) :
    let t := trees i
    let copied := (trees.copy f i j st).1
    (∀ steps, ComparedAfter eq steps trees copied i j) ∧
    (∀ (edits : Nat → Option α) (n : Nat),
      let edited := copied.edit (CellStep.editing edits n) j
      (edited j).preorder = (copied j).preorder.mapIdx (fun k a => if k < n then (edits k).getD a else a) ∧
        ∀ k a b, k < n → t.preorder[k]? = some a → edits k = some b → eq a b = false →
          (edited.compare eq i j).equal = false) ∧
    ((copied.compare eq i j).equal = true ↔
      ∀ call ∈ (t.copy (recording f) (st, [])).2.2, eq call.1 call.2 = true) ∧
    ((∀ a st', (f a st').1 = a) → copied j = t) := by
  intro t copied
  have hshape : t.SameShape (copied j) := trees.sameShape_copy f i j st
  have hcopy : copied j = (t.visitPost f st).1 := trees.copy_fst_self f i j st
  refine ⟨fun steps => comparedAfter_copy eq steps f st trees h, ?_, ?_, ?_⟩
  · intro edits n edited
    have hafter := comparedAfter_copy eq (CellStep.editing edits n) f st trees h
    have hpreorder := hafter.preorder
    rw [CellRow.toList_editing] at hpreorder
    refine ⟨hpreorder, fun k a b hk ha hb hfails => ?_⟩
    have hlength : k < (copied j).preorder.length := by
      rw [← hshape.length_preorder_eq]
      exact (List.getElem?_eq_some_iff.1 ha).1
    have hedited : (edited j).preorder[k]? = some b := by
      rw [hpreorder, List.getElem?_mapIdx, List.getElem?_eq_getElem hlength, Option.map_some, if_pos hk, hb]
      rfl
    have hpair : (a, b) ∈ t.preorder.zip (edited j).preorder :=
      List.mem_of_getElem? (List.getElem?_zip_eq_some.2 ⟨ha, hedited⟩)
    rw [← Bool.not_eq_true, hafter.along.equal_iff]
    intro hall
    exact Bool.false_ne_true (hfails.symm.trans (hall (a, b) hpair))
  · have hframe : copied i = t := trees.copy_fst_of_ne f i h st
    have halong : (copied.compare eq i j).Along eq (t.preorder.zip (copied j).preorder) := by
      unfold compare
      rw [hframe]
      exact Located.along_of_sameShape eq h hshape
    have hcalls : (t.copy (recording f) (st, [])).2.2 = t.postorder.zip (copied j).postorder := by
      rw [t.copy_eq, t.visitPost_recording, hcopy]
      rfl
    rw [halong.equal_iff, hcalls]
    exact forall_congr' fun pair => imp_congr_left (Tree.zip_postorder_perm hshape).mem_iff.symm
  · intro hexact
    rw [hcopy, t.visitPost_of_exact hexact]

/-- The last of three nodes of a copy is edited. The first two pairs pass, and the pair of the edited value is the last
one that is compared. -/
theorem compare_edited_copy_last :
    let eq : Nat → Nat → Bool := fun a b => a == b
    let f : Nat → StateM Nat Nat := fun a n => (a, n + 1)
    let trees : Trees Nat Nat := fun _ => .node 1 (.node 2 .empty .empty) (.node 3 .empty .empty)
    let steps : List (CellStep Nat) := CellStep.editing (fun k => if k = 2 then some 9 else none) 3
    let c := ((trees.copy f 0 1 7).1.edit steps 1).compare eq 0 1
    (0 : Nat) ≠ 1 ∧ c.equal = false ∧ c.compared = [(1, 1), (2, 2), (3, 9)] ∧ c.compared.getLast? = some (3, 9) := by
  intro eq f trees steps c
  have hne : (0 : Nat) ≠ 1 := by decide
  obtain ⟨hsteps, hedits, -, hexact⟩ := compare_edited_copy eq f 7 trees hne
  obtain ⟨hpreorder, hdetected⟩ := hedits (fun k => if k = 2 then some 9 else none) 3
  have hequal : c.equal = false := hdetected 2 3 9 (by decide) rfl rfl rfl
  have hpairs : (trees 0).preorder.zip (((trees.copy f 0 1 7).1.edit steps 1) 1).preorder =
      [(1, 1), (2, 2), (3, 9)] := by
    rw [hpreorder, hexact fun _ _ => rfl]
    decide
  obtain ⟨hcompared, -, hlast⟩ := (hsteps steps).along.compared_to 2 (3, 9) (by rw [hpairs]; rfl) rfl
    (by rw [hpairs]; decide)
  exact ⟨hne, hequal, by rw [hcompared, hpairs]; rfl, hlast⟩

/-- What was in the copy before an edit does not count. The copying of values adds one, so the copy of a leaf with `1`
holds `2`. An edit writes `1`, which does not pass the test with `2`, and the two are equal. -/
theorem compare_edited_copy_restored :
    let eq : Nat → Nat → Bool := fun a b => a == b
    let f : Nat → StateM Nat Nat := fun a calls => (a + 1, calls + 1)
    let trees : Trees Nat Nat := fun _ => .node 1 .empty .empty
    let copied : Trees Nat Nat := (trees.copy f 0 1 0).1
    let edited : Trees Nat Nat := copied.edit (CellStep.editing (fun k => if k = 0 then some 1 else none) 1) 1
    (copied 1).preorder = [2] ∧ eq 2 1 = false ∧ eq 1 2 = false ∧ (edited 1).preorder = [1] ∧
      (edited.compare eq 0 1).equal = true := by
  intro eq f trees copied edited
  have hne : (0 : Nat) ≠ 1 := by decide
  have hafter := comparedAfter_copy eq (CellStep.editing (fun k => if k = 0 then some 1 else none) 1) f 0 trees hne
  have hcopied : (copied 1).preorder = [2] := congrArg Tree.preorder (trees.copy_fst_self f 0 1 0)
  have hedited : (edited 1).preorder = [1] := by
    rw [hafter.preorder, CellRow.toList_editing, hcopied]
    rfl
  refine ⟨hcopied, rfl, rfl, hedited, ?_⟩
  rw [hafter.along.equal_iff, hedited]
  decide

end Trees

end TreeWalk
