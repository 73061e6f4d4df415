import TreeWalk.Proofs.Comparison
import TreeWalk.Proofs.Walk.Preorder

/-!
# Which values a comparison looks at

Two nodes are compared along the pairs of nodes that come at the same time in the two pre-orders. The lockstep stops at
the first pair that differs. There it has compared the values only if the children agree in presence, while the
recursion compares the values first, and goes through the left subtrees before it looks at the right ones. So the
lockstep never compares more than the recursion, and what it compares is what the recursion compares first.

* `Lockstep.differ` : whether a pair of nodes differs, by its children's presence or by its values;
* `Lockstep.examined` : the pairs whose values are compared up to the first difference (`examined_of_none`,
  `examined_of_some`). What comes after a difference does not matter (`examined_append_of_any`);
* `Lockstep.run_of_length_eq` : these are the pairs that the lockstep compares. Its two stacks are of the same length as
  long as it goes on (`pairs_of_more`), so that neither walk ends before the other (`examined_of_decided`);
* `Tree.examined_prefix` : the recursion compares the same pairs first;
* `Located.compared_up_to_difference` : if no pair differs, then both nodes have the same number of nodes below them
  and the values of all pairs are compared. Otherwise nothing is compared after the first pair that differs. So the
  values of two nodes are compared only if their children agree in presence.
-/

namespace TreeWalk

universe u v

variable {α : Type u} {eq : α → α → Bool}

namespace Lockstep

/-! ## Pairs up to the first difference -/

/-- The two nodes differ: in the presence of a child, or in their values. -/
def differ (eq : α → α → Bool) (pair : Spot α × Spot α) : Bool :=
  childrenDiffer pair.1 pair.2 || !eq pair.1.value pair.2.value

/-- The pairs whose values are compared up to the first difference. -/
def examined (eq : α → α → Bool) : List (Spot α × Spot α) → List (Spot α × Spot α)
  | [] => []
  | pair :: rest =>
      if childrenDiffer pair.1 pair.2 then []
      else if eq pair.1.value pair.2.value then pair :: examined eq rest
      else [pair]

theorem examined_cons_of_not_differ {pair : Spot α × Spot α} (h : differ eq pair = false)
    (rest : List (Spot α × Spot α)) : examined eq (pair :: rest) = pair :: examined eq rest := by
  rw [differ, Bool.or_eq_false_iff, Bool.not_eq_false'] at h
  rw [examined, h.1, h.2]
  rfl

theorem examined_cons_of_differ {pair : Spot α × Spot α} (h : differ eq pair = true)
    (rest : List (Spot α × Spot α)) :
    examined eq (pair :: rest) = if childrenDiffer pair.1 pair.2 then [] else [pair] := by
  rw [differ, Bool.or_eq_true, Bool.not_eq_true'] at h
  rw [examined]
  rcases h with h | h
  · rw [h]
    rfl
  · rw [h]
    rfl

theorem examined_prefix_self (pairs : List (Spot α × Spot α)) : examined eq pairs <+: pairs := by
  induction pairs with
  | nil => exact List.prefix_refl _
  | cons pair rest ih =>
    rw [examined]
    split
    · exact List.nil_prefix
    · split
      · exact (List.prefix_cons_inj pair).2 ih
      · exact ⟨rest, rfl⟩

theorem childrenDiffer_of_mem_examined {pairs : List (Spot α × Spot α)} {pair : Spot α × Spot α}
    (h : pair ∈ examined eq pairs) : childrenDiffer pair.1 pair.2 = false := by
  induction pairs with
  | nil => cases h
  | cons first rest ih =>
    rw [examined] at h
    split_ifs at h with hchildren heq
    · cases h
    · rcases List.mem_cons.1 h with rfl | h
      · exact Bool.eq_false_iff.2 hchildren
      · exact ih h
    · obtain rfl := List.mem_singleton.1 h
      exact Bool.eq_false_iff.2 hchildren

theorem examined_of_none {pairs : List (Spot α × Spot α)} (h : pairs.findIdx? (differ eq) = none) :
    examined eq pairs = pairs := by
  induction pairs with
  | nil => rfl
  | cons pair rest ih =>
    rw [List.findIdx?_cons] at h
    split_ifs at h with hpair
    rw [examined_cons_of_not_differ (Bool.eq_false_iff.2 hpair), ih (Option.map_eq_none_iff.1 h)]

theorem examined_of_some {pairs : List (Spot α × Spot α)} {k : Nat} (h : pairs.findIdx? (differ eq) = some k) :
    ∃ pair, pairs[k]? = some pair ∧
      examined eq pairs = pairs.take (if childrenDiffer pair.1 pair.2 then k else k + 1) := by
  induction pairs generalizing k with
  | nil => cases h
  | cons first rest ih =>
    rw [List.findIdx?_cons] at h
    split_ifs at h with hfirst
    · obtain rfl := Option.some.inj h
      refine ⟨first, rfl, ?_⟩
      rw [examined_cons_of_differ hfirst]
      split <;> rfl
    · obtain ⟨k', hrest, rfl⟩ := Option.map_eq_some_iff.1 h
      obtain ⟨pair, hpair, htake⟩ := ih hrest
      refine ⟨pair, hpair, ?_⟩
      rw [examined_cons_of_not_differ (Bool.eq_false_iff.2 hfirst), htake]
      split <;> rfl

/-- Pairs that do not differ are all looked at, and so are those after them. -/
theorem examined_append_of_not_any {pairs : List (Spot α × Spot α)} (h : pairs.any (differ eq) = false)
    (rest : List (Spot α × Spot α)) : examined eq (pairs ++ rest) = pairs ++ examined eq rest := by
  induction pairs with
  | nil => rfl
  | cons pair pairs ih =>
    rw [List.any_cons, Bool.or_eq_false_iff] at h
    rw [List.cons_append, examined_cons_of_not_differ h.1, ih h.2, List.cons_append]

/-- After a difference nothing is looked at. -/
theorem examined_append_of_any {pairs : List (Spot α × Spot α)} (h : pairs.any (differ eq) = true)
    (rest : List (Spot α × Spot α)) : examined eq (pairs ++ rest) = examined eq pairs := by
  induction pairs with
  | nil => cases h
  | cons pair pairs ih =>
    rw [List.cons_append]
    cases hpair : differ eq pair with
    | true => rw [examined_cons_of_differ hpair, examined_cons_of_differ hpair]
    | false =>
      rw [List.any_cons, hpair, Bool.false_or] at h
      rw [examined_cons_of_not_differ hpair, examined_cons_of_not_differ hpair, ih h]

/-! ## The lockstep -/

theorem length_pushChildren (s : Spot α) (stack : List (Spot α)) :
    (Preorder.pushChildren s stack).length = s.node.hasLeft.toNat + (s.node.hasRight.toNat + stack.length) := by
  have hside : ∀ p (t : Tree α), (t.spot? p).toList.length = (!t.isEmpty).toNat := by
    intro p t
    cases t <;> rfl
  unfold Preorder.pushChildren Spot.left? Spot.right?
  rw [List.length_append, List.length_append, hside, hside]
  rfl

theorem length_pushChildren_eq {x y : Spot α} {xs ys : List (Spot α)} (h : childrenDiffer x y = false)
    (hlength : xs.length = ys.length) :
    (Preorder.pushChildren x xs).length = (Preorder.pushChildren y ys).length := by
  unfold childrenDiffer at h
  rw [Bool.or_eq_false_iff, bne_eq_false_iff_eq, bne_eq_false_iff_eq] at h
  rw [length_pushChildren, length_pushChildren, h.1, h.2, hlength]

/-- The nodes still to come in the two walks, in pairs. -/
def pairs (xs ys : List (Spot α)) : List (Spot α × Spot α) := (Preorder.pending xs).zip (Preorder.pending ys)

theorem pairs_cons_cons (x y : Spot α) (xs ys : List (Spot α)) :
    pairs (x :: xs) (y :: ys) = (x, y) :: pairs (Preorder.pushChildren x xs) (Preorder.pushChildren y ys) := by
  unfold pairs
  rw [Preorder.pending_cons, Preorder.pending_cons, List.zip_cons_cons]

/-- A step after which the comparison goes on takes a pair that does not differ, compares its values, and keeps the two
stacks of the same length. -/
theorem pairs_of_more {l l' : Lockstep α} (h : l.step eq = .more l')
    (hlength : l.first.stack.length = l.second.stack.length) :
    l'.first.stack.length = l'.second.stack.length ∧ ∃ pair, differ eq pair = false ∧
      pairs l.first.stack l.second.stack = pair :: pairs l'.first.stack l'.second.stack ∧
      l'.compared = l.compared.push (Prod.map Spot.value Spot.value pair) := by
  obtain ⟨⟨_ | ⟨x, xs⟩⟩, ⟨_ | ⟨y, ys⟩⟩, compared⟩ := l
  · simp at h
  · simp at h
  · simp at h
  · rw [step_cons_cons] at h
    split_ifs at h with hchildren heq
    obtain rfl := Outcome.more.inj h
    have hpair : differ eq (x, y) = false := by
      rw [differ, Bool.eq_false_iff.2 hchildren, heq]
      rfl
    exact ⟨length_pushChildren_eq (Bool.eq_false_iff.2 hchildren) (Nat.succ.inj hlength), (x, y), hpair,
      pairs_cons_cons x y xs ys, rfl⟩

/-- A step that decides the comparison is at the end of both walks or at a pair that differs. -/
theorem examined_of_decided {l : Lockstep α} {equal : Bool} {compared : Array (α × α)}
    (h : l.step eq = .decided equal compared) (hlength : l.first.stack.length = l.second.stack.length) :
    compared.toList = l.compared.toList ++
        (examined eq (pairs l.first.stack l.second.stack)).map (Prod.map Spot.value Spot.value) ∧
      equal = !(pairs l.first.stack l.second.stack).any (differ eq) := by
  obtain ⟨⟨_ | ⟨x, xs⟩⟩, ⟨_ | ⟨y, ys⟩⟩, before⟩ := l
  · obtain ⟨rfl, rfl⟩ := Outcome.decided.inj h
    exact ⟨(List.append_nil _).symm, rfl⟩
  · cases hlength
  · cases hlength
  · rw [step_cons_cons] at h
    rw [pairs_cons_cons]
    split_ifs at h with hchildren heq
    · obtain ⟨rfl, rfl⟩ := Outcome.decided.inj h
      have hpair : differ eq (x, y) = true := by
        rw [differ, hchildren]
        rfl
      rw [examined_cons_of_differ hpair, if_pos hchildren, List.any_cons, hpair]
      exact ⟨(List.append_nil _).symm, rfl⟩
    · obtain ⟨rfl, rfl⟩ := Outcome.decided.inj h
      have hpair : differ eq (x, y) = true := by
        rw [differ, Bool.eq_false_iff.2 heq]
        exact Bool.or_true _
      rw [examined_cons_of_differ hpair, if_neg hchildren, List.any_cons, hpair, Array.toList_push]
      exact ⟨rfl, rfl⟩

/-- The lockstep compares the values of the pairs up to the first difference. The answer is whether there is none. -/
theorem run_of_length_eq (l : Lockstep α) (h : l.first.stack.length = l.second.stack.length) :
    (l.run eq).compared = l.compared.toList ++
        (examined eq (pairs l.first.stack l.second.stack)).map (Prod.map Spot.value Spot.value) ∧
      (l.run eq).equal = !(pairs l.first.stack l.second.stack).any (differ eq) := by
  fun_induction run eq l with
  | case1 l l' hstep ih =>
    obtain ⟨hlength, pair, hpair, hpairs, hcompared⟩ := pairs_of_more hstep h
    obtain ⟨hrest, hequal⟩ := ih hlength
    rw [hrest, hequal, hpairs, hcompared, examined_cons_of_not_differ hpair, List.any_cons, hpair, Array.toList_push,
      List.append_assoc]
    exact ⟨rfl, rfl⟩
  | case2 l equal compared hstep => exact examined_of_decided hstep h

/-- Two nodes agree if no pair of nodes below them differs. -/
theorem any_differ_eq_false_iff (x y : Spot α) :
    ((x.node.toTree.spotsPre x.place).zip (y.node.toTree.spotsPre y.place)).any (differ eq) = false ↔
      SpotsAgree eq x y := by
  have hpending : ∀ s : Spot α, Preorder.pending [s] = s.node.toTree.spotsPre s.place :=
    fun s => List.flatMap_singleton ..
  obtain ⟨-, hrun⟩ := @run_of_length_eq α eq ⟨⟨[x]⟩, ⟨[y]⟩, #[]⟩ rfl
  have hagree := @run_equal_iff α eq ⟨⟨[x]⟩, ⟨[y]⟩, #[]⟩
  rw [hrun, Bool.not_eq_true', pairs, hpending, hpending, StacksAgree, List.forall₂_cons] at hagree
  exact hagree.trans (and_iff_left List.Forall₂.nil)

end Lockstep

/-! ## The recursion -/

namespace Tree

open Lockstep

/-- Two trees of which both or neither are empty agree if no pair of their nodes differs. -/
theorem any_differ_eq_false_iff {s t : Tree α} (h : s.isEmpty = t.isEmpty) (p q : Place) :
    ((s.spotsPre p).zip (t.spotsPre q)).any (differ eq) = false ↔ s.Agree eq t := by
  cases s with
  | empty =>
    cases t with
    | empty => exact iff_of_true rfl agree_empty_empty
    | node => cases h
  | node a left right =>
    cases t with
    | empty => cases h
    | node b left' right' => exact Lockstep.any_differ_eq_false_iff ⟨p, ⟨a, left, right⟩⟩ ⟨q, ⟨b, left', right'⟩⟩

/-- What the recursion compares in trees that agree: all values, in pre-order. -/
theorem compared_of_agree {s t : Tree α} (h : s.Agree eq t) :
    (s.compare eq t).compared = s.preorder.zip t.preorder := by
  induction s generalizing t with
  | empty =>
    cases t with
    | empty => rfl
    | node b left right => exact absurd h (not_agree_empty_node b left right)
  | node a left right ihLeft ihRight =>
    cases t with
    | empty => exact absurd h (not_agree_node_empty a left right)
    | node b left' right' =>
      obtain ⟨hroot, hleft, hright⟩ := (agree_node_node ..).1 h
      rw [compare_node_node, if_pos hroot, preorder_node, preorder_node, List.zip_cons_cons,
        List.zip_append hleft.sameShape.length_preorder_eq, ← ihLeft hleft, ← ihRight hright]
      simp only [(compare_equal_iff left left').2 hleft, if_true]

theorem zip_prefix_zip_append {γ δ : Type*} (xs xs' : List γ) (ys ys' : List δ) :
    xs.zip ys <+: (xs ++ xs').zip (ys ++ ys') := by
  induction xs generalizing ys with
  | nil => exact List.nil_prefix
  | cons x xs ih =>
    cases ys with
    | nil => exact List.nil_prefix
    | cons y ys => exact (List.prefix_cons_inj (x, y)).2 (ih ys)

/-- The recursion compares the values of the roots first. -/
theorem exists_compared_node_node (a b : α) (left right left' right' : Tree α) :
    ∃ rest, ((node a left right).compare eq (node b left' right')).compared = (a, b) :: rest := by
  rw [compare_node_node]
  split
  · cases hleft : (left.compare eq left').equal with
    | true =>
      simp only [hleft, if_true]
      exact ⟨_, rfl⟩
    | false =>
      simp only [hleft, Bool.false_eq_true, if_false]
      exact ⟨_, rfl⟩
  · exact ⟨[], rfl⟩

/-- The recursion compares first what is compared up to the first difference between the two pre-orders. -/
theorem examined_prefix (p q : Place) (s t : Tree α) :
    (examined eq ((s.spotsPre p).zip (t.spotsPre q))).map (Prod.map Spot.value Spot.value) <+:
      (s.compare eq t).compared := by
  induction s generalizing p q t with
  | empty => exact List.nil_prefix
  | node a left right ihLeft ihRight =>
    cases t with
    | empty => exact List.nil_prefix
    | node b left' right' =>
      rw [spotsPre, spotsPre, List.zip_cons_cons]
      cases hpair : differ eq ((⟨p, ⟨a, left, right⟩⟩ : Spot α), (⟨q, ⟨b, left', right'⟩⟩ : Spot α)) with
      | true =>
        obtain ⟨rest, hrest⟩ := @exists_compared_node_node α eq a b left right left' right'
        rw [examined_cons_of_differ hpair, hrest]
        split
        · exact List.nil_prefix
        · exact ⟨rest, rfl⟩
      | false =>
        have hsame := hpair
        rw [differ, Bool.or_eq_false_iff, Bool.not_eq_false'] at hsame
        have hroot : eq a b = true := hsame.2
        have hempty : left.isEmpty = left'.isEmpty := by
          simpa [childrenDiffer, Node.hasLeft] using (Bool.or_eq_false_iff.1 hsame.1).1
        rw [examined_cons_of_not_differ hpair, List.map_cons, compare_node_node, if_pos hroot]
        cases hleft : (left.compare eq left').equal with
        | true =>
          -- the left subtrees agree, so both ways go through them to their end
          have hagree : left.Agree eq left' := (compare_equal_iff left left').1 hleft
          have hnone := (any_differ_eq_false_iff hempty p.left q.left).2 hagree
          have hcompared : (left.compare eq left').compared =
              ((left.spotsPre p.left).zip (left'.spotsPre q.left)).map (Prod.map Spot.value Spot.value) := by
            rw [compared_of_agree hagree, ← left.spotsPre_map_value p.left, ← left'.spotsPre_map_value q.left,
              List.zip_map]
          rw [List.zip_append (hagree.sameShape.length_spotsPre_eq p.left q.left), examined_append_of_not_any hnone,
            List.map_append, ← hcompared]
          simp only [hleft, if_true]
          exact (List.prefix_cons_inj (a, b)).2 ((List.prefix_append_right_inj _).2 (ihRight p.right q.right right'))
        | false =>
          -- the left subtrees differ, and neither way looks at anything after the difference
          have hsome : ((left.spotsPre p.left).zip (left'.spotsPre q.left)).any (differ eq) = true := by
            rw [← Bool.not_eq_false, any_differ_eq_false_iff hempty, ← compare_equal_iff, hleft]
            exact Bool.false_ne_true
          obtain ⟨rest, hrest⟩ := zip_prefix_zip_append (left.spotsPre p.left) (right.spotsPre p.right)
            (left'.spotsPre q.left) (right'.spotsPre q.right)
          rw [← hrest, examined_append_of_any hsome]
          simp only [hleft, Bool.false_eq_true, if_false]
          exact (List.prefix_cons_inj (a, b)).2 (ihLeft p.left q.left left')

end Tree

/-! ## Two nodes -/

namespace Located

variable {ι : Type v}

/-- The nodes below two nodes that come at the same time in the two pre-orders, with places counted from the two. -/
def pairs (a b : Located ι α) : List (Spot α × Spot α) :=
  (a.spot.node.toTree.spotsPre .root).zip (b.spot.node.toTree.spotsPre .root)

theorem length_pairs (a b : Located ι α) : (pairs a b).length = min a.spot.size b.spot.size := by
  rw [pairs, List.length_zip, Tree.length_spotsPre, Tree.length_spotsPre]
  rfl

variable [DecidableEq ι]

theorem compare_eq {a b : Located ι α} (h : a.isSame b = false) :
    a.compare eq b = ⟨!(pairs a b).any (Lockstep.differ eq),
      (Lockstep.examined eq (pairs a b)).map (Prod.map Spot.value Spot.value)⟩ := by
  have hpending : ∀ n : Node α, Preorder.pending [⟨.root, n⟩] = n.toTree.spotsPre .root :=
    fun n => List.flatMap_singleton ..
  have hpairs : Lockstep.pairs [⟨.root, a.spot.node⟩] [⟨.root, b.spot.node⟩] = pairs a b := by
    rw [Lockstep.pairs, hpending, hpending, pairs]
  obtain ⟨hcompared, hequal⟩ := @Lockstep.run_of_length_eq α eq (.ofNodes a.spot.node b.spot.node) rfl
  rw [compare_of_not_same h, ← hpairs]
  cases hrun : (Lockstep.ofNodes a.spot.node b.spot.node).run eq with
  | mk equal compared =>
    rw [hrun] at hcompared hequal
    exact congrArg₂ Comparison.mk hequal hcompared

/-- **What a comparison looks at.** The values of two different nodes and of those below them are compared in
pre-order, pair by pair, up to the first pair that differs, and there only if the children agree in presence. The
recursion compares the same values first. -/
theorem compared_up_to_difference (eq : α → α → Bool) {a b : Located ι α} (h : a.isSame b = false) :
    let c := a.compare eq b
    (match (pairs a b).findIdx? (Lockstep.differ eq) with
      | none => c.equal = true ∧ c.compared = (pairs a b).map (Prod.map Spot.value Spot.value) ∧
          (pairs a b).length = a.spot.size ∧ (pairs a b).length = b.spot.size
      | some k => c.equal = false ∧ ∃ pair, (pairs a b)[k]? = some pair ∧
          c.compared = ((pairs a b).take (if Lockstep.childrenDiffer pair.1 pair.2 then k else k + 1)).map
            (Prod.map Spot.value Spot.value)) ∧
    (∀ pair ∈ (pairs a b).take c.compared.length, Lockstep.childrenDiffer pair.1 pair.2 = false) ∧
    c.compared <+: (a.spot.node.toTree.compare eq b.spot.node.toTree).compared := by
  intro c
  have hequal : c.equal = !(pairs a b).any (Lockstep.differ eq) := congrArg Comparison.equal (compare_eq h)
  have hcompared : c.compared = (Lockstep.examined eq (pairs a b)).map (Prod.map Spot.value Spot.value) :=
    congrArg Comparison.compared (compare_eq h)
  refine ⟨?_, ?_, ?_⟩
  · cases hfirst : (pairs a b).findIdx? (Lockstep.differ eq) with
    | none =>
      have hnone : (pairs a b).any (Lockstep.differ eq) = false := by
        rw [← List.findIdx?_isSome, hfirst]
        rfl
      have hagree : a.spot.node.toTree.Agree eq b.spot.node.toTree :=
        (Lockstep.any_differ_eq_false_iff ⟨.root, a.spot.node⟩ ⟨.root, b.spot.node⟩).1 hnone
      have hsize : a.spot.size = b.spot.size := hagree.sameShape.size_eq
      have hlength : (pairs a b).length = a.spot.size := by rw [length_pairs, ← hsize, Nat.min_self]
      rw [hequal, hnone, hcompared, Lockstep.examined_of_none hfirst, ← hsize]
      exact ⟨rfl, rfl, hlength, hlength⟩
    | some k =>
      have hsome : (pairs a b).any (Lockstep.differ eq) = true := by
        rw [← List.findIdx?_isSome, hfirst]
        rfl
      obtain ⟨pair, hpair, htake⟩ := Lockstep.examined_of_some hfirst
      rw [hequal, hsome, hcompared, htake]
      exact ⟨rfl, pair, hpair, rfl⟩
  · intro pair hpair
    rw [hcompared, List.length_map, ← List.prefix_iff_eq_take.1 (Lockstep.examined_prefix_self _)] at hpair
    exact Lockstep.childrenDiffer_of_mem_examined hpair
  · rw [hcompared]
    exact Tree.examined_prefix .root .root _ _

/-- Two right children have their only child on different sides. The lockstep sees this before it compares their values,
and the recursion only afterwards. -/
theorem compared_up_to_difference_right :
    let eq : Nat → Nat → Bool := fun m n => m == n
    let a : Located Nat Nat := ⟨0, ⟨.root, ⟨1, .node 2 .empty .empty, .node 3 (.node 4 .empty .empty) .empty⟩⟩⟩
    let b : Located Nat Nat := ⟨1, ⟨.root, ⟨1, .node 2 .empty .empty, .node 3 .empty (.node 4 .empty .empty)⟩⟩⟩
    a.isSame b = false ∧ (a.compare eq b).compared = [(1, 1), (2, 2)] ∧
      (a.spot.node.toTree.compare eq b.spot.node.toTree).compared = [(1, 1), (2, 2), (3, 3)] := by
  intro eq a b
  have hab : a.isSame b = false := by decide
  have hfirst : (pairs a b).findIdx? (Lockstep.differ eq) = some 2 := by decide
  obtain ⟨htrace, -, -⟩ := compared_up_to_difference eq hab
  rw [hfirst] at htrace
  obtain ⟨-, pair, hpair, hcompared⟩ := htrace
  obtain rfl := Option.some.inj hpair
  exact ⟨hab, hcompared, by decide⟩

end Located

end TreeWalk
