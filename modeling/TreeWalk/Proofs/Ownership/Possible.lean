import TreeWalk.Proofs.Ownership.Estate

/-!
# When a deed takes place

* `Deed.Possible e` : the objects that a deed needs are there, and the two children of a new node are different objects;
* `Estate.isSome_perform_iff` : a deed takes place if and only if it is possible. In particular a walk can be called
  in any state, and any object that is there can be given up.
-/

namespace TreeWalk

universe u

variable {α σ : Type u}

namespace Estate

def NodeAt (e : Estate α σ) (i : Nat) : Prop := ∃ n, e.look? i = some (.node n)

/-- A node or tree has the number `i`, and so not a walk. -/
def TreeAt (e : Estate α σ) (i : Nat) : Prop := ∃ held, e.look? i = some held ∧ ∀ w, held ≠ .owning w

end Estate

/-- The objects that the deed needs are there. -/
def Deed.Possible (e : Estate α σ) : Deed α → Prop
  | makeNode _ left right => (∀ i, left = some i → e.NodeAt i) ∧ ∀ i, right = some i → left ≠ some i ∧ e.NodeAt i
  | makeLeaf _ => True
  | makeTree root => ∀ i, root = some i → e.NodeAt i
  | copyTree i => ∃ t, e.look? i = some (.tree t)
  | copyNode i path => ∃ held s, e.look? i = some held ∧ held.locate? path = some s
  | rearrange i _ => e.TreeAt i
  | takeApart i => e.TreeAt i
  | callWalk i => ∃ w, e.look? i = some (.owning w)
  | giveUp i => ∃ held, e.look? i = some held

theorem Holding.isSome_rearranged?_iff (held : Holding α) (moves : List (CellMove α)) :
    (held.rearranged? moves).isSome ↔ ∀ w, held ≠ .owning w := by
  cases held with
  | node n => exact iff_of_true rfl fun _ h => nomatch h
  | tree t => exact iff_of_true rfl fun _ h => nomatch h
  | owning w => exact iff_of_false Bool.false_ne_true fun h => h w rfl

theorem Holding.isSome_takenApart?_iff (held : Holding α) : held.takenApart?.isSome ↔ ∀ w, held ≠ .owning w := by
  cases held with
  | node n => exact iff_of_true rfl fun _ h => nomatch h
  | tree t => exact iff_of_true rfl fun _ h => nomatch h
  | owning w => exact iff_of_false Bool.false_ne_true fun h => h w rfl

namespace Estate

variable {e e' : Estate α σ} {f : α → StateM σ α} {i : Nat}

/-! ## Taking children -/

theorem look?_exchange_none (e : Estate α σ) (i j : Nat) :
    (e.exchange i none).look? j = if i = j then none else e.look? j := by
  show (e.holdings.set i none)[j]?.join = _
  rw [List.getElem?_set]
  by_cases hij : i = j
  · rw [if_pos hij, if_pos hij]
    split <;> rfl
  · rw [if_neg hij, if_neg hij]
    rfl

theorem isSome_takeChild?_iff (e : Estate α σ) (number : Option Nat) :
    (e.takeChild? number).isSome ↔ ∀ i, number = some i → e.NodeAt i := by
  cases number with
  | none => exact iff_of_true rfl fun _ h => nomatch h
  | some i =>
    have hnode : (e.takeNode? i).isSome ↔ e.NodeAt i := by
      unfold takeNode?
      split
      · next n h => exact iff_of_true rfl ⟨n, h⟩
      · next h => exact iff_of_false Bool.false_ne_true fun ⟨n, hn⟩ => h n hn
    rw [takeChild?, Option.isSome_map, hnode]
    constructor
    · rintro h j ⟨⟩
      exact h
    · intro h
      exact h i rfl

/-- After a child has been taken, its number is free, and under the others there is what was there before. -/
theorem look?_of_takeChild? {number : Option Nat} {n? : Option (Node α)} (h : e.takeChild? number = some (n?, e'))
    (j : Nat) : e'.look? j = if number = some j then none else e.look? j := by
  cases number with
  | none =>
    obtain ⟨-, rfl⟩ := Prod.mk.inj (Option.some.inj h)
    rw [if_neg nofun]
  | some i =>
    obtain ⟨⟨n, e₁⟩, hnode, hpair⟩ := Option.map_eq_some_iff.1 h
    obtain ⟨-, rfl⟩ := Prod.mk.inj hpair
    obtain ⟨-, rfl⟩ := takeNode?_eq_some hnode
    rw [look?_exchange_none]
    simp only [Option.some.injEq]

theorem nodeAt_of_takeChild? {number : Option Nat} {n? : Option (Node α)} (h : e.takeChild? number = some (n?, e'))
    (j : Nat) : e'.NodeAt j ↔ number ≠ some j ∧ e.NodeAt j := by
  unfold NodeAt
  rw [look?_of_takeChild? h]
  by_cases hj : number = some j
  · rw [if_pos hj]
    exact iff_of_false (fun ⟨_, hn⟩ => nomatch hn) fun ⟨hne, _⟩ => hne hj
  · rw [if_neg hj]
    exact (and_iff_right hj).symm

/-! ## Deeds -/

theorem isSome_makeNode_iff (e : Estate α σ) (a : α) (left right : Option Nat) :
    (e.makeNode a left right).isSome ↔
      (∀ i, left = some i → e.NodeAt i) ∧ ∀ i, right = some i → left ≠ some i ∧ e.NodeAt i := by
  rw [← isSome_takeChild?_iff]
  cases hleft : e.takeChild? left with
  | none =>
    unfold makeNode
    rw [hleft]
    exact iff_of_false Bool.false_ne_true fun h => Bool.false_ne_true h.1
  | some p =>
    obtain ⟨left?, e₁⟩ := p
    have hright := isSome_takeChild?_iff e₁ right
    simp only [nodeAt_of_takeChild? hleft] at hright
    unfold makeNode
    rw [hleft, Option.isSome_some, and_iff_right rfl, ← hright]
    cases hr : e₁.takeChild? right with
    | none => simp [hr]
    | some q => simp [hr]

theorem isSome_copyTree_iff (e : Estate α σ) (i : Nat) :
    (e.copyTree f i).isSome ↔ ∃ t, e.look? i = some (.tree t) := by
  unfold copyTree
  split
  · next t h => exact iff_of_true rfl ⟨t, h⟩
  · next h => exact iff_of_false Bool.false_ne_true fun ⟨t, ht⟩ => h t ht

theorem isSome_callWalk_iff (e : Estate α σ) (i : Nat) :
    (e.callWalk i).isSome ↔ ∃ w, e.look? i = some (.owning w) := by
  unfold callWalk
  split
  · next w h => exact iff_of_true rfl ⟨w, h⟩
  · next h => exact iff_of_false Bool.false_ne_true fun ⟨w, hw⟩ => h w hw

theorem isSome_copyNode_iff (e : Estate α σ) (i : Nat) (path : List Side) :
    (e.copyNode f i path).isSome ↔ ∃ held s, e.look? i = some held ∧ held.locate? path = some s := by
  unfold copyNode
  cases hlook : e.look? i with
  | none => exact iff_of_false Bool.false_ne_true fun ⟨_, _, h, _⟩ => nomatch h
  | some held =>
    cases hs : held.locate? path with
    | none => simp [hs]
    | some s =>
      refine iff_of_true ?_ ⟨held, s, rfl, hs⟩
      simp only [Option.bind_eq_bind, Option.bind_some, hs]
      rfl

theorem isSome_rearrange_iff (e : Estate α σ) (i : Nat) (moves : List (CellMove α)) :
    (e.rearrange i moves).isSome ↔ e.TreeAt i := by
  unfold rearrange TreeAt
  cases e.look? i with
  | none => exact iff_of_false Bool.false_ne_true fun ⟨_, h, _⟩ => nomatch h
  | some held => simp [← held.isSome_rearranged?_iff moves, Option.isSome_bind]

theorem isSome_takeApart_iff (e : Estate α σ) (i : Nat) : (e.takeApart i).isSome ↔ e.TreeAt i := by
  unfold takeApart TreeAt
  cases e.look? i with
  | none => exact iff_of_false Bool.false_ne_true fun ⟨_, h, _⟩ => nomatch h
  | some held => simp [← held.isSome_takenApart?_iff, Option.isSome_bind]

/-- A deed takes place if and only if it is possible. -/
theorem isSome_perform_iff (f : α → StateM σ α) (e : Estate α σ) (deed : Deed α) :
    (e.perform f deed).isSome ↔ deed.Possible e := by
  cases deed with
  | makeNode a left right => exact e.isSome_makeNode_iff a left right
  | makeLeaf a => exact iff_of_true rfl trivial
  | makeTree root =>
    show (e.makeTree root).isSome ↔ ∀ i, root = some i → e.NodeAt i
    rw [← isSome_takeChild?_iff]
    unfold makeTree
    cases e.takeChild? root <;> rfl
  | copyTree i => exact e.isSome_copyTree_iff i
  | copyNode i path => exact e.isSome_copyNode_iff i path
  | rearrange i moves => exact e.isSome_rearrange_iff i moves
  | takeApart i => exact e.isSome_takeApart_iff i
  | callWalk i => exact e.isSome_callWalk_iff i
  | giveUp i =>
    show (e.giveUp i).isSome ↔ ∃ held, e.look? i = some held
    unfold giveUp
    cases e.look? i <;> simp

end Estate

end TreeWalk
