import Mathlib.Data.List.Chain
import TreeWalk.Proofs.Release.Abandon

/-!
# Releases do not nest with the depth of a tree

A release opens and closes slots, and the slots that are open at some point of its account are the releases of slots
that are nested there. The loop that empties a slot releases every node as a leaf. So a slot that is opened inside
another is empty: it is closed at once, and nothing is ever freed two slots deep.

* `Event.level`, `Event.levels` : the number of open slots after an event, and the events of an account, each with the
  number of slots that are open when it comes. After a whole account it is `Event.levelAfter`;
* `Event.Flat` : an account that leaves no slot open and nests no deeper than two slots. One such account after another
  is such an account (`Flat.append`), and so is the release of any number of nodes (`Flat.flatMap`);
* `Event.flat_ofSlot` : the account of a slot is of this kind, whatever lies in the slot;
* `releases_flat` : therefore all releases are of this kind. Whatever is released, a node that is freed while a slot
  is open is a leaf, and the slots that a call of an owning walk releases, with the node out of which it takes the
  value, are empty too.
-/

namespace TreeWalk

universe u

variable {α : Type u}

namespace Event

/-! ## Open slots -/

/-- The number of open slots after an event that comes when `d` slots are open. -/
def level (d : Nat) : Event α → Nat
  | opened => d + 1
  | freed _ => d
  | closed => d - 1

/-- The number of open slots after an account that starts when `d` slots are open. -/
def levelAfter (d : Nat) (account : List (Event α)) : Nat := account.foldl level d

/-- The events of an account that starts when `d` slots are open, each with the number of open slots when it comes. -/
def levels (d : Nat) : List (Event α) → List (Nat × Event α)
  | [] => []
  | e :: account => (d, e) :: levels (e.level d) account

theorem levelAfter_append (d : Nat) (xs ys : List (Event α)) :
    levelAfter d (xs ++ ys) = levelAfter (levelAfter d xs) ys := List.foldl_append

theorem levels_append (d : Nat) (xs ys : List (Event α)) :
    levels d (xs ++ ys) = levels d xs ++ levels (levelAfter d xs) ys := by
  induction xs generalizing d with
  | nil => rfl
  | cons e xs ih =>
    rw [List.cons_append, levels, ih]
    rfl

theorem level_of_getLast?_levels {d : Nat} {account : List (Event α)} {x : Nat × Event α}
    (h : (levels d account).getLast? = some x) : x.2.level x.1 = levelAfter d account := by
  induction account generalizing d with
  | nil => cases h
  | cons e account ih =>
    cases account with
    | nil =>
      obtain rfl := Option.some.inj h
      rfl
    | cons e' account => exact ih h

/-! ## Flat accounts -/

/-- An account that starts and ends with no open slot, in which at most two slots are open at any time. A node that is
freed while a slot is open is a leaf, and only one slot is open then. A slot that is opened while another is open is
closed at once. -/
structure Flat (account : List (Event α)) : Prop where
  settled : levelAfter 0 account = 0
  opened_before : ∀ d, (d, closed) ∈ levels 0 account → 0 < d
  level_le_two : ∀ d e, (d, e) ∈ levels 0 account → e.level d ≤ 2
  isLeaf : ∀ d n, (d, freed n) ∈ levels 0 account → 0 < d → d = 1 ∧ n.isLeaf = true
  closed_at_once : (levels 0 account).IsChain fun x y => 0 < x.1 → x.2 = opened → y.2 = closed

theorem flat_nil : Flat ([] : List (Event α)) where
  settled := rfl
  opened_before _ h := absurd h List.not_mem_nil
  level_le_two _ _ h := absurd h List.not_mem_nil
  isLeaf _ _ h := absurd h List.not_mem_nil
  closed_at_once := .nil

theorem Flat.levels_append {xs ys : List (Event α)} (h : Flat xs) :
    levels 0 (xs ++ ys) = levels 0 xs ++ levels 0 ys := by
  rw [Event.levels_append, h.settled]

/-- Two accounts do not meet, since the first one leaves no slot open. -/
theorem Flat.append {xs ys : List (Event α)} (hx : Flat xs) (hy : Flat ys) : Flat (xs ++ ys) where
  settled := by rw [levelAfter_append, hx.settled, hy.settled]
  opened_before d h := by
    rw [hx.levels_append, List.mem_append] at h
    exact h.elim (hx.opened_before d) (hy.opened_before d)
  level_le_two d e h := by
    rw [hx.levels_append, List.mem_append] at h
    exact h.elim (hx.level_le_two d e) (hy.level_le_two d e)
  isLeaf d n h := by
    rw [hx.levels_append, List.mem_append] at h
    exact h.elim (hx.isLeaf d n) (hy.isLeaf d n)
  closed_at_once := by
    rw [hx.levels_append, List.isChain_append]
    refine ⟨hx.closed_at_once, hy.closed_at_once, fun x hlast y _ _ hopened => ?_⟩
    have hlevel := level_of_getLast?_levels hlast
    rw [hopened, hx.settled] at hlevel
    exact absurd hlevel (Nat.succ_ne_zero _)

theorem Flat.flatMap {β : Type*} {f : β → List (Event α)} (h : ∀ b, Flat (f b)) (bs : List β) :
    Flat (bs.flatMap f) := by
  induction bs with
  | nil => exact flat_nil
  | cons b bs ih => exact (h b).append ih

/-- A node may be freed in any state while no slot is open. -/
theorem flat_freed (n : Node α) : Flat [freed n] where
  settled := rfl
  opened_before d h := by cases List.mem_singleton.1 h
  level_le_two d e h := by
    obtain ⟨rfl, rfl⟩ := Prod.mk.inj (List.mem_singleton.1 h)
    exact Nat.zero_le 2
  isLeaf d m h hd := by
    obtain ⟨rfl, -⟩ := Prod.mk.inj (List.mem_singleton.1 h)
    exact absurd hd (Nat.lt_irrefl 0)
  closed_at_once := .singleton _

/-! ## Slots -/

theorem levels_ofLeaf (a : α) : levels 1 (ofLeaf a) =
    [(1, freed (.leaf a)), (1, opened), (2, closed), (1, opened), (2, closed)] := rfl

theorem levelAfter_flatMap_ofLeaf (as : List α) : levelAfter 1 (as.flatMap ofLeaf) = 1 := by
  induction as with
  | nil => rfl
  | cons a as ih =>
    rw [List.flatMap_cons, levelAfter_append]
    exact ih

theorem levels_flatMap_ofLeaf (as : List α) :
    levels 1 (as.flatMap ofLeaf) = as.flatMap fun a => levels 1 (ofLeaf a) := by
  induction as with
  | nil => rfl
  | cons a as ih =>
    rw [List.flatMap_cons, levels_append, List.flatMap_cons, ← ih]
    rfl

theorem levels_ofSlot (t : Tree α) : levels 0 (ofSlot t) =
    (0, opened) :: ((t.postorder.reverse.flatMap fun a => levels 1 (ofLeaf a)) ++ [(1, closed)]) := by
  show (0, opened) :: levels 1 (t.postorder.reverse.flatMap ofLeaf ++ [closed]) = _
  rw [levels_append, levelAfter_flatMap_ofLeaf, levels_flatMap_ofLeaf]
  rfl

/-- All that can happen while a slot is emptied: a leaf is freed, with one slot open, or one of its slots is opened and
closed. -/
theorem cases_of_mem_levels_ofSlot {t : Tree α} {x : Nat × Event α} (h : x ∈ levels 0 (ofSlot t)) :
    x = (0, opened) ∨ (∃ a, x = (1, freed (.leaf a))) ∨ x = (1, opened) ∨ x = (2, closed) ∨ x = (1, closed) := by
  rw [levels_ofSlot, List.mem_cons, List.mem_append, List.mem_flatMap, List.mem_singleton] at h
  rcases h with h | ⟨a, -, h⟩ | h
  · exact Or.inl h
  · rw [levels_ofLeaf] at h
    simp only [List.mem_cons, List.not_mem_nil, or_false] at h
    rcases h with h | h | h | h | h
    · exact Or.inr (Or.inl ⟨a, h⟩)
    · exact Or.inr (Or.inr (Or.inl h))
    · exact Or.inr (Or.inr (Or.inr (Or.inl h)))
    · exact Or.inr (Or.inr (Or.inl h))
    · exact Or.inr (Or.inr (Or.inr (Or.inl h)))
  · exact Or.inr (Or.inr (Or.inr (Or.inr h)))

/-- The slots of the leaves that are freed are closed at once. -/
theorem isChain_levels_leaves (as : List α) {R : Nat × Event α → Nat × Event α → Prop}
    (hfreed : ∀ a y, R (1, freed (.leaf a)) y) (hopened : R (1, opened) (2, closed)) (hclosed : ∀ y, R (2, closed) y) :
    ((as.flatMap fun a => levels 1 (ofLeaf a)) ++ [(1, closed)]).IsChain R := by
  induction as with
  | nil => exact .singleton _
  | cons a as ih =>
    rw [List.flatMap_cons, levels_ofLeaf]
    refine .cons_cons (hfreed a _) (.cons_cons hopened (.cons_cons (hclosed _) (.cons_cons hopened ?_)))
    exact List.isChain_cons.2 ⟨fun y _ => hclosed y, ih⟩

theorem flat_ofSlot (t : Tree α) : Flat (ofSlot t) where
  settled := by
    show levelAfter 1 (t.postorder.reverse.flatMap ofLeaf ++ [closed]) = 0
    rw [levelAfter_append, levelAfter_flatMap_ofLeaf]
    rfl
  opened_before d h := by
    rcases cases_of_mem_levels_ofSlot h with h | ⟨a, h⟩ | h | h | h
    · cases h
    · cases h
    · cases h
    · cases h
      exact Nat.two_pos
    · cases h
      exact Nat.one_pos
  level_le_two d e h := by
    rcases cases_of_mem_levels_ofSlot h with h | ⟨a, h⟩ | h | h | h <;> cases h <;> simp [level]
  isLeaf d n h _ := by
    rcases cases_of_mem_levels_ofSlot h with h | ⟨a, h⟩ | h | h | h <;> cases h
    exact ⟨rfl, rfl⟩
  closed_at_once := by
    rw [levels_ofSlot]
    refine List.isChain_cons.2 ⟨fun _ _ h => absurd h (Nat.lt_irrefl 0), isChain_levels_leaves _ ?_ ?_ ?_⟩
    · exact fun _ _ _ h => by cases h
    · exact fun _ _ => rfl
    · exact fun _ _ h => by cases h

end Event

/-! ## Releases -/

open Event

theorem Tree.flat_releaseSlot (t : Tree α) : Flat t.releaseSlot := t.releaseSlot_eq ▸ flat_ofSlot t

theorem Node.flat_release (n : Node α) : Flat n.release := by
  rw [n.release_eq]
  exact (flat_freed n).append (n.left.flat_releaseSlot.append n.right.flat_releaseSlot)

theorem Tree.flat_release (t : Tree α) : Flat t.release := by
  cases t with
  | empty => exact flat_nil
  | node value left right => exact Node.flat_release ⟨value, left, right⟩

theorem Owning.flat_release (w : Owning α) : Flat w.release := by
  rw [w.release_eq]
  exact Flat.flatMap Node.flat_release _

/-- The loop that empties a slot releases every node as a leaf. -/
theorem Tree.releaseSlot_leaves (t : Tree α) :
    t.releaseSlot = opened :: ((t.postorder.reverse.map Node.leaf).flatMap Node.release ++ [closed]) := by
  have hleaf : ∀ a : α, (Node.leaf a).release = ofLeaf a := fun a => toList_releaseInto_leaf a #[]
  rw [t.releaseSlot_eq, List.flatMap_map, List.flatMap_congr fun a _ => hleaf a]
  rfl

theorem Tree.releaseSlot_empty : (empty : Tree α).releaseSlot = [opened, closed] := releaseSlot_eq empty

/-- The slots that a call releases are empty. -/
theorem Owning.callAccount_eq_empty (w : Owning α) :
    w.callAccount = w.emptied?.toList.flatMap fun _ => Tree.empty.releaseSlot ++ Tree.empty.releaseSlot := by
  rw [w.callAccount_eq]
  obtain ⟨_ | ⟨n, stack⟩⟩ := w <;> rfl

theorem Owning.flat_callAccount (w : Owning α) : Flat w.callAccount := by
  rw [w.callAccount_eq_empty]
  exact Flat.flatMap (fun _ => Tree.empty.flat_releaseSlot.append Tree.empty.flat_releaseSlot) _

/-- **Releases do not nest with the depth of a tree.** Whatever is released, a node, a tree, or a walk that owns what
is left of one after any number of calls, at most two slots are open at any time, and a slot that is opened inside
another frees nothing. -/
theorem releases_flat (n : Node α) (t : Tree α) (k : Nat) :
    let w := Walk.after k (Owning.ofTree t)
    (Flat n.release ∧ Flat t.release ∧ Flat w.release) ∧
    (n.release = freed n :: (n.left.releaseSlot ++ n.right.releaseSlot) ∧
      t.releaseSlot = opened :: ((t.postorder.reverse.map Node.leaf).flatMap Node.release ++ [closed]) ∧
      (∀ a : α, (Node.leaf a).release = freed (.leaf a) :: (Tree.empty.releaseSlot ++ Tree.empty.releaseSlot)) ∧
      (Tree.empty : Tree α).releaseSlot = [opened, closed]) ∧
    (w.emptied?.all Node.isLeaf = true ∧ Flat w.callAccount ∧
      w.callAccount = w.emptied?.toList.flatMap fun _ => Tree.empty.releaseSlot ++ Tree.empty.releaseSlot) ∧
    Owning.ofNode n = Owning.ofTree n.toTree := by
  intro w
  refine ⟨⟨n.flat_release, t.flat_release, w.flat_release⟩, ⟨n.release_eq, t.releaseSlot_leaves, ?_, ?_⟩, ?_, rfl⟩
  · exact fun a => (Node.leaf a).release_eq
  · exact Tree.releaseSlot_empty
  · exact ⟨w.isLeaf_emptied?, w.flat_callAccount, w.callAccount_eq_empty⟩

end TreeWalk
