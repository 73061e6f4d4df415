import Mathlib.Data.Nat.SuccPred
import Mathlib.Logic.Function.Iterate
import TreeWalk.Walk

/-!
# The items of a walk

`Walk.toList` holds what a walk still hands out, and all else that is asked of a walk is read off it:

* `Walk.toList_of_none`, `Walk.toList_of_some` : the items from the next step on;
* `Walk.foldl_eq`, `Walk.count_eq` : a fold over the walk is one over the items, and the items are counted so;
* `Walk.foldFirst` : the first steps of a fold, which are a fold over the first items (`Walk.foldFirst_fst`);
* `Walk.HandsOut`, `Walk.handsOut_toList` : one call after another gives the items of the list, and then nothing
  for ever;
* `Walk.calls_eq` : the answers of a number of calls;
* `Walk.toList_eq` : how the items of a walk are found. It is enough to say for every state what is still to come,
  and to look at one step.
-/

namespace TreeWalk.Walk

universe u v w

variable {σ : Type u} {β : Type v} [Walk σ β] {γ : Type w}

/-- What holds at the end of a walk, and before a step if it does after it, holds always. -/
theorem induct {p : σ → Prop} (ended : ∀ s, next? s = none → p s)
    (step : ∀ s b s', next? s = some (b, s') → p s' → p s) (s : σ) : p s := by
  cases h : next? s with
  | none => exact ended s h
  | some r =>
    obtain ⟨b, s'⟩ := r
    exact step s b s' h (induct ended step s')
termination_by work s
decreasing_by exact work_lt h

theorem toList_of_none {s : σ} (h : next? s = none) : toList s = [] := by
  unfold toList foldl
  rw [drain_of_none _ _ h]

/-- Items that are pushed go behind those already there. -/
theorem toList_foldl_push (xs : Array β) (s : σ) : (foldl Array.push xs s).toList = xs.toList ++ toList s := by
  induction s using induct generalizing xs with
  | ended s h => rw [toList_of_none h, foldl, drain_of_none _ _ h, List.append_nil]
  | step s b s' h ih =>
    have hfirst : toList s = [b] ++ toList s' := by
      unfold toList foldl
      rw [drain_of_some _ _ h]
      exact ih (Array.push #[] b)
    rw [foldl, drain_of_some _ _ h, hfirst, ← List.append_assoc, ← Array.toList_push]
    exact ih (xs.push b)

theorem toList_of_some {s s' : σ} {b : β} (h : next? s = some (b, s')) : toList s = b :: toList s' := by
  unfold toList foldl
  rw [drain_of_some _ _ h]
  exact toList_foldl_push (Array.push #[] b) s'

/-- **The items of a walk** are those of `g` if `g` is empty at the end and every step takes its item off the
front. -/
theorem toList_eq {g : σ → List β} (ended : ∀ s, next? s = none → g s = [])
    (step : ∀ s b s', next? s = some (b, s') → g s = b :: g s') (s : σ) : toList s = g s := by
  induction s using induct with
  | ended s h => rw [toList_of_none h, ended s h]
  | step s b s' h ih => rw [toList_of_some h, step s b s' h, ih]

theorem foldl_eq (f : γ → β → γ) (c : γ) (s : σ) : foldl f c s = (toList s).foldl f c := by
  induction s using induct generalizing c with
  | ended s h => rw [foldl, drain_of_none _ _ h, toList_of_none h, List.foldl_nil]
  | step s b s' h ih =>
    rw [foldl, drain_of_some _ _ h, toList_of_some h, List.foldl_cons]
    exact ih (f c b)

theorem count_eq (s : σ) : count s = (toList s).length := by
  calc
    count s = (toList s).foldl (fun n _ => n + 1) 0 := foldl_eq _ 0 s
    _ = Nat.succ^[(toList s).length] 0 := List.foldl_const Nat.succ 0 (toList s)
    _ = (toList s).length := by rw [Nat.succ_iterate, Nat.zero_add]

/-- The first `k` steps of a fold, with the walk after them. At the end of the walk nothing more is done. -/
def foldFirst (f : γ → β → γ) : Nat → γ → σ → γ × σ
  | 0, c, s => (c, s)
  | k + 1, c, s => match next? s with
    | none => (c, s)
    | some (b, s') => foldFirst f k (f c b) s'

theorem foldFirst_fst (f : γ → β → γ) (k : Nat) (c : γ) (s : σ) :
    (foldFirst f k c s).1 = ((toList s).take k).foldl f c := by
  induction k generalizing c s with
  | zero => rfl
  | succ k ih =>
    unfold foldFirst
    split
    · next h => rw [toList_of_none h, List.take_nil, List.foldl_nil]
    · next h => rw [ih, toList_of_some h, List.take_succ_cons, List.foldl_cons]

/-- From where the first steps of a fold have led, it goes on to its end. -/
theorem foldl_foldFirst (f : γ → β → γ) (k : Nat) (c : γ) (s : σ) :
    foldl f (foldFirst f k c s).1 (foldFirst f k c s).2 = foldl f c s := by
  induction k generalizing c s with
  | zero => rfl
  | succ k ih =>
    unfold foldFirst
    split
    · rfl
    · next h =>
      rw [ih]
      exact congrArg Prod.fst (drain_of_some f c h).symm

/-! ## Single calls -/

theorem call_fst (s : σ) : (call s).1 = (toList s).head? := by
  unfold call
  split
  · next h => rw [toList_of_none h, List.head?_nil]
  · next h => rw [toList_of_some h, List.head?_cons]

theorem toList_call (s : σ) : toList (call s).2 = (toList s).tail := by
  unfold call
  split
  · next h => rw [toList_of_none h, List.tail_nil]
  · next h => rw [toList_of_some h, List.tail_cons]

/-- The last call comes after the others. -/
theorem after_succ (n : Nat) (s : σ) : after (n + 1) s = (call (after n s)).2 := by
  induction n generalizing s with
  | zero => rfl
  | succ n ih => exact ih (call s).2

theorem toList_after (n : Nat) (s : σ) : toList (after n s) = (toList s).drop n := by
  induction n generalizing s with
  | zero => rfl
  | succ n ih => rw [after, ih, toList_call, List.drop_tail]

/-- The walk hands out the items of the list, one at each call, and after them nothing for ever. -/
def HandsOut (s : σ) (items : List β) : Prop := ∀ k, (call (after k s)).1 = items[k]?

theorem handsOut_toList (s : σ) : HandsOut s (toList s) := by
  intro k
  rw [call_fst, toList_after, List.head?_drop]

theorem handsOut_of_toList_eq {s : σ} {items : List β} (h : toList s = items) : HandsOut s items := by
  rw [← h]
  exact handsOut_toList s

theorem callsOnto_eq (answers : Array (Option β)) (n : Nat) (s : σ) :
    (callsOnto answers n s).1.toList =
      answers.toList ++ (((toList s).take n).map some ++ List.replicate (n - (toList s).length) none) ∧
    (callsOnto answers n s).2 = after n s := by
  induction n generalizing answers s with
  | zero =>
    refine ⟨?_, rfl⟩
    rw [List.take_zero, Nat.zero_sub]
    exact (List.append_nil _).symm
  | succ n ih =>
    obtain ⟨hanswers, hstate⟩ := ih (answers.push (call s).1) (call s).2
    refine ⟨?_, hstate⟩
    show (callsOnto (answers.push (call s).1) n (call s).2).1.toList = _
    rw [hanswers, Array.toList_push, toList_call, call_fst, List.append_assoc]
    cases toList s with
    | nil =>
      rw [List.tail_nil, List.take_nil, List.take_nil, List.length_nil, Nat.sub_zero, Nat.sub_zero,
        List.replicate_succ]
      rfl
    | cons b rest =>
      rw [List.tail_cons, List.take_succ_cons, List.length_cons, Nat.add_sub_add_right]
      rfl

/-- Calls answer the items of the walk as long as there are any. -/
theorem calls_eq (n : Nat) (s : σ) :
    calls n s =
      (((toList s).take n).map some ++ List.replicate (n - (toList s).length) none, after n s) := by
  obtain ⟨hanswers, hstate⟩ := callsOnto_eq #[] n s
  exact Prod.ext hanswers hstate

end TreeWalk.Walk
