/-!
# Walks

A walk is a state that hands out one item after another until it ends. `Walk.next?` is one step of it,
and `Walk.work` is a number that every step lowers, so every walk ends.

* `Walk.call` : one call, after which a walk that has ended stays as it is;
* `Walk.after`, `Walk.calls` : the state after some calls, and what the calls handed out;
* `Walk.drain`, `Walk.foldl`, `Walk.toList`, `Walk.count`, `Walk.last?` : all that is still to come;
* `Walk.nth?`, `Walk.find?` : the first item after some others, the first with a property;
* `Walk.zipOnto` : the items of two walks in pairs;
* `Walk.load` : the measure of the walks that keep a stack.

A walk that is drained is left in the state in which it ended, from which nothing comes any more.
-/

namespace TreeWalk

universe u v w

/-- A state `σ` that hands out items `β` one after another until it ends. -/
class Walk (σ : Type u) (β : outParam (Type v)) where
  /-- The next item and the state after it, or nothing at the end. -/
  next? : σ → Option (β × σ)
  work : σ → Nat
  work_lt : ∀ {s s' : σ} {b : β}, next? s = some (b, s') → work s' < work s

namespace Walk

/-- The weights of the entries of a stack taken together. -/
def load {δ : Type u} (weight : δ → Nat) : List δ → Nat
  | [] => 0
  | d :: stack => weight d + load weight stack

@[simp] theorem load_nil {δ : Type u} (weight : δ → Nat) : load weight [] = 0 := rfl

@[simp] theorem load_cons {δ : Type u} (weight : δ → Nat) (d : δ) (stack : List δ) :
    load weight (d :: stack) = weight d + load weight stack := rfl

@[simp] theorem load_append {δ : Type u} (weight : δ → Nat) (upper lower : List δ) :
    load weight (upper ++ lower) = load weight upper + load weight lower := by
  induction upper with
  | nil => simp
  | cons d upper ih => simp [ih, Nat.add_assoc]

variable {σ : Type u} {β : Type v} [Walk σ β] {γ : Type w}

/-- One call. At the end it answers nothing and the state stays as it is. -/
def call (s : σ) : Option β × σ :=
  match next? s with
  | none => (none, s)
  | some (b, s') => (some b, s')

def after : Nat → σ → σ
  | 0, s => s
  | n + 1, s => after n (call s).2

/-- Appends the answers of `n` calls to those already given. -/
def callsOnto (answers : Array (Option β)) : Nat → σ → Array (Option β) × σ
  | 0, s => (answers, s)
  | n + 1, s => callsOnto (answers.push (call s).1) n (call s).2

def calls (n : Nat) (s : σ) : List (Option β) × σ :=
  let (answers, s) := callsOnto #[] n s
  (answers.toList, s)

/-- Folds all items still to come, the first one first, and gives the state at the end. -/
@[specialize] def drain (f : γ → β → γ) (c : γ) (s : σ) : γ × σ :=
  match _h : next? s with
  | none => (c, s)
  | some (b, s') => drain f (f c b) s'
termination_by work s
decreasing_by exact work_lt ‹_›

theorem drain_of_none {s : σ} (f : γ → β → γ) (c : γ) (h : next? s = none) :
    drain f c s = (c, s) := by
  rw [drain]
  split
  · rfl
  · next h' => rw [h] at h'; cases h'

theorem drain_of_some {s s' : σ} {b : β} (f : γ → β → γ) (c : γ) (h : next? s = some (b, s')) :
    drain f c s = drain f (f c b) s' := by
  rw [drain]
  split
  · next h' => rw [h] at h'; cases h'
  · next h' =>
    rw [h] at h'
    cases h'
    rfl

/-- What holds at the start of a fold and is kept by every step of it holds at the end. -/
theorem drain_invariant {p : γ → Prop} {f : γ → β → γ} (step : ∀ c b, p c → p (f c b)) {c : γ}
    (start : p c) (s : σ) : p (drain f c s).1 := by
  fun_induction drain f c s with
  | case1 => exact start
  | case2 c s b s' _ ih => exact ih (step c b start)

/-- Folds all items still to come, the first one first. -/
@[inline] def foldl (f : γ → β → γ) (c : γ) (s : σ) : γ := (drain f c s).1

@[inline] def finish (s : σ) : σ := (drain (fun _ _ => ()) () s).2

def toList (s : σ) : List β := (foldl Array.push #[] s).toList

def count (s : σ) : Nat := foldl (fun n _ => n + 1) 0 s

def last? (s : σ) : Option β := foldl (fun _ b => some b) none s

/-- The first item after `n` others, which are passed over. -/
def nth? : Nat → σ → Option β × σ
  | 0, s => call s
  | n + 1, s => match next? s with
    | none => (none, s)
    | some (_, s') => nth? n s'

/-- The first item with the property `p`; it and those before it are passed. -/
def find? (p : β → Bool) (s : σ) : Option β × σ :=
  match _h : next? s with
  | none => (none, s)
  | some (b, s') => if p b then (some b, s') else find? p s'
termination_by work s
decreasing_by exact work_lt ‹_›

/-- Calls two walks in turn until one of them ends. When the second one ends, an item of the first has been
handed out already, and it is lost. -/
def zipOnto {τ : Type u} {δ : Type v} [Walk τ δ] (pairs : Array (β × δ)) (s : σ) (t : τ) :
    Array (β × δ) × σ × τ :=
  match _h : next? s with
  | none => (pairs, s, t)
  | some (b, s') => match next? t with
    | none => (pairs, s', t)
    | some (d, t') => zipOnto (pairs.push (b, d)) s' t'
termination_by work s
decreasing_by exact work_lt ‹_›

end Walk

end TreeWalk
