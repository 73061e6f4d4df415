import TreeWalk.Datum

/-!
# Steps that act on a state

A request can consist of steps that are run one after another on a state. A step is an `Action`: it reads its
fields, may change the state and gives an answer, or fails with a fault. What it did to the state before it
failed stays done. Every step is answered, one that fails by the report of its fault, and the steps after it
run all the same (`Action.answers`).
-/

namespace TreeWalk

/-- What a step does: it changes the state `σ` and gives something, or fails. -/
abbrev Action (σ β : Type) := ExceptT Fault (StateM σ) β

namespace Action

variable {σ : Type}

def text (step : Datum) (field : String) : Action σ String := step.requireText field

/-- The answer of a step that only does something. -/
def done : Datum := .text "ok"

/-- Runs a step and appends its answer to those already given. -/
def answerOnto (perform : Datum → Action σ Datum) (progress : Array Datum × σ) (step : Datum) :
    Array Datum × σ :=
  let (result, s) := (perform step).run progress.2
  let answer := match result with
    | .ok answer => answer
    | .error f => .fault f
  (progress.1.push answer, s)

/-- The answers of the steps, which are run one after another from the state `s` on. -/
def answers (perform : Datum → Action σ Datum) (s : σ) (steps : List Datum) : List Datum :=
  (steps.foldl (answerOnto perform) (#[], s)).1.toList

end Action

end TreeWalk
