import TreeWalk.Session
import TreeWalk.SideBySide
import TreeWalk.Survey

/-!
# The service

A request names what is wanted: a survey of one tree, a session over named slots, or several walks over one
tree. It is answered by one datum; a request that cannot be begun is answered by the report of its fault.
-/

namespace TreeWalk.Service

def steps (request : Datum) : Except Fault (List Datum) :=
  match request.field "steps" with
  | .list steps => .ok steps
  | _ => .error .missingSteps

/-- What a request is answered with, if it can be begun. -/
def answer? (request : Datum) : Except Fault Datum := do
  let op ← request.requireText "op"
  match op with
  | "all" => do
      let t ← Tree.read (request.field "tree")
      pure (Survey.ofTree t)
  | "session" => do
      let steps ← steps request
      pure (.list (Session.run steps))
  | "iters" => do
      let t ← Tree.read (request.field "tree")
      let steps ← steps request
      pure (.list (SideBySide.run t steps))
  | _ => throw (.unknownOp op)

def answer (request : Datum) : Datum :=
  match answer? request with
  | .ok d => d
  | .error f => .fault f

end TreeWalk.Service
