import TreeWalk.Session.Build
import TreeWalk.Session.Change
import TreeWalk.Session.Inspect
import TreeWalk.Session.Ownership

/-!
# Sessions

A session runs steps one after another over slots, of which there are none at first.
-/

namespace TreeWalk.Session

def perform (step : Datum) : Step Datum := do
  let name ← Action.text step "do"
  match name with
  | "build" => build step
  | "node" => makeNode step
  | "to_tree" => toTree step
  | "len" => len step
  | "get" => getNode step
  | "set" => setValue step
  | "seq" => sequence step
  | "mutate" => mutate step
  | "clone" => copy step
  | "eq" => compare step
  | "debug" => debug step
  | "into_iter" => intoOwning step
  | "next" => nextOwned step
  | "rest" => restOwned step
  | "drop" => release step
  | "slots" => do pure (.list ((← get).names.map .text))
  | _ => throw (.unknownStep name)

def run (steps : List Datum) : List Datum := Action.answers perform Slots.empty steps

end TreeWalk.Session
