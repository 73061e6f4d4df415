import Mathlib.Data.Multiset.AddSub
import TreeWalk.Release
import TreeWalk.Proofs.Copy
import TreeWalk.Proofs.Walk.CellSteps
import TreeWalk.Proofs.Walk.Owning

/-!
# Runs of deeds on what is owned

An estate is all that is owned at some point of a run: nodes, trees, and walks that take a tree apart. Deeds make new
objects, move objects into others, copy them, and give them up. Besides the objects the estate keeps four ledgers of
values, to which a deed only adds.

* `Holding` : an object that is owned, with its values (`Holding.values`) and what its release frees
  (`Holding.release`);
* `Estate` : the objects, known by their numbers, the state of the copying of values, and the ledgers of the values
  that were received, copied, yielded and freed;
* `Estate.makeNode` and so on : the deeds, each of which may need objects that are not there;
* `Estate.makeNode_eq_some` and so on : what has been done when a deed has taken place;
* `Deed`, `Estate.perform`, `Estate.run` : the deeds as data, and a run of them.

The copying of values is left open, as it is in `Node.copy`.
-/

namespace TreeWalk

universe u

inductive Holding (α : Type u) where
  | node (n : Node α)
  | tree (t : Tree α)
  | owning (w : Owning α)

namespace Holding

variable {α : Type u}

/-- The values in the object; those of a walk are the ones in the subtrees on its stack. -/
def values : Holding α → List α
  | node n => n.toTree.preorder
  | tree t => t.preorder
  | owning w => w.values

def release : Holding α → List (Event α)
  | node n => n.release
  | tree t => t.release
  | owning w => w.release

/-- The node at the end of the path from the root of a node or tree. -/
def locate? (path : List Side) : Holding α → Option (Spot α)
  | node n => n.toTree.locate? path
  | tree t => t.locate? path
  | owning _ => none

/-- A node or tree with its values moved about by a walk over its cells. -/
def rearranged? (moves : List (CellMove α)) : Holding α → Option (Holding α)
  | node n => some (node (n.rearranged moves))
  | tree t => some (tree (t.rearranged moves))
  | owning _ => none

def takenApart? : Holding α → Option (Holding α)
  | node n => some (owning (.ofNode n))
  | tree t => some (owning (.ofTree t))
  | owning _ => none

end Holding

/-- What is owned at some point of a run, the state that the copying of values keeps, and the ledgers up to there: the
values that nodes were made of (`received`), that the copying of values gave (`copied`), that walks handed out
(`yielded`) and that releases freed (`freed`). -/
structure Estate (α σ : Type u) where
  /-- The objects, the oldest one first. An object that was given up leaves an empty entry, so that the others keep
  their numbers. -/
  holdings : List (Option (Holding α))
  copying : σ
  received : Multiset α
  copied : Multiset α
  yielded : Multiset α
  freed : Multiset α

/-- The finished copies that are released when the copy of the root has been taken off them. -/
def Node.leftOver {α β σ : Type u} (f : α → StateM σ β) (n : Node α) (st : σ) : List (Node β) := (n.built f st).1.tail

namespace Estate

variable {α σ : Type u}

def start (st : σ) : Estate α σ := ⟨[], st, 0, 0, 0, 0⟩

/-- The values of an entry, which may be empty. -/
def entryValues (entry : Option (Holding α)) : List α := entry.elim [] Holding.values

/-- The values of all objects, in nodes and trees and on the stacks of walks. -/
def live (e : Estate α σ) : Multiset α := ↑(e.holdings.flatMap entryValues)

/-! ## Steps of deeds -/

/-- The object with the number `i`, if it is there. -/
def look? (e : Estate α σ) (i : Nat) : Option (Holding α) := e.holdings[i]?.join

def exchange (e : Estate α σ) (i : Nat) (entry : Option (Holding α)) : Estate α σ :=
  { e with holdings := e.holdings.set i entry }

def put (e : Estate α σ) (held : Holding α) : Estate α σ := { e with holdings := e.holdings ++ [some held] }

def receive (e : Estate α σ) (a : α) : Estate α σ := { e with received := e.received + {a} }

def yield (e : Estate α σ) (as : List α) : Estate α σ := { e with yielded := e.yielded + as }

def free (e : Estate α σ) (account : List (Event α)) : Estate α σ :=
  { e with freed := e.freed + Event.values account }

/-- Values have been copied, with a record of the calls, and finished copies that are left over are released, the oldest
one first. -/
def finishCopying (e : Estate α σ) (progress : σ × List (α × α)) (leftOver : List (Node α)) : Estate α σ :=
  { e with copying := progress.1, copied := e.copied + progress.2.map Prod.snd }.free
    (leftOver.reverse.flatMap Node.release)

def takeNode? (e : Estate α σ) (i : Nat) : Option (Node α × Estate α σ) :=
  match e.look? i with
  | some (.node n) => some (n, e.exchange i none)
  | _ => none

/-- Moves a node out of the estate if a number is given. -/
def takeChild? (e : Estate α σ) : Option Nat → Option (Option (Node α) × Estate α σ)
  | none => some (none, e)
  | some i => (e.takeNode? i).map fun (n, e) => (some n, e)

/-! ## Deeds -/

/-- Makes a node of a value and of the nodes with the given numbers, the left one first. -/
def makeNode (e : Estate α σ) (a : α) (left right : Option Nat) : Option (Estate α σ) := do
  let (left?, e) ← e.takeChild? left
  let (right?, e) ← e.takeChild? right
  pure ((e.receive a).put (.node (.ofChildren a left? right?)))

def makeLeaf (e : Estate α σ) (a : α) : Estate α σ := (e.receive a).put (.node (.leaf a))

/-- Makes a tree of the node with the given number, or the empty tree if there is no number. -/
def makeTree (e : Estate α σ) (root : Option Nat) : Option (Estate α σ) := do
  let (root?, e) ← e.takeChild? root
  pure (e.put (.tree (root?.elim .empty Node.toTree)))

def copyTree (f : α → StateM σ α) (e : Estate α σ) (i : Nat) : Option (Estate α σ) :=
  match e.look? i with
  | some (.tree t) =>
      let (copy, progress) := t.copy (recording f) (e.copying, [])
      let leftOver := t.root?.elim [] fun n => n.leftOver (recording f) (e.copying, [])
      some ((e.finishCopying progress leftOver).put (.tree copy))
  | _ => none

/-- Copies the node at the end of a path in a node or tree. -/
def copyNode (f : α → StateM σ α) (e : Estate α σ) (i : Nat) (path : List Side) : Option (Estate α σ) := do
  let held ← e.look? i
  let s ← held.locate? path
  let (copy, progress) := s.node.copy (recording f) (e.copying, [])
  pure ((e.finishCopying progress (s.node.leftOver (recording f) (e.copying, []))).put (.node copy))

/-- Moves the values of a node or tree about by a walk over its cells. -/
def rearrange (e : Estate α σ) (i : Nat) (moves : List (CellMove α)) : Option (Estate α σ) := do
  let held ← e.look? i
  let held ← held.rearranged? moves
  pure (e.exchange i (some held))

def takeApart (e : Estate α σ) (i : Nat) : Option (Estate α σ) := do
  let held ← e.look? i
  let held ← held.takenApart?
  pure (e.exchange i (some held))

def callWalk (e : Estate α σ) (i : Nat) : Option (Estate α σ) :=
  match e.look? i with
  | some (.owning w) =>
      let (answer, w') := Walk.call w
      some (((e.exchange i (some (.owning w'))).yield answer.toList).free w.callAccount)
  | _ => none

def giveUp (e : Estate α σ) (i : Nat) : Option (Estate α σ) := do
  let held ← e.look? i
  pure ((e.exchange i none).free held.release)

/-! ## What a deed does -/

variable {e e' : Estate α σ} {f : α → StateM σ α} {i : Nat}

theorem takeNode?_eq_some {n : Node α} (h : e.takeNode? i = some (n, e')) :
    e.look? i = some (.node n) ∧ e' = e.exchange i none := by
  unfold takeNode? at h
  split at h
  · next m hlook =>
    obtain ⟨rfl, rfl⟩ := Prod.mk.inj (Option.some.inj h)
    exact ⟨hlook, rfl⟩
  · cases h

theorem makeNode_eq_some {a : α} {left right : Option Nat} (h : e.makeNode a left right = some e') :
    ∃ left? e₁ right? e₂, e.takeChild? left = some (left?, e₁) ∧ e₁.takeChild? right = some (right?, e₂) ∧
      e' = (e₂.receive a).put (.node (.ofChildren a left? right?)) := by
  obtain ⟨⟨left?, e₁⟩, hleft, h⟩ := Option.bind_eq_some_iff.1 h
  obtain ⟨⟨right?, e₂⟩, hright, h⟩ := Option.bind_eq_some_iff.1 h
  exact ⟨left?, e₁, right?, e₂, hleft, hright, (Option.some.inj h).symm⟩

theorem makeTree_eq_some {root : Option Nat} (h : e.makeTree root = some e') :
    ∃ root? e₁, e.takeChild? root = some (root?, e₁) ∧ e' = e₁.put (.tree (root?.elim .empty Node.toTree)) := by
  obtain ⟨⟨root?, e₁⟩, hroot, h⟩ := Option.bind_eq_some_iff.1 h
  exact ⟨root?, e₁, hroot, (Option.some.inj h).symm⟩

theorem copyTree_eq_some (h : e.copyTree f i = some e') :
    ∃ t, e.look? i = some (.tree t) ∧ e' = (e.finishCopying (t.copy (recording f) (e.copying, [])).2
      (t.root?.elim [] fun n => n.leftOver (recording f) (e.copying, []))).put
        (.tree (t.copy (recording f) (e.copying, [])).1) := by
  unfold copyTree at h
  split at h
  · next t hlook => exact ⟨t, hlook, (Option.some.inj h).symm⟩
  · cases h

theorem copyNode_eq_some {path : List Side} (h : e.copyNode f i path = some e') :
    ∃ held s, e.look? i = some held ∧ held.locate? path = some s ∧
      e' = (e.finishCopying (s.node.copy (recording f) (e.copying, [])).2
        (s.node.leftOver (recording f) (e.copying, []))).put (.node (s.node.copy (recording f) (e.copying, [])).1) := by
  obtain ⟨held, hlook, h⟩ := Option.bind_eq_some_iff.1 h
  obtain ⟨s, hs, h⟩ := Option.bind_eq_some_iff.1 h
  exact ⟨held, s, hlook, hs, (Option.some.inj h).symm⟩

theorem rearrange_eq_some {moves : List (CellMove α)} (h : e.rearrange i moves = some e') :
    ∃ held held', e.look? i = some held ∧ held.rearranged? moves = some held' ∧ e' = e.exchange i (some held') := by
  obtain ⟨held, hlook, h⟩ := Option.bind_eq_some_iff.1 h
  obtain ⟨held', hmoves, h⟩ := Option.bind_eq_some_iff.1 h
  exact ⟨held, held', hlook, hmoves, (Option.some.inj h).symm⟩

theorem takeApart_eq_some (h : e.takeApart i = some e') :
    ∃ held held', e.look? i = some held ∧ held.takenApart? = some held' ∧ e' = e.exchange i (some held') := by
  obtain ⟨held, hlook, h⟩ := Option.bind_eq_some_iff.1 h
  obtain ⟨held', hapart, h⟩ := Option.bind_eq_some_iff.1 h
  exact ⟨held, held', hlook, hapart, (Option.some.inj h).symm⟩

theorem callWalk_eq_some (h : e.callWalk i = some e') :
    ∃ w, e.look? i = some (.owning w) ∧ e' = ((e.exchange i (some (.owning (Walk.call w).2))).yield
      (Walk.call w).1.toList).free w.callAccount := by
  unfold callWalk at h
  split at h
  · next w hlook => exact ⟨w, hlook, (Option.some.inj h).symm⟩
  · cases h

theorem giveUp_eq_some (h : e.giveUp i = some e') :
    ∃ held, e.look? i = some held ∧ e' = (e.exchange i none).free held.release := by
  obtain ⟨held, hlook, h⟩ := Option.bind_eq_some_iff.1 h
  exact ⟨held, hlook, (Option.some.inj h).symm⟩

end Estate

/-- A deed, with the numbers of the objects that it needs. -/
inductive Deed (α : Type u) where
  | makeNode (a : α) (left right : Option Nat)
  | makeLeaf (a : α)
  | makeTree (root : Option Nat)
  | copyTree (i : Nat)
  | copyNode (i : Nat) (path : List Side)
  | rearrange (i : Nat) (moves : List (CellMove α))
  | takeApart (i : Nat)
  | callWalk (i : Nat)
  | giveUp (i : Nat)

namespace Estate

variable {α σ : Type u}

/-- The estate after a deed, if the objects that the deed needs are there. -/
def perform (f : α → StateM σ α) (e : Estate α σ) : Deed α → Option (Estate α σ)
  | .makeNode a left right => e.makeNode a left right
  | .makeLeaf a => some (e.makeLeaf a)
  | .makeTree root => e.makeTree root
  | .copyTree i => e.copyTree f i
  | .copyNode i path => e.copyNode f i path
  | .rearrange i moves => e.rearrange i moves
  | .takeApart i => e.takeApart i
  | .callWalk i => e.callWalk i
  | .giveUp i => e.giveUp i

/-- The estate after a run of deeds that starts with nothing. A deed that needs objects which are not there does not
take place. -/
def run (f : α → StateM σ α) (st : σ) (deeds : List (Deed α)) : Estate α σ :=
  deeds.foldl (fun e deed => (e.perform f deed).getD e) (start st)

end Estate

end TreeWalk
