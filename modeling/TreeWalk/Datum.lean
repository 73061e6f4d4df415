import TreeWalk.Fault

/-!
# Requests and answers

Requests and answers are `Datum`s: nothing, truth values, integers, texts, lists, and records with named
fields. A number that is not an integer can stand in a request, where it is never what is wanted.

A request is read field by field. `Datum.field?` gives a field whatever it holds. A text field may be optional
(`Datum.text?`), have a default, or be required (`Datum.text`); an optional field that holds something else
counts as absent, and so does a number that is no natural of 64 bits (`Datum.nat?`).
-/

namespace TreeWalk

/-- What a request or an answer is made of. -/
inductive Datum where
  | null
  | bool (b : Bool)
  | int (n : Int)
  /-- A number that is not an integer. -/
  | fraction
  | text (s : String)
  | list (items : List Datum)
  | record (fields : List (String × Datum))
  deriving Inhabited

namespace Datum

/-- The content of a field, if the datum is a record with such a field. -/
def field? (d : Datum) (name : String) : Option Datum :=
  match d with
  | record fields => fields.lookup name
  | _ => none

/-- The content of a field, where an absent field counts as holding nothing. -/
def field (d : Datum) (name : String) : Datum := (d.field? name).getD null

def text? (d : Datum) (name : String) : Option String :=
  match d.field name with
  | text s => some s
  | _ => none

def requireText (d : Datum) (name : String) : Except Fault String :=
  match d.text? name with
  | some s => .ok s
  | none => .error (.missingText name)

/-- A field that holds a natural number of 64 bits, if it does. -/
def nat? (d : Datum) (name : String) : Option Nat :=
  match d.field name with
  | int n => if 0 ≤ n && n.toNat < UInt64.size then some n.toNat else none
  | _ => none

def isTrue (d : Datum) (name : String) : Bool :=
  match d.field name with
  | bool b => b
  | _ => false

def count (n : Nat) : Datum := int n

/-- What may be absent is given as itself or as nothing. -/
def option : Option Datum → Datum
  | none => null
  | some d => d

def fault (f : Fault) : Datum := record [("error", text f.kind), ("message", text f.message)]

end Datum

end TreeWalk
