import TreeWalk.Value

/-!
# Edits of values

An `Edit` changes a value, which has an index among the values that are edited together. Arithmetic wraps
around at 64 bits. An edit that does not fit the kind of value changes nothing, and neither does one whose
argument is of the wrong kind.
-/

namespace TreeWalk

/-- A change of a value. An argument that is absent was not of the kind that the edit needs. -/
inductive Edit where
  | mul (k : Option Int64)
  | add (k : Option Int64)
  | append (s : Option String)
  | set (v : Value)
  /-- Replaces the value by an integer that its index is added to. -/
  | index (k : Option Int64)

namespace Edit

/-- The edit that a datum stands for: a record with one field, named for what is done. -/
def read : Datum → Except Fault Edit
  | .record [(name, content)] =>
      if name = "mul" then .ok (mul (Value.readInt? content))
      else if name = "add" then .ok (add (Value.readInt? content))
      else if name = "append" then .ok (append (match content with | .text s => some s | _ => none))
      else if name = "index" then .ok (index (Value.readInt? content))
      else if name = "set" then (Value.read content).map set
      else .error .unknownEdit
  | _ => .error .notAnEdit

/-- The value after the edit, where `i` is the index of the value. -/
def apply (i : Nat) : Edit → Value → Value
  | mul (some k), .int n => .int (n * k)
  | add (some k), .int n => .int (n + k)
  | append (some s), .str t => .str (t ++ s)
  | set v, _ => v
  | index (some k), _ => .int (k + Int64.ofNat i)
  | _, v => v

end Edit

end TreeWalk
