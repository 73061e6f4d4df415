import TreeWalk.Value

/-!
# Digests of long answers

A long sequence of values can be answered by its digest: how many values there are, the first and the last
one, and a number that depends on all integers among them and on their order. A long text can be answered by
its length, its start and its end.
-/

namespace TreeWalk.Digest

/-- The prime by which the number of a sequence is reduced. -/
def modulus : Nat := 1000000007

/-- The share of a value in the number of a sequence: integers count, all else is zero. -/
def residue : Value → Nat
  | .int n => (n.toInt % modulus).toNat
  | _ => 0

def hash (values : List Value) : Nat := values.foldl (fun h v => (h * 31 + residue v) % modulus) 0

def ofValues (values : List Value) : Datum :=
  .record [("count", .count values.length), ("first", .option (values.head?.map Value.datum)),
    ("last", .option (values.getLast?.map Value.datum)), ("hash", .count (hash values))]

/-- The length of the start and of the end that are shown of a text. -/
def shown : Nat := 80

def ofText (s : String) : Datum :=
  .record [("len", .count s.length), ("head", .text (s.take shown).copy), ("tail", .text (s.takeEnd shown).copy)]

/-- A sequence of values as an answer, as a whole or as a digest. -/
def sequence (digest : Bool) (values : List Value) : Datum :=
  if digest then ofValues values else .list (values.map Value.datum)

def text (digest : Bool) (s : String) : Datum := if digest then ofText s else .text s

end TreeWalk.Digest
