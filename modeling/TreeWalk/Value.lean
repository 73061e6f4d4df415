import TreeWalk.Datum
import TreeWalk.Decimal.Read
import TreeWalk.Decimal.Shortest
import TreeWalk.Layout
import TreeWalk.Text.Quoted

/-!
# The values in a tree

A `Value` is an integer of 64 bits, a text, a truth value, a character, a float, a raw text, a list of values,
or an option on a value. Raw text is text that is shown without quotes.

* `Value.eq` : equality, which needs the same kind on both sides and for floats is that of arithmetic, so that
  a value which is no number differs from itself and the two zeros are equal;
* `Value.text` : the text of a value in a layout;
* `Value.read`, `Value.datum` : a value in a request, and in an answer.
-/

namespace TreeWalk

/-- What a node of a tree holds. -/
inductive Value where
  | int (n : Int64)
  | str (s : String)
  | bool (b : Bool)
  | char (c : Char)
  | float (x : Float)
  /-- Text that is shown without quotes. -/
  | raw (s : String)
  | list (items : List Value)
  | absent
  | present (v : Value)
  deriving Inhabited

namespace Value

mutual

/-- Equality of values of the same kind; values of different kinds are never equal. -/
def eq : Value → Value → Bool
  | int m, int n => m == n
  | str s, str t => s == t
  | bool a, bool b => a == b
  | char c, char d => c == d
  | float x, float y => x == y
  | raw s, raw t => s == t
  | list xs, list ys => eqAll xs ys
  | absent, absent => true
  | present v, present w => eq v w
  | _, _ => false

def eqAll : List Value → List Value → Bool
  | [], [] => true
  | v :: vs, w :: ws => eq v w && eqAll vs ws
  | _, _ => false

end

mutual

def text (layout : Layout) : Value → String
  | int n => toString n.toInt
  | str s => Text.quoted s
  | bool b => if b then "true" else "false"
  | char c => Text.quotedChar c
  | float x => floatText x
  | raw s => layout.lines s
  | list items => layout.list (textAll layout.inner items)
  | absent => layout.option none
  | present v => layout.option (some (text layout.inner v))

def textAll (layout : Layout) : List Value → List String
  | [] => []
  | v :: vs => text layout v :: textAll layout vs

end

def readInt? : Datum → Option Int64
  | .int n => if Int64.minValue.toInt ≤ n && n ≤ Int64.maxValue.toInt then some (Int64.ofInt n) else none
  | _ => none

mutual

/-- The value that a datum stands for. Besides integers, texts and truth values these are records with one
field, whose name says the kind of value. -/
def read? : Datum → Option Value
  | .int n => (readInt? (.int n)).map int
  | .text s => some (str s)
  | .bool b => some (bool b)
  | .record [(kind, content)] => readKind? kind content
  | _ => none

/-- A value of the kind that is named. -/
def readKind? (kind : String) : Datum → Option Value
  | .text s =>
      if kind = "char" then match s.toList with
        | [c] => some (char c)
        | _ => none
      else if kind = "float" then (FloatText.read? s).map float
      else if kind = "raw" then some (raw s)
      else if kind = "opt" then some (present (str s))
      else none
  | .list items => if kind = "list" then (readAll? items).map list else none
  | .null => if kind = "opt" then some absent else none
  | content => if kind = "opt" then (read? content).map present else none

def readAll? : List Datum → Option (List Value)
  | [] => some []
  | d :: ds => match read? d, readAll? ds with
    | some v, some vs => some (v :: vs)
    | _, _ => none

end

/-- The value that a datum stands for. -/
def read (d : Datum) : Except Fault Value :=
  match read? d with
  | some v => .ok v
  | none => .error .notAValue

mutual

/-- The datum that stands for a value. -/
def datum : Value → Datum
  | int n => .int n.toInt
  | str s => .text s
  | bool b => .bool b
  | char c => .record [("char", .text (String.singleton c))]
  | float x => .record [("float", .text (floatText x))]
  | raw s => .record [("raw", .text s)]
  | list items => .record [("list", .list (datumAll items))]
  | absent => .record [("opt", .null)]
  | present v => .record [("opt", datum v)]

def datumAll : List Value → List Datum
  | [] => []
  | v :: vs => datum v :: datumAll vs

end

end Value

end TreeWalk
