/-!
# Reading a float

The text of a float has an optional sign and then either the name of a special value, in upper or lower
case, or decimal digits with at most one point among them or at their ends, and an optional exponent. There
is at least one digit. Nothing else is allowed, blanks included. The value is the float nearest to the
number that is written.
-/

namespace TreeWalk.FloatText

/-- An optional sign: whether it is a minus, and what follows. -/
def readSign : List Char → Bool × List Char
  | '-' :: rest => (true, rest)
  | '+' :: rest => (false, rest)
  | cs => (false, cs)

def digitsValue (cs : List Char) : Nat := cs.foldl (fun n c => 10 * n + (c.toNat - '0'.toNat)) 0

/-- The exponent: nothing, or a letter with an optional sign and at least one digit after it. -/
def readExponent? : List Char → Option Int
  | [] => some 0
  | letter :: rest =>
      let (negative, digits) := readSign rest
      if (letter = 'e' || letter = 'E') && !digits.isEmpty && digits.all Char.isDigit then
        some (if negative then -(digitsValue digits : Int) else digitsValue digits)
      else none

/-- The float nearest to `digits * 10 ^ exponent`. Far from 1 it is infinite or zero, which is decided by the
count of digits, so that no large power is computed. -/
def nearest (digits : Nat) (exponent : Int) : Float :=
  let magnitude := (Nat.toDigits 10 digits).length + exponent
  if digits = 0 || magnitude < -400 then 0
  else if 400 < magnitude then 1 / 0
  else Float.ofScientific digits (exponent < 0) exponent.natAbs

/-- A float without a sign that is not a special value. -/
def readNumber? (cs : List Char) : Option Float :=
  let whole := cs.takeWhile Char.isDigit
  let rest := cs.dropWhile Char.isDigit
  let (fraction, rest) := match rest with
    | '.' :: rest => (rest.takeWhile Char.isDigit, rest.dropWhile Char.isDigit)
    | _ => ([], rest)
  if whole.isEmpty && fraction.isEmpty then none
  else (readExponent? rest).map fun exponent =>
    nearest (digitsValue (whole ++ fraction)) (exponent - fraction.length)

def readUnsigned? (cs : List Char) : Option Float :=
  let name := String.ofList (cs.map Char.toLower)
  if name = "nan" then some (0 / 0)
  else if name = "inf" || name = "infinity" then some (1 / 0)
  else readNumber? cs

/-- The float that a text stands for, if it is the text of one. -/
def read? (s : String) : Option Float :=
  let (negative, cs) := readSign s.toList
  (readUnsigned? cs).map fun x => if negative then -x else x

end TreeWalk.FloatText
