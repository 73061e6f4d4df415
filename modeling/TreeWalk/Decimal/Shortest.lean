/-!
# The shortest decimal of a binary number

A binary floating-point number stands for all reals that round to it: an interval around it that reaches
half way to its neighbours. `Decimal.shortest` finds the decimal in that interval with the fewest digits,
and of those the one nearest to the number. It tries decimal grids from a coarse one to finer ones. On a
grid only the two neighbours of the number can be the nearest points inside the interval, so only they are
looked at, and the first grid with a hit has the fewest digits. All comparisons are between naturals, in
quarters of the number's last binary place.

* `Decimal` : a number of the form `digits * 10 ^ exponent`;
* `Binary` : a number of the form `significand * 2 ^ exponent`, and whether the neighbour below it is only
  half as far away as the one above;
* `Binary.ofFloat?`, `Decimal.shortest` : from a float to its decimal.
-/

namespace TreeWalk

/-- The number `digits * 10 ^ exponent`. -/
structure Decimal where
  digits : Nat
  exponent : Int
  deriving DecidableEq

/-- The number `significand * 2 ^ exponent`. -/
structure Binary where
  significand : Nat
  exponent : Int
  /-- Whether the neighbour below is half as far away as the one above. -/
  closeBelow : Bool

namespace Binary

def ofFloat? (x : Float) : Option Binary :=
  let scale := ((x.toBits >>> 52) &&& 0x7ff).toNat
  let fraction := (x.toBits &&& 0xfffffffffffff).toNat
  if scale = 0x7ff then none
  else if scale = 0 then some ⟨fraction, -1074, false⟩
  else some ⟨0x10000000000000 + fraction, (scale : Int) - 1075, fraction = 0 && 1 < scale⟩

/-- The quarters of the last place between the number and the lower end of its interval. -/
def below (b : Binary) : Nat := if b.closeBelow then 1 else 2

/-- A power of ten that is above the number. -/
def topExponent (b : Binary) : Int :=
  (b.exponent + (Nat.log2 b.significand : Int) + 1) * 30103 / 100000 + 1

end Binary

namespace Decimal

/-- The point of the grid with steps of `10 ^ k` that rounds to `b` and is nearest to it, if one rounds to it.
Of two that are equally near it is the upper one. -/
def onGrid? (b : Binary) (k : Int) : Option Nat :=
  let unit := Nat.pow 2 (b.exponent - 2).toNat * Nat.pow 10 (-k).toNat
  let step := Nat.pow 2 (2 - b.exponent).toNat * Nat.pow 10 k.toNat
  let value := 4 * b.significand * unit
  let low := (4 * b.significand - b.below) * unit
  let high := (4 * b.significand + 2) * unit
  let inside (point : Nat) : Bool :=
    if b.significand % 2 = 0 then low ≤ point && point ≤ high else low < point && point < high
  let floor := value / step
  match inside (floor * step), inside ((floor + 1) * step) with
  | true, true => some (if value - floor * step < (floor + 1) * step - value then floor else floor + 1)
  | true, false => some floor
  | false, true => some (floor + 1)
  | false, false => none

/-- The first hit on the grids from steps of `10 ^ k` on down; after the last grid, the whole number itself. -/
def search (b : Binary) (k : Int) : Nat → Decimal
  | 0 => ⟨b.significand, 0⟩
  | fuel + 1 => match onGrid? b k with
    | some digits => ⟨digits, k⟩
    | none => search b (k - 1) fuel

/-- The decimal with the fewest digits that rounds to the number. Zero has the digit zero. A number of
53 binary digits has been hit on a grid of 17 decimal digits at the latest, so 20 grids are enough. -/
def shortest (b : Binary) : Decimal :=
  if b.significand = 0 then ⟨0, 0⟩ else search b b.topExponent 20

def digitChars (d : Decimal) : List Char := Nat.toDigits 10 d.digits

/-- The place of the point, counted from before the first digit. -/
def point (d : Decimal) : Int := d.digitChars.length + d.exponent

/-- The digits with a point, and at least one digit on each side of it. -/
def positional (d : Decimal) : List Char :=
  let digits := d.digitChars
  let padded := List.replicate (1 - d.point).toNat '0' ++ digits ++ List.replicate d.exponent.toNat '0'
  let whole := (max d.point 1).toNat
  let fraction := padded.drop whole
  padded.take whole ++ '.' :: (if fraction.isEmpty then ['0'] else fraction)

/-- The first digit, the others after a point if there are any, and the exponent. -/
def scientific (d : Decimal) : List Char :=
  let exponent := (toString (d.point - 1)).toList
  match d.digitChars with
  | [] => 'e' :: exponent
  | [digit] => digit :: 'e' :: exponent
  | digit :: rest => digit :: '.' :: rest ++ 'e' :: exponent

/-- Positional from `10 ^ -4` on and below `10 ^ 16`, and with an exponent outside that range. -/
def chars (d : Decimal) : List Char :=
  if d.digits = 0 || (-3 ≤ d.point && d.point ≤ 16) then d.positional else d.scientific

end Decimal

def floatText (x : Float) : String :=
  if x.isNaN then "NaN"
  else
    let sign := if x.toBits >>> 63 = 1 then "-" else ""
    match Binary.ofFloat? x with
    | none => sign ++ "inf"
    | some b => sign ++ String.ofList (Decimal.shortest b).chars

end TreeWalk
