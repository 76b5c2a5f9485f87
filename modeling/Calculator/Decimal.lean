set_option autoImplicit false

namespace Calculator

namespace Decimal

/-- The number that a run of digits spells, behind the digits that spell `front`. -/
def spelledFrom (front : Nat) (cs : List Char) : Nat :=
  cs.foldl (fun n c => 10 * n + (c.toNat - '0'.toNat)) front

/-- The number that a non-empty run of ASCII digits spells. Nothing else spells one. -/
def natural? (cs : List Char) : Option Nat :=
  if cs ≠ [] ∧ cs.all Char.isDigit then some (spelledFrom 0 cs) else none

theorem natural?_isSome_iff (cs : List Char) :
    (natural? cs).isSome ↔ cs ≠ [] ∧ cs.all Char.isDigit := by
  unfold natural?
  split <;> simp_all

/-- The number of decimal digits of `n`, which is none for zero. -/
def size (n : Nat) : Nat :=
  if n = 0 then 0 else size (n / 10) + 1
termination_by n
decreasing_by omega

/-- The nearest double to `m` times ten to the power `place`. What is surely too large or too small
for a double is decided by its number of digits, so that the work does not grow with the place. -/
def nearestDouble (m : Nat) (place : Int) : Float :=
  if m = 0 ∨ size m + place < -330 then 0
  else if 310 < size m + place then 1 / 0
  else if place < 0 then Float.ofScientific m true (-place).toNat
  else Float.ofScientific m false place.toNat

/-- A numeral without its sign: the digits on either side of the point, and the power of ten. -/
structure Numeral where
  whole : List Char
  fraction : List Char
  power : Int

namespace Numeral

def integer? : List Char → Option Int
  | '-' :: cs => (natural? cs).map fun n : Nat => -(n : Int)
  | '+' :: cs => (natural? cs).map Int.ofNat
  | cs => (natural? cs).map Int.ofNat

def power? : List Char → Option Int
  | [] => some 0
  | 'e' :: cs => integer? cs
  | 'E' :: cs => integer? cs
  | _ => none

def behindPoint : List Char → List Char × List Char
  | '.' :: cs => (cs.takeWhile Char.isDigit, cs.dropWhile Char.isDigit)
  | cs => ([], cs)

/-- The numeral that `cs` is, if it is the whole of one. -/
def ofChars? (cs : List Char) : Option Numeral :=
  let whole := cs.takeWhile Char.isDigit
  let (fraction, rest) := behindPoint (cs.dropWhile Char.isDigit)
  if whole = [] ∧ fraction = [] then none
  else (power? rest).map fun power => ⟨whole, fraction, power⟩

def value (n : Numeral) : Float :=
  nearestDouble (spelledFrom 0 (n.whole ++ n.fraction)) (n.power - n.fraction.length)

end Numeral

def unsigned? (cs : List Char) : Option Float :=
  let word := String.ofList (cs.map Char.toLower)
  if word = "inf" ∨ word = "infinity" then some (1 / 0)
  else if word = "nan" then some (0 / 0)
  else (Numeral.ofChars? cs).map Numeral.value

/-- The double that `s` spells: an optional sign, then a word for infinity or for what is not a number
in letters of either case, or digits on at least one side of an optional point, with an optional power
of ten. The value is the nearest double. -/
def read? (s : String) : Option Float :=
  match s.toList with
  | '-' :: cs => (unsigned? cs).map fun x => -x
  | '+' :: cs => unsigned? cs
  | cs => unsigned? cs

example : read? "-.5e+1" = some (-5) := by decide +kernel
example : read? "9007199254740993" = some 9007199254740992 := by decide +kernel
example : read? "1e-400" = some 0 := by decide +kernel
example : read? "+Infinity" = some (1 / 0) := by decide +kernel
example : (read? "1e").isNone ∧ (read? ".").isNone ∧ (read? "1_000").isNone := by decide +kernel

/-- A positive double `value / scale` and the reals that round to it. They lie between `low / scale`
and `high / scale`; the ends round to it as well if the interval is closed. A decimal is a natural
number `d` with the place of its last digit, and stands for `d` times ten to the power of the place. -/
structure Rounding where
  low : Nat
  value : Nat
  high : Nat
  scale : Nat
  closed : Bool

namespace Rounding

/-- A finite double other than zero, apart from its sign. Counted in quarters of the unit in the last
place, the interval ends two on either side, but only one below where a binade begins and the doubles
below lie twice as dense. Ties go to even significands, which makes their intervals closed. -/
def ofFloat (x : Float) : Rounding :=
  let fraction := (x.toBits &&& 0xFFFFFFFFFFFFF).toNat
  let binade := (x.toBits >>> 52 &&& 0x7FF).toNat
  let significand := if binade = 0 then fraction else 0x10000000000000 + fraction
  let quarter : Int := (max binade 1 : Nat) - 1077
  { low := (4 * significand - if fraction = 0 ∧ 1 < binade then 1 else 2) <<< quarter.toNat
    value := (4 * significand) <<< quarter.toNat
    high := (4 * significand + 2) <<< quarter.toNat
    scale := 1 <<< (-quarter).toNat
    closed := significand % 2 = 0 }

def contains (r : Rounding) (place : Int) (d : Nat) : Bool :=
  let point := d * Nat.pow 10 place.toNat * r.scale
  let low := r.low * Nat.pow 10 (-place).toNat
  let high := r.high * Nat.pow 10 (-place).toNat
  (low < point && point < high) || (r.closed && (point == low || point == high))

/-- The point of the grid at `place` just below the double, or at it. -/
def below (r : Rounding) (place : Int) : Nat :=
  r.value * Nat.pow 10 (-place).toNat / (r.scale * Nat.pow 10 place.toNat)

/-- The point of the grid at `place` nearest to the double. A tie goes up. -/
def nearest (r : Rounding) (place : Int) : Nat :=
  let unit := r.scale * Nat.pow 10 place.toNat
  let past := r.value * Nat.pow 10 (-place).toNat % unit
  if unit ≤ 2 * past then r.below place + 1 else r.below place

def hit? (r : Rounding) (place : Int) : Option Nat :=
  [r.nearest place, r.below place, r.below place + 1].find? (r.contains place)

/-- The first hit on the next `more` grids from `place` downward, else the nearest point of the grid
behind them, with its place. If any point of a grid rounds to the double, one of the double's two
neighbours on that grid does, so no others are tried. -/
def search (r : Rounding) : Nat → Int → Nat × Int
  | 0, place => (r.nearest place, place)
  | more + 1, place =>
    match r.hit? place with
    | some d => (d, place)
    | none => r.search more (place - 1)

/-- The place of the first digit in front of the point, or of the first that is not zero behind it. -/
def leadingPlace (r : Rounding) : Int :=
  if r.scale ≤ r.value then size (r.value / r.scale) - 1
  else -size ((r.scale - 1) / r.value)

/-- The shortest decimal that rounds to the double, and of those the nearest, with its place.
Seventeen digits suffice for every double, so the nearest decimal with seventeen is taken without a
test. -/
def shortest (r : Rounding) : Nat × Int := r.search 16 r.leadingPlace

end Rounding

structure Layout where
  /-- The text of what is not a number. -/
  nan : String
  /-- The text of infinity, behind its sign. -/
  infinity : String
  /-- The lowest place of a first digit that is written in full. -/
  lowest : Int
  /-- The highest place of a first digit that is written in full. -/
  highest : Int
  /-- What stands between the digits and the power of ten where it is not written in full. -/
  mark : String

namespace Layout

/-- Digits with the point in full view. The first digit stands at `place`, and at least one digit
stands on either side of the point. -/
def positional (digits : List Char) (place : Int) : String :=
  if place < 0 then
    "0." ++ String.ofList (List.replicate ((-place).toNat - 1) '0' ++ digits)
  else
    let whole := place.toNat + 1
    let fraction := digits.drop whole
    String.ofList ((digits.take whole).rightpad whole '0') ++ "." ++
      (if fraction = [] then "0" else String.ofList fraction)

/-- Digits with a power of ten. The first digit stands in front of the point, and there is no point
where there is no other digit. -/
def scientific (mark : String) (digits : List Char) (place : Int) : String :=
  String.ofList (digits.take 1) ++
    (if digits.length ≤ 1 then "" else "." ++ String.ofList (digits.drop 1)) ++
    mark ++ Int.repr place

/-- A decimal other than zero, without the zeros at its end. -/
def decimal (l : Layout) (d : Nat) (place : Int) : String :=
  let spelled := (Nat.repr d).toList
  let leading := place + (spelled.length - 1 : Nat)
  let digits := (spelled.reverse.dropWhile (· == '0')).reverse
  if l.lowest ≤ leading ∧ leading ≤ l.highest then positional digits leading
  else scientific l.mark digits leading

def magnitude (l : Layout) (x : Float) : String :=
  if x.isInf then l.infinity
  else if x == 0 then positional ['0'] 0
  else
    let (d, place) := (Rounding.ofFloat x).shortest
    l.decimal d place

/-- A double as text. A zero keeps its sign, what is not a number has none. -/
def write (l : Layout) (x : Float) : String :=
  if x.isNaN then l.nan
  else (if x.toBits >>> 63 = 1 then "-" else "") ++ l.magnitude x

end Layout

end Decimal

/-- Values from a ten thousandth up to, not including, ten to the sixteenth are written in full, all
others with a power of ten. -/
def valueLayout : Decimal.Layout where
  nan := "NaN"
  infinity := "inf"
  lowest := -4
  highest := 15
  mark := "e"

def valueText (x : Float) : String := valueLayout.write x

/-- Where writing in full ends, above and below. -/
example : valueLayout.decimal 9999999999999998 0 = "9999999999999998.0" := by decide +kernel
example : valueLayout.decimal 1 16 = "1e16" := by decide +kernel
example : valueLayout.decimal 1 (-4) = "0.0001" := by decide +kernel
example : valueLayout.decimal 99 (-6) = "9.9e-5" := by decide +kernel

/-- The smallest double, one that lies halfway between two decimals with seventeen digits, and a zero
with a sign. -/
example : valueText (Float.ofBits 1) = "5e-324" := by decide +kernel
example : valueText (Float.ofBits 0x3E60000000000000) = "2.9802322387695313e-8" := by decide +kernel
example : valueText (-0) = "-0.0" := by decide +kernel

end Calculator
