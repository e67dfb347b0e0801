/-!
The shortest decimal form of a binary floating-point number: the fewest digits that read back as
the same number and, among those, the nearest to it. Numbers from 0.0001 up to 10^16 are written in
full with a full stop, all others with an exponent of at least two digits and a sign.
-/
namespace CodeIndex.Decimal

/-- A finite positive number `mantissa * 2 ^ exponent`. -/
structure Binary where
  mantissa : Nat
  exponent : Int
  deriving DecidableEq, Repr

namespace Binary

/-- The number behind the bits of a finite double, without its sign. -/
def ofBits (bits : UInt64) : Binary :=
  let fraction : Nat := bits.toNat % (1 <<< 52)
  let biased : Nat := bits.toNat / (1 <<< 52) % (1 <<< 11)
  if biased = 0 then ⟨fraction, -1074⟩ else ⟨fraction + (1 <<< 52), (biased : Int) - 1075⟩

/-- Four times the number and twice its distance to the next smaller and next larger doubles, all
over one power of two. -/
def low (b : Binary) : Nat :=
  if b.mantissa = 1 <<< 52 && b.exponent > -1074 then 4 * b.mantissa - 1 else 4 * b.mantissa - 2

def high (b : Binary) : Nat := 4 * b.mantissa + 2

/-- Numerator and denominator of a number of quarters of the last place. -/
def quarters (b : Binary) (n : Nat) : Nat × Nat :=
  let e := b.exponent - 2
  if e < 0 then (n, 1 <<< e.natAbs) else (n <<< e.natAbs, 1)

/-- Whether the decimal `digits * 10 ^ scale` reads back as the number. -/
def readsBack (b : Binary) (digits : Nat) (scale : Int) : Bool :=
  let power := Nat.pow 10 scale.natAbs
  let value : Nat × Nat := if scale < 0 then (digits, power) else (digits * power, 1)
  let (lowNum, den) := b.quarters b.low
  let (highNum, _) := b.quarters b.high
  let l := lowNum * value.2
  let h := highNum * value.2
  let v := value.1 * den
  if b.mantissa % 2 = 0 then l ≤ v && v ≤ h else l < v && v < h

/-- The number divided by a power of ten, rounded down, and the remainder with its divisor. -/
def quotient (b : Binary) (scale : Int) : Nat × Nat × Nat :=
  let (num, den) := b.quarters (4 * b.mantissa)
  let power := Nat.pow 10 scale.natAbs
  let (n, d) := if scale < 0 then (num * power, den) else (num, den * power)
  (n / d, n % d, d)

end Binary

/-- The digits at one scale that read back, the nearer neighbour first. -/
def digitsAt? (b : Binary) (scale : Int) : Option Nat :=
  let (down, rest, divisor) := b.quotient scale
  let near := if 2 * rest < divisor || (2 * rest = divisor && down % 2 = 0) then
    [down, down + 1] else [down + 1, down]
  near.find? fun d => d != 0 && b.readsBack d scale

/-- The largest scale at or below a given one whose digits read back; the number bounds the
search. -/
def search (b : Binary) : Nat → Int → Nat × Int
  | 0, scale => ((b.quotient scale).1, scale)
  | n + 1, scale =>
    match digitsAt? b scale with
    | some d => (d, scale)
    | none => search b n (scale - 1)

/-- The number of decimal digits before the units. -/
def magnitude (b : Binary) : Int :=
  let (num, den) := b.quarters (4 * b.mantissa)
  if num / den > 0 then ((toString (num / den)).length : Int)
  else -((toString (den / num)).length : Int) + 1

/-- Drops the zeros at the end of a number, which the bound outnumbers. -/
def dropZeros : Nat → Nat → Int → Nat × Int
  | 0, d, s => (d, s)
  | n + 1, d, s => if d != 0 && d % 10 = 0 then dropZeros n (d / 10) (s + 1) else (d, s)

/-- Digits and scale of the shortest decimal. -/
def shortest (b : Binary) : Nat × Int :=
  let (d, s) := search b 20 (magnitude b + 1)
  dropZeros 20 d s

def twoDigits (n : Nat) : String := if n < 10 then "0" ++ toString n else toString n

/-- The written form of digits and a scale. -/
def layout (digits : Nat) (scale : Int) : String :=
  let ds := (toString digits).toList
  let point : Int := ds.length + scale
  if -4 < point && point ≤ 16 then
    if scale ≥ 0 then String.ofList (ds ++ List.replicate scale.natAbs '0') ++ ".0"
    else if point > 0 then
      String.ofList (ds.take point.natAbs) ++ "." ++ String.ofList (ds.drop point.natAbs)
    else "0." ++ String.ofList (List.replicate point.natAbs '0' ++ ds)
  else
    let e := point - 1
    let head := String.ofList (ds.take 1)
    let tail := if ds.length > 1 then "." ++ String.ofList (ds.drop 1) else ""
    head ++ tail ++ (if e < 0 then "e-" else "e+") ++ twoDigits e.natAbs

/-- The text of a finite double. -/
def text (x : Float) : String :=
  let bits := x.toBits
  let sign := if bits.toNat ≥ 1 <<< 63 then "-" else ""
  let b := Binary.ofBits bits
  if b.mantissa = 0 then sign ++ "0.0"
  else
    let (d, s) := shortest b
    sign ++ layout d s

end CodeIndex.Decimal
