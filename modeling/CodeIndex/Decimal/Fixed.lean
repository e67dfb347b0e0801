import CodeIndex.Decimal.Shortest

/-!
Decimals with a fixed number of places. A half goes to the even neighbour.
-/
namespace CodeIndex.Decimal

/-- The nearest whole number to a ratio; of two that are equally near, the even one. -/
def roundRatio (num den : Nat) : Nat :=
  let down := num / den
  let rest := num % den
  if den < 2 * rest || (2 * rest = den && down % 2 = 1) then down + 1 else down

/-- A ratio with a fixed number of places. -/
def fixedRatio (places num den : Nat) : String :=
  let n := roundRatio (num * Nat.pow 10 places) den
  let fraction := toString (n % Nat.pow 10 places)
  let zeros := String.ofList (List.replicate (places - fraction.length) '0')
  toString (n / Nat.pow 10 places) ++ (if places = 0 then "" else "." ++ zeros ++ fraction)

/-- A finite number with a fixed number of places. -/
def fixed (places : Nat) (x : Float) : String :=
  let b := Binary.ofBits x.toBits
  let (num, den) := b.quarters (4 * b.mantissa)
  (if x.toBits.toNat < 1 <<< 63 then "" else "-") ++ fixedRatio places num den

end CodeIndex.Decimal
