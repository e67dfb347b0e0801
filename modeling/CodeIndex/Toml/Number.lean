import CodeIndex.Toml.Quoted

/-!
Numbers and moments of TOML. Of a real number and of a moment only the form is checked, because no
setting holds one; a real number that is too large for 64 bits is refused.
-/
namespace CodeIndex.Toml.Number

def isDigit (c : Char) : Bool := '0' ≤ c && c ≤ '9'

/-- Digits with single underscores between them. -/
def digits (test : Char → Bool) : Bool → List Char → List Char × List Char
  | _, [] => ([], [])
  | started, c :: rest =>
    if test c then
      let (more, rest) := digits test true rest
      (c :: more, rest)
    else if c == '_' && started then
      match rest with
      | d :: _ =>
        if test d then digits test false rest else ([], c :: rest)
      | [] => ([], c :: rest)
    else ([], c :: rest)

def valueOf (radix : Nat) (ds : List Char) : Nat :=
  ds.foldl (fun n c => n * radix + (Quoted.hexValue? c).getD 0) 0

/-- A sign, if there is one. -/
def sign : List Char → Bool × List Char
  | '-' :: rest => (true, rest)
  | '+' :: rest => (false, rest)
  | cs => (false, cs)

/-- Decimal digits; a zero stands alone. -/
def decimalDigits : Reader (List Char)
  | '0' :: rest => some (['0'], rest)
  | cs =>
    match digits isDigit false cs with
    | ([], _) => none
    | found => some found

/-- Whether a number fits into 64 bits with a sign. -/
def fits (n : Int) : Bool := -0x8000000000000000 ≤ n && n ≤ 0x7fffffffffffffff

def readRadix (radix : Nat) (test : Char → Bool) (cs : List Char) : Option (Int × List Char) :=
  match digits test false cs with
  | ([], _) => none
  | (ds, rest) =>
    let n : Int := valueOf radix ds
    if fits n then some (n, rest) else none

def readInteger (cs : List Char) : Option (Int × List Char) :=
  match cs with
  | '0' :: 'x' :: rest => readRadix 16 (fun c => (Quoted.hexValue? c).isSome) rest
  | '0' :: 'o' :: rest => readRadix 8 (fun c => '0' ≤ c && c ≤ '7') rest
  | '0' :: 'b' :: rest => readRadix 2 (fun c => c == '0' || c == '1') rest
  | _ => do
    let (negative, body) := sign cs
    let (ds, rest) ← decimalDigits body
    let n : Int := valueOf 10 ds
    let n := if negative then -n else n
    if fits n then return (n, rest) else none

/-- The smallest number that is rounded to infinity. -/
def overflow : Nat := (1 <<< 1024) - (1 <<< 970)

/-- Whether `m · 10 ^ e` is rounded to a finite number. -/
def isFinite (m : Nat) (e : Int) : Bool :=
  let places : Int := (Nat.toDigits 10 m).length + e
  if m = 0 || places < 300 then true
  else if places > 400 then false
  else if e ≥ 0 then m * Nat.pow 10 e.toNat < overflow
  else m < overflow * Nat.pow 10 (-e).toNat

/-- The part of a real number after the point. -/
def readFraction : Reader (List Char)
  | '.' :: rest =>
    match digits isDigit false rest with
    | ([], _) => none
    | found => some found
  | _ => none

def readExponent : Reader Int
  | c :: rest =>
    if c == 'e' || c == 'E' then
      let (negative, body) := sign rest
      match digits isDigit false body with
      | ([], _) => none
      | (ds, rest) =>
        let n : Int := valueOf 10 ds
        some (if negative then -n else n, rest)
    else none
  | [] => none

def readSpecial (cs : List Char) : Option (Unit × List Char) :=
  match (sign cs).2 with
  | 'i' :: 'n' :: 'f' :: rest => some ((), rest)
  | 'n' :: 'a' :: 'n' :: rest => some ((), rest)
  | _ => none

/-- A real number with a fraction, an exponent or both. -/
def readReal (cs : List Char) : Option (Unit × List Char) :=
  match readSpecial cs with
  | some found => some found
  | none => do
    let (negative, body) := sign cs
    let (whole, rest) ← decimalDigits body
    let (fraction, afterFraction) := (readFraction rest).getD ([], rest)
    let (exponent, afterExponent) := (readExponent afterFraction).getD (0, afterFraction)
    if afterExponent.length = rest.length then none
    else if negative || isFinite (valueOf 10 (whole ++ fraction)) (exponent - fraction.length) then
      return ((), afterExponent)
    else none

/-- A fixed number of digits. -/
def readFixed (count : Nat) (cs : List Char) : Option (Nat × List Char) :=
  let ds := cs.take count
  if ds.length = count && ds.all isDigit then some (valueOf 10 ds, cs.drop count) else none

def expect (c : Char) : List Char → Option (List Char)
  | d :: rest => if c = d then some rest else none
  | [] => none

def daysIn (year month : Nat) : Nat :=
  if month = 2 then
    if year % 4 = 0 && (year % 100 != 0 || year % 400 = 0) then 29 else 28
  else if month = 4 || month = 6 || month = 9 || month = 11 then 30
  else 31

def readDate (cs : List Char) : Option (List Char) := do
  let (year, cs) ← readFixed 4 cs
  let (month, cs) ← readFixed 2 (← expect '-' cs)
  let (day, cs) ← readFixed 2 (← expect '-' cs)
  if 1 ≤ month && month ≤ 12 && 1 ≤ day && day ≤ daysIn year month then return cs else none

def readSecondFraction (cs : List Char) : List Char :=
  match cs with
  | '.' :: rest =>
    let after := rest.dropWhile isDigit
    if after.length < rest.length then after else cs
  | _ => cs

def readTime (cs : List Char) : Option (List Char) := do
  let (hour, cs) ← readFixed 2 cs
  let (minute, cs) ← readFixed 2 (← expect ':' cs)
  let (second, cs) ← readFixed 2 (← expect ':' cs)
  if hour ≤ 23 && minute ≤ 59 && second ≤ 60 then return readSecondFraction cs else none

/-- The offset of a moment from universal time. -/
def readOffset : List Char → Option (List Char)
  | 'Z' :: rest => some rest
  | 'z' :: rest => some rest
  | c :: rest =>
    if c == '+' || c == '-' then do
      let (hour, rest) ← readFixed 2 rest
      let (minute, rest) ← readFixed 2 (← expect ':' rest)
      if hour ≤ 23 && minute ≤ 59 then return rest else none
    else none
  | [] => none

/-- A date, a time, or a date with a time after it. -/
def readMoment (cs : List Char) : Option (Unit × List Char) :=
  match readDate cs with
  | some rest =>
    match rest with
    | c :: more =>
      if c == 'T' || c == 't' || c == ' ' then
        match readTime more with
        | some after => some ((), (readOffset after).getD after)
        | none => some ((), rest)
      else some ((), rest)
    | [] => some ((), rest)
  | none => (readTime cs).map fun rest => ((), rest)

end CodeIndex.Toml.Number
