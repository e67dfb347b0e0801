/-!
Quoted text in messages: quotes, backslashes and characters that show no mark of their own are
escaped.
-/
namespace CodeIndex.Text.Visible

/-- Controls, format characters, separators other than the space, private use, and the combining
marks of Latin letters. -/
def hiddenRanges : List (Nat × Nat) :=
  [(0, 31), (127, 160), (173, 173), (768, 879), (1536, 1541), (1564, 1564), (1757, 1757),
    (1807, 1807), (2192, 2193), (2274, 2274), (5760, 5760), (6158, 6158), (8192, 8207),
    (8232, 8239), (8287, 8303), (12288, 12288), (57344, 63743), (65024, 65039), (65279, 65279),
    (65520, 65531), (69821, 69821), (69837, 69837), (78896, 78904), (113824, 113827),
    (119155, 119162), (917505, 917505), (917536, 917631), (917760, 917999), (983040, 1114111)]

def isHidden (c : Char) : Bool := hiddenRanges.any fun (a, b) => a ≤ c.toNat && c.toNat ≤ b

def escape (c : Char) : List Char :=
  if c == '\x00' then ['\\', '0']
  else if c == '\t' then ['\\', 't']
  else if c == '\r' then ['\\', 'r']
  else if c == '\n' then ['\\', 'n']
  else if c == '"' || c == '\\' then ['\\', c]
  else if isHidden c then ['\\', 'u', '\x7b'] ++ Nat.toDigits 16 c.toNat ++ ['\x7d']
  else [c]

def quoted (s : String) : String := String.ofList ('"' :: s.toList.flatMap escape ++ ['"'])

end CodeIndex.Text.Visible
