import CodeIndex.Json.Schema

/-!
Objects that say with one of their members which record they are. The other members are set aside
until that member is known, so what is wrong with them has no place in the text any more. Such a
record may also be written as a list that starts with the tag.
-/
namespace CodeIndex.Json

/-- Reads any value. The first number bounds the steps, the second one the depth. -/
def readScalar (c : Cursor) : Reading Value :=
  let after (r : Except Fault Cursor) (v : Value) : Reading Value :=
    match r with
    | .ok c => .ok (v, c)
    | .error f => .error f
  match c.peek with
  | none => .error (c.peekFault .endOfValue)
  | some 'n' => after (c.skip.word "ull".toList) .null
  | some 't' => after (c.skip.word "rue".toList) (.bool true)
  | some 'f' => after (c.skip.word "alse".toList) (.bool false)
  | some '-' => number c.skip false
  | some '"' =>
    match text c.skip with
    | .ok (s, c) => .ok (.text s, c)
    | .error f => .error f
  | some d => if d.isDigit then number c true else .error (c.peekFault .expectedValue)

mutual

def readAny : Nat → Nat → Cursor → Reading Value
  | 0, _, c => .error (c.fault .tooDeep)
  | n + 1, depth, c =>
    let c := c.skipSpace
    match c.peek, depth with
    | some '[', 0 => .error (c.peekFault .tooDeep)
    | some '\x7b', 0 => .error (c.peekFault .tooDeep)
    | some '[', d + 1 => readAnyItems n d true [] c.skip
    | some '\x7b', d + 1 => readAnyMembers n d true [] c.skip
    | _, _ => readScalar c

def readAnyItems : Nat → Nat → Bool → List Value → Cursor → Reading Value
  | 0, _, _, _, c => .error (c.fault .tooDeep)
  | n + 1, depth, first, read, c =>
    match nextItem first c with
    | .error f => .error f
    | .ok (false, c) => .ok (.list read.reverse, c.skip)
    | .ok (true, c) =>
      match readAny n depth c with
      | .error f => .error f
      | .ok (v, c) => readAnyItems n depth false (v :: read) c

def readAnyMembers : Nat → Nat → Bool → List (String × Value) → Cursor → Reading Value
  | 0, _, _, _, c => .error (c.fault .tooDeep)
  | n + 1, depth, first, read, c =>
    match nextKey first c with
    | .error f => .error f
    | .ok (none, c) => .ok (.object read.reverse, c.skip)
    | .ok (some k, c) =>
      match colon c with
      | .error f => .error f
      | .ok c =>
        match readAny n depth c with
        | .error f => .error f
        | .ok (v, c) => readAnyMembers n depth false ((k, v) :: read) c

end

/-- The fields that tagged records have. -/
inductive Scalar where
  | text
  | u32

/-- One kind of a tagged record. -/
structure Variant where
  tag : String
  /-- How messages name the record. -/
  title : String
  fields : List (String × Scalar)

/-- The kinds of a tagged record. -/
structure Tagged where
  name : String
  tagField : String
  variants : List Variant

namespace Tagged

/-- Checks a value that was set aside. -/
def check : Scalar → Value → Except Cause Value
  | .text, .text s => .ok (.text s)
  | .text, v => .error (.invalidType v "a string")
  | .u32, .int i =>
    if 0 ≤ i && i ≤ 0xffffffff then .ok (.int i) else .error (.invalidValue (.int i) "u32")
  | .u32, v => .error (.invalidType v "u32")

/-- Takes the known members in order, each at most once. -/
def takeMembers (fields : List (String × Scalar)) (read : List (String × Value)) :
    List (String × Value) → Except Cause (List (String × Value))
  | [] => .ok read
  | (k, v) :: rest =>
    match fields.find? fun f => f.1 == k with
    | none => takeMembers fields read rest
    | some (_, scalar) =>
      if read.any fun m => m.1 == k then .error (.duplicateField k)
      else
        match check scalar v with
        | .ok v => takeMembers fields ((k, v) :: read) rest
        | .error e => .error e

/-- The fields in order, or the first one that is missing. -/
def inOrder (read : List (String × Value)) :
    List (String × Scalar) → Except Cause (List (String × Value))
  | [] => .ok []
  | (name, _) :: rest =>
    match read.find? fun m => m.1 == name with
    | some m => (inOrder read rest).map (m :: ·)
    | none => .error (.missingField name)

def elements (n : Nat) : String := toString n ++ (if n = 1 then " element" else " elements")

/-- Takes the fields from a list, given how many fields there are in all. -/
def takeItems (title : String) (total k : Nat) :
    List (String × Scalar) → List Value → Except Cause (List (String × Value))
  | [], [] => .ok []
  | [], extra => .error (.invalidLength (k + extra.length) (elements k ++ " in sequence"))
  | _ :: _, [] => .error (.invalidLength k (title ++ " with " ++ elements total))
  | (name, scalar) :: fields, v :: vs =>
    match check scalar v with
    | .ok v => (takeItems title total (k + 1) fields vs).map ((name, v) :: ·)
    | .error e => .error e

/-- The fields of a variant from what was set aside. -/
def fieldsOf (variant : Variant) : Value → Except Cause (List (String × Value))
  | .list items => takeItems variant.title variant.fields.length 0 variant.fields items
  | .object members => (takeMembers variant.fields [] members).bind fun read =>
      inOrder read variant.fields
  | _ => .ok []

/-- Reads the tag. -/
def readTag (t : Tagged) (c : Cursor) : Reading Variant :=
  let c := c.skipSpace
  match c.peek with
  | none => .error (c.peekFault .endOfValue)
  | some '"' =>
    match Json.text c.skip with
    | .error f => .error f
    | .ok (s, c) =>
      match t.variants.find? fun v => v.tag == s with
      | some v => .ok (v, c)
      | none => .error (c.fault (.unknownVariant s (t.variants.map Variant.tag)))
  | some _ => .error (wrongType c "variant identifier")

/-- Reads the members, setting all but the tag aside. -/
def readMembers (t : Tagged) : Nat → Bool → Option Variant → List (String × Value) → Cursor →
    Reading (Variant × Value)
  | 0, _, _, _, c => .error (c.fault .tooDeep)
  | n + 1, first, tag, aside, c =>
    match nextKey first c with
    | .error f => .error f
    | .ok (none, c) =>
      match tag with
      | some v => .ok ((v, .object aside.reverse), c.skip)
      | none => .error ((closedObject c).fault (.missingField t.tagField))
    | .ok (some k, c) =>
      if k == t.tagField then
        if tag.isSome then .error ((closedObject c).fault (.duplicateField t.tagField))
        else
          match colon c with
          | .error f => .error f
          | .ok c =>
            match readTag t c with
            | .error f => .error f
            | .ok (v, c) => readMembers t n false (some v) aside c
      else
        match colon c with
        | .error f => .error f
        | .ok c =>
          match readAny (stepsFor c) (maxDepth - 1) c with
          | .error f => .error f
          | .ok (v, c) => readMembers t n false tag ((k, v) :: aside) c

/-- Reads the tag and what was set aside. -/
def read (t : Tagged) (c : Cursor) : Reading (Variant × Value) :=
  let c := c.skipSpace
  match c.peek with
  | none => .error (c.peekFault .endOfValue)
  | some '\x7b' => readMembers t (stepsFor c) true none [] c.skip
  | some '[' =>
    match nextItem true c.skip with
    | .error f => .error f
    | .ok (false, c) => .error ((closedList c).fault (.missingField t.tagField))
    | .ok (true, c) =>
      match readTag t c with
      | .error f => .error f
      | .ok (v, c) =>
        match readAnyItems (stepsFor c) (maxDepth - 1) false [] c with
        | .error f => .error f
        | .ok (content, c) => .ok ((v, content), c)
  | some _ => .error (wrongType c ("internally tagged enum " ++ t.name))

/-- Reads a whole text: the tag of the record and its fields in order. -/
def decode (t : Tagged) (s : String) : Except Fault (String × List (String × Value)) :=
  match read t (Cursor.start s) with
  | .error f => .error f
  | .ok ((variant, content), c) =>
    match fieldsOf variant content with
    | .error cause => .error ⟨cause, none⟩
    | .ok fields =>
      match finish c with
      | .ok () => .ok (variant.tag, fields)
      | .error f => .error f

end Tagged

end CodeIndex.Json
