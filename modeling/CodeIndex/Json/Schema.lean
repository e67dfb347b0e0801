import CodeIndex.Json.Cursor

/-!
Reading a JSON text against a schema. The text is checked while it is read, so the first fault in
the order of the text is the one reported, be it of form or of type. A record may be written as an
object, whose unknown members are passed over, or as a list of its fields in order.
-/
namespace CodeIndex.Json

/-- What holds for a field that is not written. -/
inductive Absence where
  /-- It must be written. -/
  | fault
  /-- It is null in an object, but a list must hold it. -/
  | null
  | default (v : Value)

inductive Schema where
  | text
  | bool
  /-- An integer between two bounds, with the name of the range. -/
  | whole (low high : Int) (name : String)
  /-- One word out of a list. -/
  | choice (options : List String)
  | optional (s : Schema)
  | list (s : Schema)
  | dict (s : Schema)
  | record (name : String) (fields : List (String × Absence × Schema))

namespace Schema

def u32 : Schema := whole 0 0xffffffff "u32"

def u64 : Schema := whole 0 0xffffffffffffffff "u64"

def i64 : Schema := whole (-0x8000000000000000) 0x7fffffffffffffff "i64"

end Schema

/-- How deep lists and objects may stand inside each other. -/
def maxDepth : Nat := 127

/-- Passes over a string after its opening quote. -/
def passText : Nat → Cursor → Except Fault Cursor
  | 0, c => .error (c.fault .endOfText)
  | n + 1, c =>
    match c.rest with
    | [] => .error (c.fault .endOfText)
    | '"' :: _ => .ok c.skip
    | '\\' :: _ =>
      let c := c.skip
      match c.peek with
      | none => .error (c.fault .endOfText)
      | some 'u' =>
        match hexEscape c.skip with
        | .ok (_, c) => passText n c
        | .error f => .error f
      | some x =>
        if (simpleEscape? x).isSome then passText n c.skip
        else .error ((c.afterBytes 1).getD c |>.fault .invalidEscape)
    | x :: _ => if x.toNat < 32 then .error (c.fault .controlCharacter) else passText n c.skip

/-- Passes over an exponent from its letter on. -/
def passExponent (c : Cursor) : Except Fault Cursor :=
  let c := c.skip
  let c := if c.peek == some '+' || c.peek == some '-' then c.skip else c
  match c.peek with
  | some d => if d.isDigit then .ok c.digits.2 else .error (c.skip.fault .invalidNumber)
  | none => .error (c.fault .invalidNumber)

/-- Passes over a number whose sign was read. -/
def passNumber (c : Cursor) : Except Fault Cursor :=
  let integer : Except Fault Cursor :=
    match c.peek with
    | some '0' =>
      let c := c.skip
      match c.peek with
      | some d => if d.isDigit then .error (c.peekFault .invalidNumber) else .ok c
      | none => .ok c
    | some d => if d.isDigit then .ok c.digits.2 else .error (c.skip.fault .invalidNumber)
    | none => .error (c.fault .invalidNumber)
  match integer with
  | .error f => .error f
  | .ok c =>
    if c.peek == some '.' then
      let c := c.skip
      match c.digits with
      | ([], _) => .error (c.peekFault .invalidNumber)
      | (_, c) => if isExponentMark c.peek then passExponent c else .ok c
    else if isExponentMark c.peek then passExponent c
    else .ok c

/-- Passes over the key of a member and its colon. -/
def passKey (c : Cursor) : Except Fault Cursor :=
  let c := c.skipSpace
  match c.peek with
  | some '"' =>
    match passText (c.rest.length + 1) c.skip with
    | .error f => .error f
    | .ok c =>
      let c := c.skipSpace
      match c.peek with
      | some ':' => .ok c.skip
      | some _ => .error (c.peekFault .expectedColon)
      | none => .error (c.peekFault .endOfObject)
  | some _ => .error (c.peekFault .keyNotText)
  | none => .error (c.peekFault .endOfObject)

mutual

/-- Passes over a value whose content does not matter. The number bounds the steps, and `open`
holds the brackets that are still open, the innermost first. -/
def passValue : Nat → List Char → Cursor → Except Fault Cursor
  | 0, _, c => .error (c.fault .endOfValue)
  | n + 1, opened, c =>
    let c := c.skipSpace
    let simple (r : Except Fault Cursor) : Except Fault Cursor :=
      match r with
      | .ok c => passClose n opened true c
      | .error f => .error f
    match c.peek with
    | none => .error (c.peekFault .endOfValue)
    | some 'n' => simple (c.skip.word "ull".toList)
    | some 't' => simple (c.skip.word "rue".toList)
    | some 'f' => simple (c.skip.word "alse".toList)
    | some '-' => simple (passNumber c.skip)
    | some '"' => simple (passText (c.rest.length + 1) c.skip)
    | some '[' => passClose n ('[' :: opened) false c.skip
    | some '\x7b' => passClose n ('\x7b' :: opened) false c.skip
    | some d => if d.isDigit then simple (passNumber c) else .error (c.peekFault .expectedValue)

/-- Goes on after a value or after an opening bracket. -/
def passClose : Nat → List Char → Bool → Cursor → Except Fault Cursor
  | 0, _, _, c => .error (c.fault .endOfValue)
  | _, [], _, c => .ok c
  | n + 1, frame :: opened, afterValue, c =>
    let c := c.skipSpace
    let inside (c : Cursor) : Except Fault Cursor :=
      if frame == '\x7b' then
        match passKey c with
        | .ok c => passValue n (frame :: opened) c
        | .error f => .error f
      else passValue n (frame :: opened) c
    match c.peek with
    | none => .error (c.peekFault (if frame == '[' then .endOfList else .endOfObject))
    | some x =>
      if x == ',' && afterValue then inside c.skip
      else if (x == ']' && frame == '[') || (x == '\x7d' && frame == '\x7b') then
        passClose n opened true c.skip
      else if afterValue then
        .error (c.peekFault (if frame == '[' then .expectedListEnd else .expectedObjectEnd))
      else inside c

end

/-- Enough steps to pass over what is left. -/
def stepsFor (c : Cursor) : Nat := 2 * c.rest.length + 4

/-- The fault of a value of the wrong type. -/
def wrongType (c : Cursor) (expected : String) : Fault :=
  let found (r : Reading Value) : Fault :=
    match r with
    | .ok (v, c) => c.fault (.invalidType v expected)
    | .error f => f
  let after (r : Except Fault Cursor) (v : Value) : Reading Value :=
    match r with
    | .ok c => .ok (v, c)
    | .error f => .error f
  match c.peek with
  | some 'n' => found (after (c.skip.word "ull".toList) .null)
  | some 't' => found (after (c.skip.word "rue".toList) (.bool true))
  | some 'f' => found (after (c.skip.word "alse".toList) (.bool false))
  | some '-' => found (number c.skip false)
  | some '"' =>
    match text c.skip with
    | .ok (s, c) => c.fault (.invalidType (.text s) expected)
    | .error f => f
  | some '[' => c.fault (.invalidType (.list []) expected)
  | some '\x7b' => c.fault (.invalidType (.object []) expected)
  | some d => if d.isDigit then found (number c true) else c.peekFault .expectedValue
  | none => c.peekFault .expectedValue

/-- The cursor where an object was to be closed. -/
def closedObject (c : Cursor) : Cursor :=
  let c := c.skipSpace
  if c.peek == some '\x7d' then c.skip else c

/-- The cursor where a list was to be closed. -/
def closedList (c : Cursor) : Cursor :=
  let c := c.skipSpace
  if c.peek == some ']' then c.skip
  else if c.peek == some ',' then c.skip.skipSpace
  else c

/-- Closes a list after its last wanted item. -/
def endList (c : Cursor) : Except Fault Cursor :=
  let c := c.skipSpace
  match c.peek with
  | some ']' => .ok c.skip
  | some ',' =>
    let c := c.skip.skipSpace
    .error (c.peekFault (if c.peek == some ']' then .trailingComma else .trailingCharacters))
  | some _ => .error (c.peekFault .trailingCharacters)
  | none => .error (c.peekFault .endOfList)

/-- Whether a list has another item; the flag tells the first one. -/
def nextItem (first : Bool) (c : Cursor) : Reading Bool :=
  let c := c.skipSpace
  match c.peek with
  | none => .error (c.peekFault .endOfList)
  | some ']' => .ok (false, c)
  | some x =>
    if first then .ok (true, c)
    else if x == ',' then
      let c := c.skip.skipSpace
      match c.peek with
      | some ']' => .error (c.peekFault .trailingComma)
      | some _ => .ok (true, c)
      | none => .error (c.peekFault .endOfValue)
    else .error (c.peekFault .expectedListEnd)

/-- The key of the next member of an object, if there is one. -/
def nextKey (first : Bool) (c : Cursor) : Reading (Option String) :=
  let c := c.skipSpace
  let key (c : Cursor) : Reading (Option String) :=
    match text c.skip with
    | .ok (k, c) => .ok (some k, c)
    | .error f => .error f
  match c.peek with
  | none => .error (c.peekFault .endOfObject)
  | some '\x7d' => .ok (none, c)
  | some x =>
    if first then
      if x == '"' then key c else .error (c.peekFault .keyNotText)
    else if x == ',' then
      let c := c.skip.skipSpace
      match c.peek with
      | some '"' => key c
      | some '\x7d' => .error (c.peekFault .trailingComma)
      | some _ => .error (c.peekFault .keyNotText)
      | none => .error (c.peekFault .endOfValue)
    else .error (c.peekFault .expectedObjectEnd)

def colon (c : Cursor) : Except Fault Cursor :=
  let c := c.skipSpace
  match c.peek with
  | some ':' => .ok c.skip
  | some _ => .error (c.peekFault .expectedColon)
  | none => .error (c.peekFault .endOfObject)

/-- The values of a record's fields, or the first field that is missing. -/
def complete (read : List (String × Value)) :
    List (String × Absence × Schema) → Except String (List (String × Value))
  | [] => .ok []
  | (name, absence, _) :: rest =>
    let value : Option Value :=
      match read.find? fun m => m.1 == name with
      | some m => some m.2
      | none =>
        match absence with
        | .fault => none
        | .null => some .null
        | .default v => some v
    match value with
    | none => .error name
    | some v => (complete read rest).map ((name, v) :: ·)

/-- Reads a word out of a list of options. -/
def readChoice (options : List String) (c : Cursor) : Reading Value :=
  let named (c : Cursor) : Reading Value :=
    match text c.skip with
    | .ok (s, c) =>
      if options.contains s then .ok (.text s, c) else .error (c.fault (.unknownVariant s options))
    | .error f => .error f
  match c.peek with
  | some '"' => named c
  | some '\x7b' =>
    let c := c.skip.skipSpace
    match c.peek with
    | some '"' =>
      match named c with
      | .error f => .error f
      | .ok (v, c) =>
        match colon c with
        | .error f => .error f
        | .ok c =>
          let c := c.skipSpace
          match c.peek with
          | none => .error (c.peekFault .endOfValue)
          | some 'n' =>
            match c.skip.word "ull".toList with
            | .error f => .error f
            | .ok c =>
              let c := c.skipSpace
              match c.peek with
              | some '\x7d' => .ok (v, c.skip)
              | some _ => .error (c.fault .expectedValue)
              | none => .error (c.fault .endOfObject)
          | some _ => .error (wrongType c "unit")
    | some _ => .error (wrongType c "variant identifier")
    | none => .error (c.peekFault .endOfValue)
  | some _ => .error (c.peekFault .expectedValue)
  | none => .error (c.peekFault .endOfValue)

mutual

/-- Reads a value of a schema. The first number bounds the steps, the second one the depth of
lists and objects. -/
def readAs : Nat → Nat → Schema → Cursor → Reading Value
  | 0, _, _, c => .error (c.fault .tooDeep)
  | n + 1, depth, schema, c =>
    let c := c.skipSpace
    match schema with
    | .optional s =>
      if c.peek == some 'n' then
        match c.skip.word "ull".toList with
        | .ok c => .ok (.null, c)
        | .error f => .error f
      else readAs n depth s c
    | .choice options => readChoice options c
    | .text =>
      match c.peek with
      | none => .error (c.peekFault .endOfValue)
      | some '"' =>
        match text c.skip with
        | .ok (s, c) => .ok (.text s, c)
        | .error f => .error f
      | some _ => .error (wrongType c "a string")
    | .bool =>
      match c.peek with
      | none => .error (c.peekFault .endOfValue)
      | some 't' =>
        match c.skip.word "rue".toList with
        | .ok c => .ok (.bool true, c)
        | .error f => .error f
      | some 'f' =>
        match c.skip.word "alse".toList with
        | .ok c => .ok (.bool false, c)
        | .error f => .error f
      | some _ => .error (wrongType c "a boolean")
    | .whole low high name =>
      let check (r : Reading Value) : Reading Value :=
        match r with
        | .error f => .error f
        | .ok (.int i, c) =>
          if low ≤ i && i ≤ high then .ok (.int i, c)
          else .error (c.fault (.invalidValue (.int i) name))
        | .ok (v, c) => .error (c.fault (.invalidType v name))
      match c.peek with
      | none => .error (c.peekFault .endOfValue)
      | some '-' => check (number c.skip false)
      | some d => if d.isDigit then check (number c true) else .error (wrongType c name)
    | .list s =>
      match c.peek, depth with
      | none, _ => .error (c.peekFault .endOfValue)
      | some '[', 0 => .error (c.peekFault .tooDeep)
      | some '[', d + 1 => readItems n d s true [] c.skip
      | some _, _ => .error (wrongType c "a sequence")
    | .dict s =>
      match c.peek, depth with
      | none, _ => .error (c.peekFault .endOfValue)
      | some '\x7b', 0 => .error (c.peekFault .tooDeep)
      | some '\x7b', d + 1 => readDict n d s true [] c.skip
      | some _, _ => .error (wrongType c "a map")
    | .record name fields =>
      match c.peek, depth with
      | none, _ => .error (c.peekFault .endOfValue)
      | some '[', 0 => .error (c.peekFault .tooDeep)
      | some '\x7b', 0 => .error (c.peekFault .tooDeep)
      | some '[', d + 1 =>
        readRow n d ("struct " ++ name ++ " with " ++ toString fields.length
          ++ (if fields.length = 1 then " element" else " elements")) 0 fields [] c.skip
      | some '\x7b', d + 1 => readMembers n d fields true [] c.skip
      | some _, _ => .error (wrongType c ("struct " ++ name))

/-- Reads the items of a list; those read so far are kept in reverse. -/
def readItems : Nat → Nat → Schema → Bool → List Value → Cursor → Reading Value
  | 0, _, _, _, _, c => .error (c.fault .tooDeep)
  | n + 1, depth, s, first, read, c =>
    match nextItem first c with
    | .error f => .error f
    | .ok (false, c) => .ok (.list read.reverse, c.skip)
    | .ok (true, c) =>
      match readAs n depth s c with
      | .error f => .error f
      | .ok (v, c) => readItems n depth s false (v :: read) c

/-- Reads the members of an object whose keys are free. -/
def readDict : Nat → Nat → Schema → Bool → List (String × Value) → Cursor → Reading Value
  | 0, _, _, _, _, c => .error (c.fault .tooDeep)
  | n + 1, depth, s, first, read, c =>
    match nextKey first c with
    | .error f => .error f
    | .ok (none, c) => .ok (.object read.reverse, c.skip)
    | .ok (some k, c) =>
      match colon c with
      | .error f => .error f
      | .ok c =>
        match readAs n depth s c with
        | .error f => .error f
        | .ok (v, c) => readDict n depth s false ((k, v) :: read) c

/-- Reads a record that is written as a list. -/
def readRow : Nat → Nat → String → Nat → List (String × Absence × Schema) →
    List (String × Value) → Cursor → Reading Value
  | 0, _, _, _, _, _, c => .error (c.fault .tooDeep)
  | _ + 1, _, _, _, [], read, c =>
    match endList c with
    | .ok c => .ok (.object read.reverse, c)
    | .error f => .error f
  | n + 1, depth, expected, k, (name, absence, s) :: rest, read, c =>
    match nextItem (k == 0) c with
    | .error f => .error f
    | .ok (false, c) =>
      match absence with
      | .default v => readRow n depth expected (k + 1) rest ((name, v) :: read) c
      | _ => .error ((closedList c).fault (.invalidLength k expected))
    | .ok (true, c) =>
      match readAs n depth s c with
      | .error f => .error f
      | .ok (v, c) => readRow n depth expected (k + 1) rest ((name, v) :: read) c

/-- Reads a record that is written as an object. -/
def readMembers : Nat → Nat → List (String × Absence × Schema) → Bool → List (String × Value) →
    Cursor → Reading Value
  | 0, _, _, _, _, c => .error (c.fault .tooDeep)
  | n + 1, depth, fields, first, read, c =>
    match nextKey first c with
    | .error f => .error f
    | .ok (none, c) =>
      match complete read fields with
      | .ok members => .ok (.object members, c.skip)
      | .error name => .error ((closedObject c).fault (.missingField name))
    | .ok (some k, c) =>
      match fields.find? fun f => f.1 == k with
      | some (_, _, s) =>
        if read.any fun m => m.1 == k then
          .error ((closedObject c).fault (.duplicateField k))
        else
          match colon c with
          | .error f => .error f
          | .ok c =>
            match readAs n depth s c with
            | .error f => .error f
            | .ok (v, c) => readMembers n depth fields false ((k, v) :: read) c
      | none =>
        match colon c with
        | .error f => .error f
        | .ok c =>
          match passValue (stepsFor c) [] c with
          | .error f => .error f
          | .ok c => readMembers n depth fields false read c

end

/-- Nothing but white space may follow a value. -/
def finish (c : Cursor) : Except Fault Unit :=
  let c := c.skipSpace
  match c.peek with
  | some _ => .error (c.peekFault .trailingCharacters)
  | none => .ok ()

/-- Reads a whole text as a value of a schema. -/
def decode (schema : Schema) (s : String) : Except Fault Value :=
  let c := Cursor.start s
  match readAs (2 * c.rest.length + 64) maxDepth schema c with
  | .error f => .error f
  | .ok (v, c) =>
    match finish c with
    | .ok () => .ok v
    | .error f => .error f

end CodeIndex.Json
