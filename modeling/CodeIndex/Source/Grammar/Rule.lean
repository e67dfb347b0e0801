import CodeIndex.Source.Form
import CodeIndex.Source.Lexeme

/-!
The rules that the grammars' forms refer to, and the forms of single lexemes.
-/
namespace CodeIndex.Source.Grammar

inductive Rule where
  | statement
  | block
  | declaration
  | expression
  | sequence
  | conditional
  | binary
  | operand
  | access
  | primary
  | construction
  | arrow
  | arguments
  | template
  | object
  | array
  | destructuring
  | pattern
  | propertyName
  | parameters
  | signature
  | classBody
  | decorator
  | type
  | typeOperand
  | typeArguments
  | typeParameters
  | typeAscription
  | objectType
  | functionExpression
  | classExpression
  | markup
  deriving DecidableEq, Repr

abbrev Shape := Form Rule

/-- A scan that starts at the next lexeme. -/
def next (ending? : Input → Nat → Option Nat) : Scan := fun t _ pos =>
  let i := Trivia.skip t pos
  (ending? t i).map fun j => (i, j)

/-- A scan that starts right where the last lexeme ended. -/
def here (ending? : Input → Nat → Option Nat) : Scan := fun t _ pos =>
  (ending? t pos).map fun j => (pos, j)

def literally (s : String) (t : Input) (i : Nat) : Option Nat :=
  if t.standsAt i s.toList then some (i + s.length) else none

/-- The longest punctuation at the next lexeme. -/
def tok (s : String) : Shape :=
  .lexeme .token (next fun t i =>
    if Lexeme.punctuationAt? t i == some s then some (i + s.length) else none)

def anyTok (all : List String) : Shape :=
  .lexeme .token (next fun t i =>
    match Lexeme.punctuationAt? t i with
    | some s => if all.contains s then some (i + s.length) else none
    | none => none)

/-- The given characters, whatever follows them. -/
def raw (s : String) : Shape := .lexeme .token (next (literally s))

/-- The given characters with nothing before them. -/
def glued (s : String) : Shape := .lexeme .token (here (literally s))

def wordEnd? (w : String) (t : Input) (i : Nat) : Option Nat :=
  match Lexeme.nameEnd? t i with
  | some j => if t.slice i j == w then some j else none
  | none => none

def word (w : String) : Shape := .lexeme .token (next (wordEnd? w))

/-- A word that is a node of its own. -/
def wordNode (kind : Kind) (w : String) : Shape := .lexeme kind (next (wordEnd? w))

def anyWord (all : List String) : Shape :=
  .lexeme .token (next fun t i =>
    match Lexeme.nameEnd? t i with
    | some j => if all.contains (t.slice i j) then some j else none
    | none => none)

/-- A name that is none of the given words. -/
def nameExcept (kind : Kind) (excluded : List String) : Shape :=
  .lexeme kind (next fun t i =>
    match Lexeme.nameEnd? t i with
    | some j => if excluded.contains (t.slice i j) then none else some j
    | none => none)

def name (kind : Kind) : Shape := .lexeme kind (next Lexeme.nameEnd?)

def privateName : Shape := .lexeme .privatePropertyIdentifier (next Lexeme.privateNameEnd?)

def string : Shape := .lexeme .string (next Lexeme.stringEnd?)

def number : Shape := .lexeme .number (next Lexeme.numberEnd?)

/-- Goes on only if the next lexeme is on the same line. -/
def sameLine : Shape :=
  .ahead (.lexeme .token fun t _ pos =>
    let i := Trivia.skip t pos
    if Trivia.hasNewline t pos i then none else some (i, i))

/-- Goes on only if no line ends here or the surroundings are bracketed. -/
def unbroken : Shape :=
  .ahead (.lexeme .token fun t mode pos =>
    let i := Trivia.skip t pos
    if Trivia.hasNewline t pos i && !mode.bracketed then none else some (i, i))

/-- A statement's own end at a line end or before a closing brace, as an empty token. -/
def lineEnd (afterExpression : Bool) : Shape :=
  .lexeme .token fun t mode pos =>
    (Semicolon.auto? mode.dialect afterExpression t pos).map fun k => (k, k)

def typed (f : Shape) : Shape := .given (fun m => m.dialect.isTyped) f

def untyped (f : Shape) : Shape := .given (fun m => !m.dialect.isTyped) f

/-- A part that only the typed grammars allow. -/
def typedOpt (f : Shape) : Shape := .opt (typed f)

/-- Inside brackets of any kind. -/
def bracketed (f : Shape) : Shape := .inMode (fun m => { dialect := m.dialect, bracketed := true }) f

/-- Inside a body of statements or members. -/
def fresh (f : Shape) : Shape := .inMode (fun m => { dialect := m.dialect }) f

def always : Node → Bool := fun _ => true

def hasValue (n : Node) : Bool := n.hasChild .value

/-- Items with commas between them, a comma after the last one allowed. -/
def commaList (f : Shape) : Shape :=
  .opt (.seq [f, .many (.seq [tok ",", f]), .opt (tok ",")])

/-- Items with commas between them, any of which may be missing. -/
def sparseList (f : Shape) : Shape := .seq [.opt f, .many (.seq [tok ",", .opt f])]

end CodeIndex.Source.Grammar
