import CodeIndex.Source.Semicolon
import CodeIndex.Source.Tree

/-!
Grammars as data. A form says what may stand at a position: a lexeme, a rule of the grammar, one
form after another, the first form of two that fits, and so on. Running a form yields the nodes it
read and the position after them, or nothing if it does not fit; the first form that fits is final.
The number that the runner takes bounds the depth of the derivation.
-/
namespace CodeIndex.Source

/-- What the surroundings of a form change about it. -/
structure Mode where
  dialect : Dialect
  /-- Inside the head of a loop, where the word `in` is no operator. -/
  noIn : Bool := false
  /-- Between the marks of a conditional expression, where a colon ends the expression. -/
  noReturnType : Bool := false
  /-- In a heritage clause, where type arguments belong to the clause. -/
  noInstantiation : Bool := false
  /-- Inside brackets, where a line end does not end a statement. -/
  bracketed : Bool := false

/-- Finds a lexeme's range from the end of the lexeme before it. -/
abbrev Scan := Input → Mode → Nat → Option (Nat × Nat)

inductive Form (Rule : Type) where
  | empty
  | never
  | lexeme (kind : Kind) (scan : Scan)
  | rule (r : Rule)
  | both (first second : Form Rule)
  | either (first second : Form Rule)
  | many (f : Form Rule)
  | node (kind : Kind) (f : Form Rule)
  | role (r : Role) (f : Form Rule)
  /-- Goes on only if the form fits here; it reads nothing. -/
  | ahead (f : Form Rule)
  /-- Goes on only if the form does not fit here. -/
  | notAhead (f : Form Rule)
  | given (test : Mode → Bool) (f : Form Rule)
  | inMode (change : Mode → Mode) (f : Form Rule)
  /-- Fits if the last node that the form read passes the test. -/
  | keeping (test : Node → Bool) (f : Form Rule)
  /-- A node that grows to the right: each step makes it the first child of a larger node. -/
  | grow (base : Form Rule) (steps : List (Kind × Option Role × (Node → Bool) × Form Rule))
  /-- Operands with operators between them; each pair reads an operator and its right operand. -/
  | operators (operand : Form Rule) (pair : Form Rule)
  /-- A form with the semicolon that ends it; the test says from its last node whether an
  expression could still go on. -/
  | terminated (afterExpression : Node → Bool) (f : Form Rule)

namespace Form

variable {Rule : Type}

def seq : List (Form Rule) → Form Rule
  | [] => empty
  | [f] => f
  | f :: fs => both f (seq fs)

def choice : List (Form Rule) → Form Rule
  | [] => never
  | [f] => f
  | f :: fs => either f (choice fs)

def opt (f : Form Rule) : Form Rule := either f empty

def separated (separator f : Form Rule) : Form Rule := both f (many (both separator f))

end Form

/-- How tightly an operator binds, whether it groups to the right, and the node it makes. -/
def operatorLevel : String → Nat × Bool × Kind
  | "??" | "||" => (1, false, .binaryExpression)
  | "&&" => (2, false, .binaryExpression)
  | "|" => (3, false, .binaryExpression)
  | "^" => (4, false, .binaryExpression)
  | "&" => (5, false, .binaryExpression)
  | "==" | "!=" | "===" | "!==" => (6, false, .binaryExpression)
  | "as" => (7, false, .asExpression)
  | "satisfies" => (7, false, .satisfiesExpression)
  | "<<" | ">>" | ">>>" => (8, false, .binaryExpression)
  | "+" | "-" => (9, false, .binaryExpression)
  | "*" | "/" | "%" => (10, false, .binaryExpression)
  | "**" => (11, true, .binaryExpression)
  | _ => (7, false, .binaryExpression)

/-- A comment is a child of the node whose children it stands between. -/
def withComments (t : Input) : List Node → List Node
  | [] => []
  | [n] => [n]
  | a :: b :: rest =>
    a :: ((Trivia.comments t a.stop b.start).map fun (s, e) => Node.leaf .comment s e)
      ++ withComments t (b :: rest)

/-- The node over a list of nodes, or an empty one at a position. -/
def assemble (t : Input) (kind : Kind) (pos : Nat) (items : List Node) : Node :=
  match items with
  | [] => Node.leaf kind pos pos
  | first :: _ =>
    Node.mk kind none first.start ((items.getLast?.map Node.stop).getD pos) (withComments t items)

/-- Groups a flat list of operators and operands. The first number bounds the steps; `low` is the
least level that may be taken into the node at hand. -/
def group (t : Input) : Nat → Node → Nat → List (Node × Node) → Node × List (Node × Node)
  | 0, lhs, _, rest => (lhs, rest)
  | _, lhs, _, [] => (lhs, [])
  | n + 1, lhs, low, (op, rhs) :: rest =>
    let (level, rightward, kind) := operatorLevel (t.slice op.start op.stop)
    if level < low then (lhs, (op, rhs) :: rest)
    else
      let (rhs', rest') := group t n rhs (if rightward then level else level + 1) rest
      group t n (assemble t kind lhs.start [lhs, op, rhs']) low rest'

/-- What running a form yields. -/
abbrev Found := List Node × Nat

/-- The nodes of a list of operator pairs. -/
def pairsOf : List Node → List (Node × Node)
  | op :: rhs :: rest => (op, rhs) :: pairsOf rest
  | _ => []

mutual

def run {Rule : Type} (grammar : Rule → Form Rule) (t : Input) :
    Nat → Form Rule → Mode → Nat → Option Found
  | 0, _, _, _ => none
  | n + 1, form, mode, pos =>
    match form with
    | .empty => some ([], pos)
    | .never => none
    | .lexeme kind scan =>
      match scan t mode pos with
      | some (s, e) => some ([Node.leaf kind s e], e)
      | none => none
    | .rule r => run grammar t n (grammar r) mode pos
    | .both f g =>
      match run grammar t n f mode pos with
      | some (xs, p) =>
        match run grammar t n g mode p with
        | some (ys, q) => some (xs ++ ys, q)
        | none => none
      | none => none
    | .either f g =>
      match run grammar t n f mode pos with
      | some found => some found
      | none => run grammar t n g mode pos
    | .many f =>
      match run grammar t n f mode pos with
      | some (xs, p) =>
        if pos < p then
          match run grammar t n (.many f) mode p with
          | some (ys, q) => some (xs ++ ys, q)
          | none => none
        else some ([], pos)
      | none => some ([], pos)
    | .node kind f =>
      match run grammar t n f mode pos with
      | some (xs, p) => some ([assemble t kind pos xs], p)
      | none => none
    | .role r f =>
      match run grammar t n f mode pos with
      | some (xs, p) => some (xs.map (Node.withRole r), p)
      | none => none
    | .ahead f =>
      match run grammar t n f mode pos with
      | some _ => some ([], pos)
      | none => none
    | .notAhead f =>
      match run grammar t n f mode pos with
      | some _ => none
      | none => some ([], pos)
    | .given test f => if test mode then run grammar t n f mode pos else none
    | .inMode change f => run grammar t n f (change mode) pos
    | .keeping test f =>
      match run grammar t n f mode pos with
      | some (xs, p) =>
        match xs.getLast? with
        | some x => if test x then some (xs, p) else none
        | none => none
      | none => none
    | .grow base steps =>
      match run grammar t n base mode pos with
      | some ([x], p) => some (runSteps grammar t n steps steps mode x p)
      | some (_, _) => none
      | none => none
    | .operators operand pair =>
      match run grammar t n operand mode pos with
      | some ([x], p) =>
        match run grammar t n (.many pair) mode p with
        | some (ys, q) => some ([(group t (ys.length + 1) x 0 (pairsOf ys)).1], q)
        | none => none
      | some (_, _) => none
      | none => none
    | .terminated afterExpression f =>
      match run grammar t n f mode pos with
      | some (xs, p) =>
        let after := (xs.getLast?.map afterExpression).getD false
        match Semicolon.find? mode.dialect after t p with
        | some (s, e) => some (xs ++ [Node.leaf .token s e], e)
        | none => none
      | none => none

/-- Takes the first step that fits, again and again. -/
def runSteps {Rule : Type} (grammar : Rule → Form Rule) (t : Input) :
    Nat → List (Kind × Option Role × (Node → Bool) × Form Rule) →
      List (Kind × Option Role × (Node → Bool) × Form Rule) → Mode → Node → Nat → Found
  | 0, _, _, _, x, p => ([x], p)
  | _ + 1, _, [], _, x, p => ([x], p)
  | n + 1, all, (kind, role, test, f) :: others, mode, x, p =>
    let next : Option (Node × Nat) :=
      if test x then
        match run grammar t n f mode p with
        | some (ys, q) =>
          if p < q then
            let first := match role with
              | some r => x.withRole r
              | none => x
            some (assemble t kind x.start (first :: ys), q)
          else none
        | none => none
      else none
    match next with
    | some (y, q) => runSteps grammar t n all all mode y q
    | none => runSteps grammar t n all others mode x p

end

end CodeIndex.Source
