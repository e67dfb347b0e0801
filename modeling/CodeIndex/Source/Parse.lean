import CodeIndex.Source.Grammar.Table

/-!
Reading a source text into a tree. A text is read only as a whole: what the grammar cannot read to
the end is a syntax error. The tree is handed out after a check that its ranges nest and that only
punctuation is empty.
-/
namespace CodeIndex.Source

/-- A text with its tree. -/
structure Parsed where
  input : Input
  root : Node

/-- Enough for every derivation: the forms between two nested lexemes are a bounded number. -/
def depthFor (t : Input) : Nat := 256 * (t.size + 4)

/-- A comment node over a range. -/
def commentNode (range : Nat × Nat) : Node := Node.leaf .comment range.1 range.2

/-- The root over the statements, with the comments before and after them. -/
def rootOf (t : Input) (items : List Node) : Node :=
  let first := (items.head?.map Node.start).getD t.size
  let last := (items.getLast?.map Node.stop).getD t.size
  Node.mk .program none 0 t.size
    ((Trivia.comments t 0 first).map commentNode ++ withComments t items
      ++ (Trivia.comments t last t.size).map commentNode)

def parse? (d : Dialect) (s : String) : Option Parsed :=
  let t := Input.ofString s
  match run Grammar.form t (depthFor t) Grammar.file { dialect := d } 0 with
  | some (items, stop) =>
    let root := rootOf t items
    if Trivia.skip t stop == t.size && root.nestsInside then some ⟨t, root⟩ else none
  | none => none

/-- A text is read to its end, into a tree whose ranges nest. -/
theorem exists_run_of_parse? {d : Dialect} {s : String} {p : Parsed} (h : parse? d s = some p) :
    p.input = Input.ofString s ∧ p.root.nestsInside = true ∧
      ∃ items stop, p.root = rootOf p.input items ∧
        run Grammar.form p.input (depthFor p.input) Grammar.file { dialect := d } 0 =
          some (items, stop) ∧
        Trivia.skip p.input stop = p.input.size := by
  delta parse? at h
  dsimp only at h
  split at h
  · next items stop hrun =>
    obtain ⟨hchecks, hread⟩ := Option.ite_none_right_eq_some.mp h
    obtain rfl := Option.some.inj hread
    rw [Bool.and_eq_true, beq_iff_eq] at hchecks
    exact ⟨rfl, hchecks.2, items, stop, rfl, hrun, hchecks.1⟩
  · cases h

theorem nestsInside_of_parse? {d : Dialect} {s : String} {p : Parsed} (h : parse? d s = some p) :
    p.root.nestsInside = true :=
  (exists_run_of_parse? h).2.1

namespace Parsed

def text (p : Parsed) (n : Node) : String := p.input.slice n.start n.stop

def lineOf (p : Parsed) (i : Nat) : Nat := (p.input.place i).line

def startLine (p : Parsed) (n : Node) : Nat := p.lineOf n.start

def endLine (p : Parsed) (n : Node) : Nat := p.lineOf n.stop

/-- The comments in document order. -/
def comments (p : Parsed) : List Node := p.root.preorder.filter fun n => n.kind == .comment

end Parsed

end CodeIndex.Source
