import CodeIndex.Proofs.Source.Shape

/-!
What a tree leaves out of its text. Each lexeme is looked for after the white space and the comments
that follow the lexeme before it, and the comments become nodes; so between two neighbours under a
node stands nothing but white space and comments.
-/
namespace CodeIndex.Source

/-! Text between two positions -/

/-- The text between two positions is made of white space, comments and given nodes. -/
inductive Passes (t : Input) (nodes : List Node) : Nat → Nat → Prop where
  | here {i : Nat} : Passes t nodes i i
  | space {i j : Nat} (hi : i < t.chars.size) (hgap : Trivia.isGap t.chars[i] = true)
      (h : Passes t nodes (i + 1) j) : Passes t nodes i j
  | comment {i j k : Nat} (hend : Trivia.commentEnd? t i = some k) (h : Passes t nodes k j) :
      Passes t nodes i j
  | node {n : Node} {j : Nat} (hn : n ∈ nodes) (h : Passes t nodes n.stop j) :
      Passes t nodes n.start j

/-- The text between two positions is made of white space and comments. -/
abbrev Blank (t : Input) : Nat → Nat → Prop := Passes t []

variable {t : Input} {nodes : List Node} {i j k : Nat}

theorem Passes.trans (h : Passes t nodes i j) (h' : Passes t nodes j k) : Passes t nodes i k := by
  induction h with
  | here => exact h'
  | space hi hgap _ ih => exact .space hi hgap (ih h')
  | comment hend _ ih => exact .comment hend (ih h')
  | node hn _ ih => exact .node hn (ih h')

theorem Passes.mono {nodes' : List Node} (h : Passes t nodes i j) (hsub : nodes ⊆ nodes') :
    Passes t nodes' i j := by
  induction h with
  | here => exact .here
  | space hi hgap _ ih => exact .space hi hgap ih
  | comment hend _ ih => exact .comment hend ih
  | node hn _ ih => exact .node (hsub hn) ih

theorem blank_scanWhile (t : Input) (i : Nat) : Blank t i (t.scanWhile Trivia.isGap i) := by
  induction i using Input.scanWhile.induct t Trivia.isGap with
  | case1 i hi hgap ih =>
    rw [Input.scanWhile, dif_pos hi, if_pos hgap]
    exact .space hi hgap ih
  | case2 i hi hgap =>
    rw [Input.scanWhile, dif_pos hi, if_neg hgap]
    exact .here
  | case3 i hi =>
    rw [Input.scanWhile, dif_neg hi]
    exact .here

theorem blank_skipFrom (t : Input) (n i : Nat) : Blank t i (Trivia.skipFrom t n i) := by
  induction n generalizing i with
  | zero => exact .here
  | succ n ih =>
    rw [Trivia.skipFrom]
    split
    · next k hend => exact (blank_scanWhile t i).trans (.comment hend (ih k))
    · exact blank_scanWhile t i

theorem blank_skip (t : Input) (i : Nat) : Blank t i (Trivia.skip t i) := blank_skipFrom t _ i

theorem peek_of_commentEnd? (hend : Trivia.commentEnd? t i = some k) : t.peek i = '/' := by
  unfold Trivia.commentEnd? at hend
  split at hend
  · next h => simpa using h
  · cases hend

theorem peek_eq (hi : i < t.chars.size) : t.peek i = t.chars[i] := by
  rw [Input.peek, Array.getD_eq_getD_getElem?, Array.getElem?_eq_getElem hi]
  rfl

/-- A comment starts with a slash, which is no white space. -/
theorem scanWhile_of_commentEnd? (hend : Trivia.commentEnd? t i = some k) :
    t.scanWhile Trivia.isGap i = i := by
  rw [Input.scanWhile]
  split
  · next hi => rw [← peek_eq hi, peek_of_commentEnd? hend, if_neg (by decide)]
  · rfl

/-- Neither white space nor a comment goes on with another character than theirs. -/
theorem Passes.step (h : Blank t i j) (hslash : t.peek i ≠ '/') :
    j = i ∨ Trivia.isGap (t.peek i) = true ∧ Blank t (i + 1) j := by
  cases h with
  | here => exact .inl rfl
  | space hi hgap h => exact .inr ⟨peek_eq hi ▸ hgap, h⟩
  | comment hend _ => exact absurd (peek_of_commentEnd? hend) hslash
  | node hn => cases hn

theorem le_scanWhile (t : Input) (test : Char → Bool) (i : Nat) : i ≤ t.scanWhile test i := by
  induction i using Input.scanWhile.induct t test with
  | case1 i hi hgap ih =>
    rw [Input.scanWhile, dif_pos hi, if_pos hgap]
    omega
  | case2 i hi hgap =>
    exact Nat.le_of_eq (by rw [Input.scanWhile, dif_pos hi, if_neg hgap])
  | case3 i hi =>
    exact Nat.le_of_eq (by rw [Input.scanWhile, dif_neg hi])

/-- White space and comments go on after their first comment. -/
theorem Passes.after_comment (h : Blank t i j) (hlt : t.scanWhile Trivia.isGap i < j)
    (hend : Trivia.commentEnd? t (t.scanWhile Trivia.isGap i) = some k) : Blank t k j := by
  induction h with
  | here => exact absurd hlt (Nat.not_lt.mpr (le_scanWhile t _ _))
  | space hi hgap _ ih =>
    rw [Input.scanWhile, dif_pos hi, if_pos hgap] at hlt hend
    exact ih hlt hend
  | comment hend' h _ =>
    rw [scanWhile_of_commentEnd? hend', hend'] at hend
    exact Option.some.inj hend ▸ h
  | node hn => cases hn

/-! Neighbours -/

/-- The nodes of a list stand one after the other, with nothing but white space and comments
between them. -/
inductive Tiled (t : Input) : Nat → List Node → Nat → Prop where
  | nil {i : Nat} : Tiled t i [] i
  | cons {i j : Nat} {n : Node} {ns : List Node} (hgap : Blank t i n.start)
      (h : Tiled t n.stop ns j) : Tiled t i (n :: ns) j

theorem Tiled.append {xs ys : List Node} (hx : Tiled t i xs j) (hy : Tiled t j ys k) :
    Tiled t i (xs ++ ys) k := by
  induction hx with
  | nil => exact hy
  | cons hgap _ ih => exact .cons hgap (ih hy)

theorem Tiled.of_append {xs ys : List Node} (h : Tiled t i (xs ++ ys) k) :
    ∃ j, Tiled t i xs j ∧ Tiled t j ys k := by
  induction xs generalizing i with
  | nil => exact ⟨i, .nil, h⟩
  | cons x xs ih =>
    cases h with
    | cons hgap h =>
      obtain ⟨j, hx, hy⟩ := ih h
      exact ⟨j, .cons hgap hx, hy⟩

theorem Tiled.stop {x : Node} {xs : List Node} (h : Tiled t i (x :: xs) j) (pos : Nat) :
    ((x :: xs).getLast?.map Node.stop).getD pos = j := by
  induction xs generalizing i x with
  | nil =>
    cases h with
    | cons _ h =>
      cases h with
      | nil => rfl
  | cons y ys ih =>
    cases h with
    | cons _ h =>
      rw [List.getLast?_cons_cons]
      exact ih h

/-- What is known of the nodes of a tree. -/
structure Node.Spaced (t : Input) (n : Node) : Prop where
  tiled : ∃ j, Tiled t n.start n.children j
  comment : n.kind = .comment → Trivia.commentEnd? t n.start = some n.stop

def Node.AllSpaced (t : Input) (n : Node) : Prop := ∀ m ∈ n.preorder, m.Spaced t

theorem Node.spaced_leaf {kind : Kind}
    (h : kind = .comment → Trivia.commentEnd? t i = some j) : (Node.leaf kind i j).AllSpaced t := by
  intro m hm
  rcases Node.mem_preorder.mp hm with rfl | ⟨c, hc, -⟩
  · exact ⟨⟨i, .nil⟩, h⟩
  · simp [Node.leaf, Node.children] at hc

/-- Nodes that were read between two positions. -/
structure Laid (t : Input) (i : Nat) (xs : List Node) (j : Nat) : Prop where
  tiled : Tiled t i xs j
  spaced : ∀ x ∈ xs, x.AllSpaced t

theorem laid_nil (t : Input) (i : Nat) : Laid t i [] i := ⟨.nil, by simp⟩

theorem laid_leaf {kind : Kind} (hkind : kind ≠ .comment) (hgap : Blank t i j) :
    Laid t i [Node.leaf kind j k] k :=
  ⟨.cons hgap .nil, by simpa using Node.spaced_leaf fun h => absurd h hkind⟩

theorem Laid.append {xs ys : List Node} (hx : Laid t i xs j) (hy : Laid t j ys k) :
    Laid t i (xs ++ ys) k :=
  ⟨hx.tiled.append hy.tiled, fun n hn =>
    (List.mem_append.mp hn).elim (hx.spaced n) (hy.spaced n)⟩

theorem laid_cons {n : Node} {ns : List Node} (hgap : Blank t i n.start) (hn : n.AllSpaced t)
    (h : Laid t n.stop ns j) : Laid t i (n :: ns) j :=
  ⟨.cons hgap h.tiled, List.forall_mem_cons.mpr ⟨hn, h.spaced⟩⟩

theorem laid_one {n : Node} (hgap : Blank t i n.start) (hn : n.AllSpaced t) :
    Laid t i [n] n.stop := laid_cons hgap hn (laid_nil t _)

theorem Laid.of_append {xs ys : List Node} (h : Laid t i (xs ++ ys) k) :
    ∃ j, Laid t i xs j ∧ Laid t j ys k := by
  obtain ⟨j, hx, hy⟩ := h.tiled.of_append
  exact ⟨j, ⟨hx, fun n hn => h.spaced n (List.mem_append_left _ hn)⟩, hy,
    fun n hn => h.spaced n (List.mem_append_right _ hn)⟩

theorem Laid.after {xs : List Node} (h : Laid t j xs k) (hgap : Blank t i j) :
    ∃ k, Laid t i xs k := by
  cases h.tiled with
  | nil => exact ⟨i, laid_nil t i⟩
  | cons hgap' hrest => exact ⟨k, .cons (hgap.trans hgap') hrest, h.spaced⟩

/-! Comments -/

theorem laid_commentsFrom (n : Nat) (h : Blank t i j) :
    ∃ k, Laid t i ((Trivia.commentsFrom t n i j).map commentNode) k ∧ Blank t k j := by
  induction n generalizing i with
  | zero => exact ⟨i, laid_nil t i, h⟩
  | succ n ih =>
    rw [Trivia.commentsFrom]
    split
    · next hlt =>
      split
      · next k hend =>
        obtain ⟨l, hrest, hblank⟩ := ih (h.after_comment hlt hend)
        exact ⟨l, laid_cons (blank_scanWhile t i) (Node.spaced_leaf fun _ => hend) hrest, hblank⟩
      · exact ⟨i, laid_nil t i, h⟩
    · exact ⟨i, laid_nil t i, h⟩

/-- The comments that are found in white space and comments. -/
theorem laid_comments (h : Blank t i j) :
    ∃ k, Laid t i ((Trivia.comments t i j).map commentNode) k ∧ Blank t k j :=
  laid_commentsFrom (t.size + 1) h

/-- The comments become neighbours of the nodes that they stand between. -/
theorem laid_withComments {xs : List Node} (h : Laid t i xs j) :
    Laid t i (withComments t xs) j := by
  induction xs generalizing i with
  | nil => exact h
  | cons a xs ih =>
    cases xs with
    | nil => exact h
    | cons b xs =>
      rw [withComments]
      have ha := h.spaced a List.mem_cons_self
      cases h.tiled with
      | cons hgap hrest =>
        cases hrest with
        | cons hgap' hrest =>
          obtain ⟨k, hcomments, hblank⟩ := laid_comments hgap'
          refine laid_cons hgap ha (hcomments.append (ih ⟨.cons hblank hrest, ?_⟩))
          exact fun n hn => h.spaced n (List.mem_cons_of_mem _ hn)

/-! Assembled nodes -/

/-- A node over nodes that were read stands where they stand. -/
theorem laid_assemble_cons {x : Node} {xs : List Node} (h : Laid t i (x :: xs) j) {kind : Kind}
    (hkind : kind ≠ .comment) (pos : Nat) : Laid t i [assemble t kind pos (x :: xs)] j := by
  obtain ⟨hgap, hinside⟩ : Blank t i x.start ∧ Laid t x.start (x :: xs) j := by
    cases h.tiled with
    | cons hgap hrest => exact ⟨hgap, .cons .here hrest, h.spaced⟩
  have hnode : (assemble t kind pos (x :: xs)).AllSpaced t := by
    intro m hm
    rcases Node.mem_preorder.mp hm with rfl | ⟨c, hc, hm⟩
    · exact ⟨⟨j, (laid_withComments hinside).tiled⟩, fun hk => absurd hk hkind⟩
    · exact (laid_withComments hinside).spaced c hc m hm
  have hone := laid_one (n := assemble t kind pos (x :: xs)) hgap hnode
  rwa [show (assemble t kind pos (x :: xs)).stop = j from h.tiled.stop pos] at hone

theorem laid_assemble {xs : List Node} (h : Laid t i xs j) {kind : Kind} (hkind : kind ≠ .comment)
    {pos : Nat} (hpos : xs = [] → pos = i) : Laid t i [assemble t kind pos xs] j := by
  cases xs with
  | nil =>
    obtain rfl := hpos rfl
    cases h.tiled with
    | nil => exact laid_leaf hkind .here
  | cons x xs => exact laid_assemble_cons h hkind pos

@[simp] theorem Node.start_withRole (r : Role) (n : Node) : (n.withRole r).start = n.start := by
  cases n
  rfl

@[simp] theorem Node.stop_withRole (r : Role) (n : Node) : (n.withRole r).stop = n.stop := by
  cases n
  rfl

theorem Node.AllSpaced.withRole {n : Node} (h : n.AllSpaced t) (r : Role) :
    (n.withRole r).AllSpaced t := by
  have hn : n.Spaced t := h n n.self_mem_preorder
  intro m hm
  rcases Node.mem_preorder.mp hm with rfl | ⟨c, hc, hm⟩
  · exact ⟨by simpa using hn.tiled, by simpa using hn.comment⟩
  · exact h m (Node.mem_preorder.mpr (.inr ⟨c, by simpa using hc, hm⟩))

theorem Laid.withRole {xs : List Node} (h : Laid t i xs j) (r : Role) :
    Laid t i (xs.map (Node.withRole r)) j := by
  refine ⟨?_, fun n hn => ?_⟩
  · have htiled := h.tiled
    clear h
    induction htiled with
    | nil => exact .nil
    | cons hgap _ ih => exact .cons (by simpa using hgap) (by simpa using ih)
  · obtain ⟨m, hm, rfl⟩ := List.mem_map.mp hn
    exact (h.spaced m hm).withRole r

/-! Operators -/

/-- The nodes of a list of operator pairs in order. -/
def flat (pairs : List (Node × Node)) : List Node := pairs.flatMap fun p => [p.1, p.2]

theorem flat_pairsOf {xs : List Node} (h : xs.length % 2 = 0) : flat (pairsOf xs) = xs := by
  induction xs using pairsOf.induct with
  | case1 op rhs rest ih =>
    simp only [List.length_cons] at h
    rw [pairsOf, flat, List.flatMap_cons, ← flat, ih (by omega)]
    rfl
  | case2 xs hxs =>
    cases xs with
    | nil => rfl
    | cons x xs =>
      cases xs with
      | nil => cases h
      | cons y ys => exact absurd rfl (hxs x y ys)

theorem length_pairsOf_le (xs : List Node) : (pairsOf xs).length ≤ xs.length := by
  induction xs using pairsOf.induct with
  | case1 op rhs rest ih =>
    rw [pairsOf, List.length_cons]
    simp only [List.length_cons]
    omega
  | case2 xs hxs =>
    rw [pairsOf]
    · exact Nat.zero_le _
    · exact hxs

theorem length_group_le (t : Input) (n : Nat) (lhs : Node) (low : Nat)
    (rest : List (Node × Node)) : (group t n lhs low rest).2.length ≤ rest.length := by
  induction n generalizing lhs low rest with
  | zero =>
    exact Nat.le_of_eq (by rw [group])
  | succ n ih =>
    cases rest with
    | nil => simp [group]
    | cons p rest =>
      obtain ⟨op, rhs⟩ := p
      rw [group]
      split
      split
      · exact Nat.le_refl _
      · split
        next rhs' rest' hinner =>
        have hle : rest'.length ≤ rest.length := by
          rw [← show _ = rest' from congrArg Prod.snd hinner]
          exact ih rhs _ rest
        exact Nat.le_succ_of_le (Nat.le_trans (ih _ low _) hle)

/-- From the lowest level on all operators are taken in. -/
theorem group_rest (t : Input) {n : Nat} (lhs : Node) {rest : List (Node × Node)}
    (h : rest.length < n) : (group t n lhs 0 rest).2 = [] := by
  induction n generalizing lhs rest with
  | zero => omega
  | succ n ih =>
    cases rest with
    | nil => simp [group]
    | cons p rest =>
      obtain ⟨op, rhs⟩ := p
      rw [group]
      split
      split
      · next hlt => exact absurd hlt (Nat.not_lt_zero _)
      · split
        next rhs' rest' hinner =>
        have hle : rest'.length ≤ rest.length := by
          rw [← show _ = rest' from congrArg Prod.snd hinner]
          exact length_group_le t n rhs _ rest
        refine ih _ ?_
        simp only [List.length_cons] at h
        omega

theorem operatorLevel_kind (s : String) : (operatorLevel s).2.2 ≠ .comment := by
  unfold operatorLevel
  split <;> simp

/-- Grouping neither moves a node nor leaves one out. -/
theorem laid_group (n : Nat) {lhs : Node} (low : Nat) {rest : List (Node × Node)}
    (h : Laid t i (lhs :: flat rest) j) :
    Laid t i ((group t n lhs low rest).1 :: flat (group t n lhs low rest).2) j := by
  induction n generalizing i lhs low rest with
  | zero =>
    rw [group]
    exact h
  | succ n ih =>
    cases rest with
    | nil =>
      rw [group]
      · exact h
      · exact Nat.succ_ne_zero n
    | cons p rest =>
      obtain ⟨op, rhs⟩ := p
      rw [group]
      split
      next level rightward kind hlevel =>
      split
      · exact h
      · split
        next rhs' rest' hinner =>
        obtain ⟨k, hleft, hright⟩ :=
          Laid.of_append (show Laid t i ([lhs, op] ++ (rhs :: flat rest)) j from h)
        have hright' : Laid t k (rhs' :: flat rest') j := by
          have hgroup := ih (if rightward then level else level + 1) hright
          rwa [hinner] at hgroup
        obtain ⟨k', htaken, hlater⟩ := Laid.of_append
          (show Laid t i ([lhs, op, rhs'] ++ flat rest') j from hleft.append hright')
        have hkind : kind ≠ .comment := by
          have := operatorLevel_kind (t.slice op.start op.stop)
          rwa [hlevel] at this
        exact ih low ((laid_assemble_cons htaken hkind _).append hlater)

namespace Grammar

/-! Forms -/

/-- A scan that finds its lexeme after white space and comments. -/
def Skips (scan : Scan) : Prop :=
  ∀ t mode pos start stop, scan t mode pos = some (start, stop) → Blank t pos start

/-- All lexemes of a form are found after white space and comments, and nothing is read as a
comment. -/
inductive Spaces : Shape → Prop where
  | both {f g : Shape} (hf : Spaces f) (hg : Spaces g) : Spaces (.both f g)
  | either {f g : Shape} (hf : Spaces f) (hg : Spaces g) : Spaces (.either f g)
  | lexeme {k : Kind} {scan : Scan} (hscan : Skips scan) (hk : (k == .comment) = false) :
      Spaces (.lexeme k scan)
  | rule {r : Rule} : Spaces (.rule r)
  | node {k : Kind} {f : Shape} (hf : Spaces f) (hk : (k == .comment) = false) :
      Spaces (.node k f)
  | role {r : Role} {f : Shape} (hf : Spaces f) : Spaces (.role r f)
  | empty : Spaces .empty
  | many {f : Shape} (hf : Spaces f) : Spaces (.many f)
  | given {test : Mode → Bool} {f : Shape} (hf : Spaces f) : Spaces (.given test f)
  | inMode {change : Mode → Mode} {f : Shape} (hf : Spaces f) : Spaces (.inMode change f)
  | ahead {f : Shape} : Spaces (.ahead f)
  | notAhead {f : Shape} : Spaces (.notAhead f)
  | terminated {test : Node → Bool} {f : Shape} (hf : Spaces f) : Spaces (.terminated test f)
  | keeping {test : Node → Bool} {f : Shape} (hf : Spaces f) : Spaces (.keeping test f)
  | grow_nil {base : Shape} (hbase : Spaces base) : Spaces (.grow base [])
  | grow_cons {base f : Shape} {k : Kind} {role : Option Role} {test : Node → Bool}
      {steps : List Step} (hf : Spaces f) (h : Spaces (.grow base steps))
      (hk : (k == .comment) = false) : Spaces (.grow base ((k, role, test, f) :: steps))
  | operators {operand pair : Shape} (hoperand : Spaces operand) (hpair : Spaces pair)
      (hwidth : width pair = some 2) : Spaces (.operators operand pair)
  | never : Spaces .never

theorem skips_next (ending? : Input → Nat → Option Nat) : Skips (next ending?) := by
  intro t mode pos start stop h
  obtain ⟨j, -, hj⟩ := Option.map_eq_some_iff.mp h
  obtain ⟨rfl, rfl⟩ := Prod.mk.inj hj
  exact blank_skip t pos

theorem skips_here (ending? : Input → Nat → Option Nat) : Skips (here ending?) := by
  intro t mode pos start stop h
  obtain ⟨j, -, hj⟩ := Option.map_eq_some_iff.mp h
  obtain ⟨rfl, rfl⟩ := Prod.mk.inj hj
  exact .here

/-- A statement ends by itself where it ends or after a comment that follows it. -/
theorem blank_auto? {d : Dialect} {afterExpression : Bool} (h :
    Semicolon.auto? d afterExpression t i = some j) : Blank t i j := by
  unfold Semicolon.auto? at h
  generalize t.size + 1 = n at h
  induction n generalizing i with
  | zero => cases h
  | succ n ih =>
    rw [Semicolon.autoFrom] at h
    split at h
    · exact Option.some.inj h ▸ .here
    · split at h
      · next k hend => exact (blank_scanWhile t i).trans (.comment hend (ih h))
      · cases h

theorem blank_find? {d : Dialect} {afterExpression : Bool} (h :
    Semicolon.find? d afterExpression t i = some (j, k)) : Blank t i j := by
  unfold Semicolon.find? at h
  split at h
  · next l hauto =>
    obtain ⟨rfl, rfl⟩ := Prod.mk.inj (Option.some.inj h)
    exact blank_auto? hauto
  · dsimp only at h
    split at h
    · obtain ⟨rfl, rfl⟩ := Prod.mk.inj (Option.some.inj h)
      exact blank_skip t i
    · cases h

theorem skips_lineEnd (afterExpression : Bool) : Skips fun t mode pos =>
    (Semicolon.auto? mode.dialect afterExpression t pos).map fun k => (k, k) := by
  intro t mode pos start stop h
  obtain ⟨j, hj, heq⟩ := Option.map_eq_some_iff.mp h
  obtain ⟨rfl, rfl⟩ := Prod.mk.inj heq
  exact blank_auto? hj

theorem spaces_hashBang : Spaces hashBang := by
  refine .lexeme (fun t mode pos start stop h => ?_) rfl
  split at h
  · next hstart =>
    obtain ⟨rfl, -⟩ := Prod.mk.inj (Option.some.inj h)
    simp only [Bool.and_eq_true, beq_iff_eq] at hstart
    exact hstart.1 ▸ .here
  · cases h

theorem spaces_form (r : Rule) : Spaces (form r) := by
  cases r <;>
    repeat' first
      | constructor
      | with_reducible exact skips_next _
      | with_reducible exact skips_here _
      | with_reducible exact skips_lineEnd _

/-! Runs -/

/-- What forms have read with a number of steps is laid out between the two positions. -/
def RunsLaid (t : Input) (n : Nat) : Prop :=
  ∀ (f : Shape) (mode : Mode) (pos : Nat) (xs : List Node) (q : Nat), checked f = true →
    Spaces f → run form t n f mode pos = some (xs, q) → Laid t pos xs q

theorem ne_comment {k : Kind} (h : (k == .comment) = false) : k ≠ .comment := by
  rintro rfl
  cases h

/-- Forms of two nodes read an even number of them again and again. -/
theorem length_many {pair : Shape} (hcheck : checked pair = true) (hwidth : width pair = some 2)
    {mode : Mode} {pos q : Nat} {xs : List Node}
    (h : Reads form t (.many pair) mode pos xs q) : xs.length % 2 = 0 := by
  generalize hmany : Form.many pair = f at h
  induction h with
  | many_nil => rfl
  | many_append hpair _ _ ih =>
    cases hmany
    have hlength := (described_of_reads hpair hcheck).width 2 hwidth
    have hrest := ih rfl
    rw [List.length_append]
    omega
  | _ => cases hmany

theorem Spaces.grow {base : Shape} {steps : List Step} (h : Spaces (.grow base steps)) :
    Spaces base ∧ ∀ step ∈ steps, step.1 ≠ .comment ∧ Spaces step.2.2.2 := by
  induction steps with
  | nil =>
    cases h with
    | grow_nil hbase => exact ⟨hbase, by simp⟩
  | cons step steps ih =>
    cases h with
    | grow_cons hf hbase hk =>
      obtain ⟨hbase, hsteps⟩ := ih hbase
      exact ⟨hbase, List.forall_mem_cons.mpr ⟨⟨ne_comment hk, hf⟩, hsteps⟩⟩

theorem laid_operators {pair : Shape} (hcheck : checked pair = true)
    (hwidth : width pair = some 2) {mode : Mode} {pos p q : Nat} {x : Node} {ys : List Node}
    (hx : Laid t pos [x] p) (hys : Laid t p ys q) (hpairs : Reads form t (.many pair) mode p ys q) :
    Laid t pos [(group t (ys.length + 1) x 0 (pairsOf ys)).1] q := by
  have hflat : flat (pairsOf ys) = ys := flat_pairsOf (length_many hcheck hwidth hpairs)
  have hlaid : Laid t pos (x :: flat (pairsOf ys)) q := hflat.symm ▸ hx.append hys
  have hgroup := laid_group (ys.length + 1) 0 hlaid
  rwa [group_rest t x (Nat.lt_succ_of_le (length_pairsOf_le ys))] at hgroup

/-- One case for each way to read. -/
theorem laid_of_reads {f : Shape} {mode : Mode} {pos q : Nat} {xs : List Node}
    (h : Reads form t f mode pos xs q) (hcheck : checked f = true) (hspaces : Spaces f) :
    Laid t pos xs q := by
  induction h with
  | empty | many_nil | ahead | notAhead => exact laid_nil t _
  | lexeme hscan =>
    cases hspaces with
    | lexeme hskips hk => exact laid_leaf (ne_comment hk) (hskips _ _ _ _ _ hscan)
  | @rule r _ _ _ _ _ ih => exact ih (checked_form r) (spaces_form r)
  | both _ _ ihf ihg =>
    simp only [checked, Bool.and_eq_true] at hcheck
    cases hspaces with
    | both hf hg => exact (ihf hcheck.1 hf).append (ihg hcheck.2 hg)
  | left _ ihf =>
    simp only [checked, Bool.and_eq_true] at hcheck
    cases hspaces with
    | either hf _ => exact ihf hcheck.1 hf
  | right _ ihg =>
    simp only [checked, Bool.and_eq_true] at hcheck
    cases hspaces with
    | either _ hg => exact ihg hcheck.2 hg
  | many_append _ _ ihf ihmany =>
    cases hspaces with
    | many hf => exact (ihf hcheck hf).append (ihmany hcheck (.many hf))
  | node _ ihf =>
    simp only [checked, Bool.and_eq_true] at hcheck
    cases hspaces with
    | node hf hk => exact laid_assemble (ihf hcheck.2 hf) (ne_comment hk) fun _ => rfl
  | role _ ihf =>
    cases hspaces with
    | role hf => exact (ihf hcheck hf).withRole _
  | given _ ihf =>
    cases hspaces with
    | given hf => exact ihf hcheck hf
  | inMode _ ihf =>
    cases hspaces with
    | inMode hf => exact ihf hcheck hf
  | keeping _ ihf =>
    cases hspaces with
    | keeping hf => exact ihf hcheck hf
  | grow_base _ ihbase =>
    simp only [checked, Bool.and_eq_true] at hcheck
    exact ihbase hcheck.1 hspaces.grow.1
  | @grow_step _ _ _ _ _ _ _ _ _ role _ _ _ hstep _ ihx ihf =>
    have hsteps := hcheck
    simp only [checked, Bool.and_eq_true] at hsteps
    obtain ⟨hk, hf⟩ := hspaces.grow.2 _ hstep
    have hx := ihx hcheck hspaces
    have hys := ihf (stepChecked_of_mem hsteps.2 hstep).checked hf
    -- the node keeps its place under the role that the step gives it
    cases role with
    | none => exact laid_assemble_cons (hx.append hys) hk _
    | some r => exact laid_assemble_cons ((hx.withRole r).append hys) hk _
  | operators _ hpairs ihx ihpairs =>
    simp only [checked, Bool.and_eq_true] at hcheck
    cases hspaces with
    | operators hoperand hpair hwidth =>
      exact laid_operators hcheck.2 hwidth (ihx hcheck.1 hoperand) (ihpairs hcheck.2 (.many hpair))
        hpairs
  | terminated _ hend ihf =>
    cases hspaces with
    | terminated hf => exact (ihf hcheck hf).append (laid_leaf (by decide) (blank_find? hend))

/-- What a form has read is laid out between the two positions. -/
theorem runsLaid (t : Input) (n : Nat) : RunsLaid t n := fun _ _ _ _ _ hcheck hspaces hrun =>
  laid_of_reads (reads_of_run hrun) hcheck hspaces

end Grammar

/-- The comments before and after the statements of a file become neighbours of theirs. -/
theorem Laid.root {xs : List Node} (h : Laid t 0 xs j) (hend : Blank t j t.size) :
    (rootOf t xs).AllSpaced t := by
  obtain ⟨k, hchildren⟩ : ∃ k, Laid t 0 (rootOf t xs).children k := by
    cases xs with
    | nil =>
      cases h.tiled with
      | nil =>
        obtain ⟨k, hleading, hblank⟩ := laid_comments hend
        obtain ⟨l, htrailing, -⟩ := laid_comments (t := t) (i := t.size) .here
        obtain ⟨l', htrailing'⟩ := htrailing.after hblank
        exact ⟨l', (hleading.append (laid_nil t k)).append htrailing'⟩
    | cons x xs =>
      cases h.tiled with
      | cons hgap hrest =>
        obtain ⟨k, hleading, hblank⟩ := laid_comments hgap
        obtain ⟨l, htrailing, -⟩ := laid_comments hend
        have hitems : Laid t k (x :: xs) j := ⟨.cons hblank hrest, h.spaced⟩
        obtain rfl := hitems.tiled.stop t.size
        exact ⟨l, (hleading.append (laid_withComments hitems)).append htrailing⟩
  intro m hm
  rcases Node.mem_preorder.mp hm with rfl | ⟨c, hc, hm⟩
  · exact ⟨⟨k, hchildren.tiled⟩, nofun⟩
  · exact hchildren.spaced c hc m hm

/-- In a tree that is read, nothing but white space and comments stands between neighbours. -/
theorem allSpaced_of_parse? {d : Dialect} {s : String} {p : Parsed} (h : parse? d s = some p) :
    p.root.AllSpaced p.input := by
  obtain ⟨-, -, items, stop, hroot, hrun, hend⟩ := exists_run_of_parse? h
  have hfile : Grammar.Spaces Grammar.file :=
    .both (.either Grammar.spaces_hashBang .empty) (.many .rule)
  have hitems := Grammar.runsLaid _ _ _ _ _ _ _ Grammar.checked_file hfile hrun
  rw [hroot]
  exact hitems.root (hend ▸ blank_skip _ stop)

/-- From a position on to a node there are only punctuation, white space and comments if there is
nothing else among the nodes before it. -/
theorem Tiled.passes {xs ys : List Node} {n : Node} (h : Tiled t i (xs ++ n :: ys) j)
    (hxs : ∀ x ∈ xs, x.kind = .token ∨ Trivia.commentEnd? t x.start = some x.stop) :
    Passes t (xs.filter fun x => x.kind == .token) i n.start := by
  induction xs generalizing i with
  | nil =>
    cases h with
    | cons hgap _ => exact hgap
  | cons x xs ih =>
    obtain ⟨hx, hxs⟩ := List.forall_mem_cons.mp hxs
    cases h with
    | cons hgap h =>
      have hgap' : Passes t ((x :: xs).filter fun x => x.kind == .token) i x.start :=
        hgap.mono (List.nil_subset _)
      have hrest : Passes t ((x :: xs).filter fun x => x.kind == .token) x.stop n.start :=
        (ih h hxs).mono ((List.sublist_cons_self x xs).filter _).subset
      refine hgap'.trans ?_
      by_cases htoken : x.kind = .token
      · exact .node (List.mem_filter.mpr ⟨List.mem_cons_self, by simp [htoken]⟩) hrest
      · exact .comment (hx.resolve_left htoken) hrest

end CodeIndex.Source
