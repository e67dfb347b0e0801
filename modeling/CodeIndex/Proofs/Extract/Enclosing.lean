import CodeIndex.Proofs.Extract.Locals

/-!
The symbol that a reference is taken to stand in. It is chosen by lines: among the symbols whose
lines hold that of the reference, one with the fewest lines. Positions and lines agree as long as a
line belongs to one declaration alone. So the declaration that is chosen covers the reference unless
the reference shares the first or last line of it, and no declaration inside it is closer unless it
has the very same lines.
-/
namespace CodeIndex.Extract

open Source Symbols

/-! The choice -/

/-- The first of the symbols on a line, where no other one of them encloses the line more closely. -/
def Innermost (symbols : List Symbol) (line : Nat) (s : Symbol) : Prop :=
  ∃ before after, symbols.filter (fun t => t.covers line) = before ++ s :: after ∧
    (∀ t ∈ before, encloses s t = true) ∧ ∀ t ∈ after, encloses t s = false

theorem encloses_iff {a b : Symbol} : encloses a b = true ↔
    a.lineEnd - a.lineStart < b.lineEnd - b.lineStart ∨
      a.lineEnd - a.lineStart = b.lineEnd - b.lineStart ∧ b.lineStart < a.lineStart := by
  simp [encloses]

theorem encloses_trans {a b c : Symbol} (hab : encloses a b = true) (hbc : encloses c b = false) :
    encloses a c = true := by
  rw [← Bool.not_eq_true, encloses_iff] at hbc
  rw [encloses_iff] at hab ⊢
  omega

theorem encloses_asymm {a b : Symbol} (h : encloses a b = true) : encloses b a = false := by
  rw [← Bool.not_eq_true, encloses_iff]
  rw [encloses_iff] at h
  omega

theorem closest_eq_some {b s : Symbol} {rest : List Symbol}
    (h : closest (some b) rest = some s) : ∃ before after, b :: rest = before ++ s :: after ∧
      (∀ t ∈ before, encloses s t = true) ∧ ∀ t ∈ after, encloses t s = false := by
  induction rest generalizing b with
  | nil =>
    obtain rfl := Option.some.inj h
    exact ⟨[], [], rfl, by simp, by simp⟩
  | cons t rest ih =>
    rw [closest] at h
    split at h
    · next hcloser =>
      obtain ⟨before, after, hsplit, hbefore, hafter⟩ := ih h
      refine ⟨b :: before, after, by rw [hsplit, List.cons_append], ?_, hafter⟩
      -- what is chosen is the new best symbol or encloses more closely than it
      have hs : encloses s b = true := by
        cases before with
        | nil => exact (List.cons.inj hsplit).1 ▸ hcloser
        | cons u before =>
          obtain rfl := (List.cons.inj hsplit).1
          exact encloses_trans (hbefore t List.mem_cons_self) (encloses_asymm hcloser)
      exact List.forall_mem_cons.mpr ⟨hs, hbefore⟩
    · next hfarther =>
      rw [Bool.not_eq_true] at hfarther
      obtain ⟨before, after, hsplit, hbefore, hafter⟩ := ih h
      cases before with
      | nil =>
        obtain ⟨rfl, rfl⟩ := List.cons.inj hsplit
        exact ⟨[], t :: rest, rfl, by simp, List.forall_mem_cons.mpr ⟨hfarther, hafter⟩⟩
      | cons u before =>
        obtain ⟨rfl, rfl⟩ := List.cons.inj hsplit
        obtain ⟨hb, hbefore⟩ := List.forall_mem_cons.mp hbefore
        have ht : encloses s t = true := encloses_trans hb hfarther
        refine ⟨b :: t :: before, after, rfl, ?_, hafter⟩
        exact List.forall_mem_cons.mpr ⟨hb, List.forall_mem_cons.mpr ⟨ht, hbefore⟩⟩

theorem innermost_of_enclosing? {symbols : List Symbol} {line : Nat} {s : Symbol}
    (h : enclosing? symbols line = some s) : Innermost symbols line s := by
  unfold enclosing? at h
  unfold Innermost
  cases hfilter : symbols.filter fun t => t.covers line with
  | nil =>
    rw [hfilter] at h
    cases h
  | cons b rest =>
    rw [hfilter] at h
    exact closest_eq_some h

theorem exists_closest (b : Symbol) (rest : List Symbol) : ∃ s, closest (some b) rest = some s := by
  induction rest generalizing b with
  | nil => exact ⟨b, rfl⟩
  | cons t rest ih => exact ih _

theorem exists_enclosing? {symbols : List Symbol} {line : Nat} {s : Symbol} (hs : s ∈ symbols)
    (hcovers : s.covers line = true) : ∃ t, enclosing? symbols line = some t := by
  have hmem : s ∈ symbols.filter fun t => t.covers line := List.mem_filter.mpr ⟨hs, hcovers⟩
  unfold enclosing?
  cases hfilter : symbols.filter fun t => t.covers line with
  | nil =>
    rw [hfilter] at hmem
    cases hmem
  | cons b rest => exact exists_closest b rest

namespace Innermost

variable {symbols : List Symbol} {line : Nat} {s t : Symbol}

theorem mem_and_covers (h : Innermost symbols line s) : s ∈ symbols ∧ s.covers line = true := by
  obtain ⟨before, after, hfilter, -⟩ := h
  have hmem : s ∈ symbols.filter fun t => t.covers line :=
    hfilter ▸ List.mem_append_right _ List.mem_cons_self
  exact List.mem_filter.mp hmem

theorem not_encloses (h : Innermost symbols line s) (ht : t ∈ symbols)
    (hcovers : t.covers line = true) : encloses t s = false := by
  obtain ⟨before, after, hfilter, hbefore, hafter⟩ := h
  have hmem : t ∈ symbols.filter fun t => t.covers line := List.mem_filter.mpr ⟨ht, hcovers⟩
  rw [hfilter] at hmem
  rcases List.mem_append.mp hmem with hmem | hmem
  · exact encloses_asymm (hbefore t hmem)
  rcases List.mem_cons.mp hmem with rfl | hmem
  · rw [← Bool.not_eq_true, encloses_iff]
    omega
  · exact hafter t hmem

end Innermost

/-! Positions and lines -/

/-- The position of a reference in its file. -/
def StandsAt (p : Parsed) (r : Reference) (i : Nat) : Prop :=
  i ≤ p.input.size ∧ r.line = (p.input.place i).line ∧ r.column = (p.input.place i).column

/-- A symbol that a reference at a position is taken to stand in. -/
structure Chosen (path : String) (p : Parsed) (symbols : List Symbol) (r : Reference) (i : Nat)
    (s : Symbol) : Prop where
  innermost : Innermost symbols r.line s
  declared : ∃ n, DeclaredBy path p s n
  around : ∀ n, DeclaredBy path p s n →
    n.Covers i ∨ (i < n.start ∧ r.line = s.lineStart) ∨ (n.stop ≤ i ∧ r.line = s.lineEnd)
  closest : ∀ n, DeclaredBy path p s n → ∀ t ∈ symbols, ∀ m, DeclaredBy path p t m →
    n.IsAbove m → m.Covers i → t.lineStart = s.lineStart ∧ t.lineEnd = s.lineEnd

/-- The lines of the positions of a file. -/
structure Ruled (p : Parsed) : Prop where
  read : Read p
  lined : Lined p
  mono : ∀ i j, i ≤ j → j ≤ p.input.size → p.lineOf i ≤ p.lineOf j
  size : p.root.stop = p.input.size

variable {path : String} {p : Parsed} {symbols : List Symbol} {r : Reference} {i : Nat}
  {s t : Symbol} {n m : Node}

theorem Ruled.covers (h : Ruled p) (hn : DeclaredBy path p s n) (hi : n.Covers i) :
    s.covers (p.lineOf i) = true := by
  have hplaced := hn.placed h.read h.lined
  obtain ⟨-, -, hstop⟩ := h.read.inside hplaced.node
  have hsize := h.size
  unfold Node.Covers at hi
  have hfirst : p.lineOf n.start ≤ p.lineOf i := h.mono _ _ hi.1 (by omega)
  have hlast : p.lineOf i ≤ p.lineOf n.stop := h.mono _ _ (Nat.le_of_lt hi.2) (by omega)
  rw [Symbol.covers, hplaced.first, hplaced.last, Bool.and_eq_true, decide_eq_true_eq,
    decide_eq_true_eq]
  exact ⟨hfirst, hlast⟩

/-- A declaration on the line of a position covers it, or shares its first or last line with it. -/
theorem Ruled.around (h : Ruled p) (hn : DeclaredBy path p s n) (hi : i ≤ p.input.size)
    (hcovers : s.covers (p.lineOf i) = true) :
    n.Covers i ∨ (i < n.start ∧ p.lineOf i = s.lineStart) ∨
      (n.stop ≤ i ∧ p.lineOf i = s.lineEnd) := by
  have hplaced := hn.placed h.read h.lined
  obtain ⟨hrange, -, hstop⟩ := h.read.inside hplaced.node
  have hsize := h.size
  rw [Symbol.covers, Bool.and_eq_true, decide_eq_true_eq, decide_eq_true_eq] at hcovers
  unfold Node.Covers
  rcases Nat.lt_or_ge i n.start with hbefore | hstart
  · have hle : p.lineOf i ≤ p.lineOf n.start := h.mono _ _ (Nat.le_of_lt hbefore) (by omega)
    exact .inr (.inl ⟨hbefore, Nat.le_antisymm (hplaced.first ▸ hle) hcovers.1⟩)
  · rcases Nat.lt_or_ge i n.stop with hinside | hafter
    · exact .inl ⟨hstart, hinside⟩
    · have hle : p.lineOf n.stop ≤ p.lineOf i := h.mono _ _ hafter hi
      exact .inr (.inr ⟨hafter, Nat.le_antisymm hcovers.2 (hplaced.last ▸ hle)⟩)

/-- A declaration inside the one that is chosen is not chosen itself only if it has the same
lines. -/
theorem Ruled.same_lines (h : Ruled p) (hs : Innermost symbols (p.lineOf i) s)
    (hn : DeclaredBy path p s n) (ht : t ∈ symbols) (hm : DeclaredBy path p t m)
    (habove : n.IsAbove m) (hi : m.Covers i) :
    t.lineStart = s.lineStart ∧ t.lineEnd = s.lineEnd := by
  have hplaced := hn.placed h.read h.lined
  have hinner := hm.placed h.read h.lined
  have hlines := h.lined.inside n hplaced.node m habove.mem_preorder
  have hrange := h.lined.last m hinner.node
  have hcloser := hs.not_encloses ht (h.covers hm hi)
  rw [← hplaced.first, ← hplaced.last, ← hinner.first, ← hinner.last] at hlines
  rw [← hinner.first, ← hinner.last] at hrange
  rw [← Bool.not_eq_true, encloses_iff] at hcloser
  omega

theorem ruled_of_parseFile {content : String} (h : parseFile path content = .ok p) : Ruled p := by
  obtain ⟨d, hparse⟩ := References.parse?_of_parseFile h
  obtain ⟨hinput, cs, hroot, -⟩ := References.parsed_of_parse? hparse
  have hordered : p.input.Ordered := hinput ▸ Input.ordered_ofString content
  exact ⟨read_of_parse? hparse, lined_of_parse? hparse, fun i j => hordered.line_le,
    by rw [hroot, Node.stop]⟩

/-- What the symbol around a reference is. One is named as soon as a declaration of a symbol covers
the reference. The one that is named is declared around the reference, or next to it on its own
first or last line, and a declaration of a symbol inside it that covers the reference has the same
lines as it. -/
theorem extractFile_enclosing {path content : String} {x : Extraction}
    (h : extractFile path content = .ok x) :
    ∃ p, parseFile path content = .ok p ∧ ∀ r ∈ x.references,
      (∃ i, StandsAt p r i) ∧ ∀ i, StandsAt p r i →
        ((∃ s ∈ x.symbols, ∃ n, DeclaredBy path p s n ∧ n.Covers i) →
          r.metadata.enclosing.isSome = true) ∧
        ∀ e, r.metadata.enclosing = some e →
          ∃ s, e = ⟨s.name, s.lineStart⟩ ∧ Chosen path p x.symbols r i s := by
  obtain ⟨p, hp, hsymbols, hreferences⟩ := extractFile_eq_ok h
  have hruled := ruled_of_parseFile hp
  obtain ⟨P, hspread⟩ := References.spread_extract hp
  refine ⟨p, hp, fun r hr => ?_⟩
  rw [hreferences] at hr
  obtain ⟨found, hfound, rfl⟩ := List.mem_map.mp hr
  obtain ⟨i, -, hi⟩ := hspread.inside found hfound
  refine ⟨⟨i, hi⟩, ?_⟩
  rintro i ⟨hsize, hline, -⟩
  have hline : found.line = p.lineOf i := hline
  refine ⟨?_, fun e he => ?_⟩
  · rintro ⟨s, hs, n, hn, hcovers⟩
    obtain ⟨t, ht⟩ := exists_enclosing? hs (hline ▸ hruled.covers hn hcovers)
    simp [withEnclosing, ht]
  · obtain ⟨s, hs, rfl⟩ := Option.map_eq_some_iff.mp he
    have hinnermost := innermost_of_enclosing? hs
    obtain ⟨hmem, hcovers⟩ := hinnermost.mem_and_covers
    refine ⟨s, rfl, hinnermost, exists_declaredBy (hsymbols ▸ hmem), fun n hn => ?_,
      fun n hn t ht m hm => ?_⟩
    · have haround := hruled.around hn hsize (hline ▸ hcovers)
      rw [← hline] at haround
      exact haround
    · exact hruled.same_lines (hline ▸ hinnermost) hn ht hm

/-- A call on a line of its own within a function. -/
theorem extractFile_enclosing_function : ∃ x p r i s n,
    extractFile "a.ts" "function f() {
  g();
}
" = .ok x ∧ r ∈ x.references ∧
      StandsAt p r i ∧ r.metadata.enclosing = some ⟨"f", 1⟩ ∧ s ∈ x.symbols ∧ s.name = "f" ∧
      DeclaredBy "a.ts" p s n ∧ n.Covers i := by
  have hsite : (parseFile "a.ts" "function f() {
  g();
}
").toOption.any (fun p =>
      (contents "a.ts" p).symbols.all (fun s => s.lineStart == 1 && s.lineEnd == 3) &&
        (contents "a.ts" p).references.any fun r =>
          r.line == 2 && r.metadata.enclosing == some ⟨"f", 1⟩) = true := by
    decide +kernel
  obtain ⟨p, -, hx, htest⟩ := exists_parsed hsite
  simp only [Bool.and_eq_true, beq_iff_eq, List.any_eq_true, List.all_eq_true] at htest
  obtain ⟨hsymbols, r, hr, hline, henclosing⟩ := htest
  obtain ⟨q, -, hall⟩ := extractFile_enclosing hx
  obtain ⟨⟨i, hi⟩, hposition⟩ := hall r hr
  obtain ⟨-, hchosen⟩ := hposition i hi
  obtain ⟨s, hs, hchosen⟩ := hchosen _ henclosing
  have hmem := hchosen.innermost.mem_and_covers.1
  obtain ⟨hfirst, hlast⟩ := hsymbols s hmem
  obtain ⟨n, hn⟩ := hchosen.declared
  have hcovers : n.Covers i := by
    rcases hchosen.around n hn with hcovers | ⟨-, hshared⟩ | ⟨-, hshared⟩
    · exact hcovers
    · omega
    · omega
  exact ⟨_, q, r, i, s, n, hx, hr, hi, henclosing, hmem, (Enclosing.mk.inj hs).1.symm, hn,
    hcovers⟩

/-- Only what has no name of its own is named after its context. -/
theorem name?_of_ne_default {ctx : Context} {name : String} (h : name? p ctx n = some name)
    (hne : name ≠ "default") : name? p {} n = some name := by
  unfold name? at h ⊢
  split at h
  · next hproperty => rwa [if_pos hproperty]
  · next hproperty =>
    rw [if_neg hproperty]
    dsimp only at h ⊢
    split at h
    · exact h
    · split at h
      · exact absurd (Option.some.inj h).symm hne
      · cases h

/-- On a line that holds a namespace as a whole, a call in a function of the namespace is taken to
stand in the namespace, though the function is declared inside it and around the call. -/
theorem sharedLine_not_innermost : ∃ x p r e,
    extractFile "a.ts" "namespace A { function b() { f(); } }
" = .ok x ∧
      parseFile "a.ts" "namespace A { function b() { f(); } }
" = .ok p ∧
      r ∈ x.references ∧ r.metadata.enclosing = some e ∧
      ¬ ∃ i s n, StandsAt p r i ∧ DeclaredBy "a.ts" p s n ∧ s.name = e.name ∧
        s.lineStart = e.line ∧ n.Covers i ∧
        ∀ t ∈ x.symbols, ∀ m, DeclaredBy "a.ts" p t m → n.IsAbove m → ¬ m.Covers i := by
  have hsite : (parseFile "a.ts"
      "namespace A { function b() { f(); } }
").toOption.any (fun p =>
      (contents "a.ts" p).symbols.any (fun t => t.name == "b") &&
        (contents "a.ts" p).references.any fun r =>
          r.metadata.enclosing == some ⟨"A", 1⟩ && p.root.preorder.all fun n =>
            p.root.preorder.all fun m => name? p {} n != some "A" || name? p {} m != some "b" ||
              (decide (n.start < m.start) && decide (m.start < n.stop) &&
                (List.range (p.input.size + 1)).all fun i =>
                  r.line != (p.input.place i).line || r.column != (p.input.place i).column ||
                    decide (m.start ≤ i) && decide (i < m.stop))) = true := by
    decide +kernel
  obtain ⟨p, hp, hx, htest⟩ := exists_parsed hsite
  simp only [Bool.and_eq_true, beq_iff_eq, List.any_eq_true, List.all_eq_true, Bool.or_eq_true,
    bne_iff_ne, decide_eq_true_eq, List.mem_range] at htest
  obtain ⟨⟨t, ht, hname⟩, r, hr, henclosing, hnodes⟩ := htest
  refine ⟨_, p, r, _, hx, hp, hr, henclosing, ?_⟩
  rintro ⟨i, s, n, ⟨hsize, hline, hcolumn⟩, hn, hsname, -, -, hnone⟩
  obtain ⟨m, hm⟩ := exists_declaredBy ht
  have hntaken := hn.describes
  have hmtaken := hm.describes
  obtain ⟨ctx, hnname⟩ := hntaken.name
  obtain ⟨ctx', hmname⟩ := hmtaken.name
  rw [hsname] at hnname
  rw [hname] at hmname
  have hnamed := name?_of_ne_default hnname (by decide)
  have hnamed' := name?_of_ne_default hmname (by decide)
  rcases hnodes n hntaken.node m hmtaken.node with hne | ⟨⟨hlt, hstop⟩, hcovers⟩
  · exact hne.elim (absurd hnamed) (absurd hnamed')
  · have hrow := (ruled_of_parseFile hp).read.row
    have habove := Node.isAbove_of_start_lt hrow hntaken.node hmtaken.node hlt hstop
    rcases hcovers i (Nat.lt_succ_of_le hsize) with hother | hinside
    · exact hother.elim (absurd hline) (absurd hcolumn)
    · exact hnone t ht m hm habove hinside

end CodeIndex.Extract
