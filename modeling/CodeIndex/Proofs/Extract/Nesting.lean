import CodeIndex.Proofs.Extract.Places
import CodeIndex.Source.Parse
import Mathlib.Data.List.Pairwise

/-!
Positions and ranges. Different positions of a text have different lines or columns, and the
children of a node in a tree lie one after the other inside its range.
-/
namespace CodeIndex.Source

/-! Lines and columns tell positions apart -/

/-- One place stands before another one in reading order. -/
def Place.Before (p q : Place) : Prop := p.line < q.line ∨ p.line = q.line ∧ p.column < q.column

theorem Place.before_step (p : Place) (c : Char) : p.Before (p.step c) := by
  have hsize := c.utf8Size_pos
  unfold Place.step Place.Before
  split
  · dsimp only
    omega
  · dsimp only
    omega

theorem Place.Before.trans {p q r : Place} (hpq : p.Before q) (hqr : q.Before r) : p.Before r := by
  unfold Place.Before at *
  omega

theorem placesFrom_before {p q : Place} {cs : List Char} (h : q ∈ Input.placesFrom p cs) :
    q = p ∨ p.Before q := by
  induction cs generalizing p with
  | nil => exact .inl (List.mem_singleton.mp h)
  | cons c cs ih =>
    rcases List.mem_cons.mp h with rfl | h
    · exact .inl rfl
    · rcases ih h with rfl | hlater
      · exact .inr (p.before_step c)
      · exact .inr ((p.before_step c).trans hlater)

theorem pairwise_placesFrom (p : Place) (cs : List Char) :
    (Input.placesFrom p cs).Pairwise Place.Before := by
  induction cs generalizing p with
  | nil => exact List.pairwise_singleton _ _
  | cons c cs ih =>
    refine List.pairwise_cons.mpr ⟨?_, ih (p.step c)⟩
    intro q hq
    rcases placesFrom_before hq with rfl | hlater
    · exact p.before_step c
    · exact (p.before_step c).trans hlater

theorem length_placesFrom (p : Place) (cs : List Char) :
    (Input.placesFrom p cs).length = cs.length + 1 := by
  induction cs generalizing p with
  | nil => rfl
  | cons c cs ih => rw [Input.placesFrom, List.length_cons, ih, List.length_cons]

/-- A text whose positions stand in reading order. -/
def Input.Ordered (t : Input) : Prop := ∀ i j, i < j → j ≤ t.size → (t.place i).Before (t.place j)

theorem Input.ordered_ofString (s : String) : (Input.ofString s).Ordered := by
  have hlength := length_placesFrom Place.start s.toList
  have hplace : ∀ i (hi : i < (Input.placesFrom Place.start s.toList).length),
      (Input.ofString s).place i = (Input.placesFrom Place.start s.toList)[i] := by
    intro i hi
    simp [Input.place, Input.ofString, Array.getD_eq_getD_getElem?, List.getElem?_eq_getElem hi]
  intro i j hij hj
  have hsize : (Input.ofString s).size = s.toList.length := by
    simp [Input.size, Input.ofString]
  rw [hplace i (by omega), hplace j (by omega)]
  exact List.pairwise_iff_getElem.mp (pairwise_placesFrom _ _) i j _ _ hij

theorem Input.Ordered.line_le {t : Input} (h : t.Ordered) {i j : Nat} (hij : i ≤ j)
    (hj : j ≤ t.size) : (t.place i).line ≤ (t.place j).line := by
  rcases Nat.lt_or_eq_of_le hij with hlt | rfl
  · have hbefore := h i j hlt hj
    unfold Place.Before at hbefore
    omega
  · exact Nat.le_refl _

/-- The first line has the number one. -/
theorem Input.line_zero (s : String) : ((Input.ofString s).place 0).line = 1 := by
  cases hs : s.toList <;> simp [Input.place, Input.ofString, Input.placesFrom, hs, Place.start]

/-- A text whose positions can be told apart by line and column. -/
def Input.Separates (t : Input) : Prop :=
  ∀ i j, i ≤ t.size → j ≤ t.size → (t.place i).line = (t.place j).line →
    (t.place i).column = (t.place j).column → i = j

theorem Input.separates_ofString (s : String) : (Input.ofString s).Separates := by
  have hordered := Input.ordered_ofString s
  intro i j hi hj hline hcolumn
  rcases Nat.lt_trichotomy i j with hij | rfl | hij
  · have hlt := hordered i j hij hj
    unfold Place.Before at hlt
    omega
  · rfl
  · have hlt := hordered j i hij hi
    unfold Place.Before at hlt
    omega

/-! Ranges -/

namespace Node

/-- The positions that a node covers. -/
def Covers (n : Node) (i : Nat) : Prop := n.start ≤ i ∧ i < n.stop

/-- What is known of a list of nodes between two positions. -/
structure Row (low high : Nat) (cs : List Node) : Prop where
  low_le_high : low ≤ high
  inside : ∀ c ∈ cs, low ≤ c.start ∧ c.stop ≤ high
  nests : ∀ c ∈ cs, c.nests = true
  ordered : cs.Pairwise fun a b => a.stop ≤ b.start

theorem start_le_stop {n : Node} (h : n.nests = true) : n.start ≤ n.stop := by
  cases n with
  | mk k r s e cs =>
    rw [nests, Bool.and_eq_true] at h
    have hrange := h.1
    simp only [start, stop]
    split at hrange
    · simpa using hrange
    · have hlt : s < e := by simpa using hrange
      omega

theorem row_of_nestsFrom {low high : Nat} {cs : List Node} (h : nestsFrom low high cs = true) :
    Row low high cs := by
  induction cs generalizing low with
  | nil =>
    rw [nestsFrom, decide_eq_true_eq] at h
    exact ⟨h, by simp, by simp, .nil⟩
  | cons c cs ih =>
    simp only [nestsFrom, Bool.and_eq_true, decide_eq_true_eq] at h
    obtain ⟨⟨hlow, hnests⟩, hrest⟩ := h
    have hrow := ih hrest
    have hrange := start_le_stop hnests
    refine ⟨by have := hrow.low_le_high; omega, ?_, ?_, ?_⟩
    · intro d hd
      rcases List.mem_cons.mp hd with rfl | hd
      · exact ⟨hlow, hrow.low_le_high⟩
      · have hinside := hrow.inside d hd
        exact ⟨by omega, hinside.2⟩
    · intro d hd
      rcases List.mem_cons.mp hd with rfl | hd
      · exact hnests
      · exact hrow.nests d hd
    · exact List.pairwise_cons.mpr ⟨fun d hd => (hrow.inside d hd).1, hrow.ordered⟩

/-- The children of a node that nests. -/
theorem row_of_nests {n : Node} (h : n.nests = true) : Row n.start n.stop n.children := by
  cases n with
  | mk k r s e cs =>
    rw [nests, Bool.and_eq_true] at h
    exact row_of_nestsFrom h.2

/-- Only punctuation without a role can be empty. -/
theorem start_lt_stop {n : Node} (h : n.nests = true)
    (hkind : n.kind ≠ .token ∨ n.role.isSome = true) : n.start < n.stop := by
  cases n with
  | mk k r s e cs =>
    rw [nests, Bool.and_eq_true] at h
    have hrange := h.1
    split at hrange
    · next hplain =>
      simp only [Bool.and_eq_true, beq_iff_eq, Option.isNone_iff_eq_none] at hplain
      simp [kind, role, hplain.1, hplain.2] at hkind
    · exact of_decide_eq_true hrange

namespace Row

variable {low high : Nat} {cs : List Node}

/-- Two different nodes of a row cover no position in common. -/
theorem disjoint (h : Row low high cs) {c d : Node} (hc : c ∈ cs) (hd : d ∈ cs) (hne : c ≠ d)
    {i : Nat} (hi : c.Covers i) : ¬ d.Covers i := by
  have hsymm : Std.Symm fun a b : Node => a.stop ≤ b.start ∨ b.stop ≤ a.start :=
    ⟨fun _ _ => Or.symm⟩
  have hpairs : cs.Pairwise fun a b => a.stop ≤ b.start ∨ b.stop ≤ a.start :=
    h.ordered.imp Or.inl
  have hapart := hpairs.forall hc hd hne
  intro hj
  unfold Covers at hi hj
  omega

theorem covers (h : Row low high cs) {c : Node} (hc : c ∈ cs) {i : Nat} (hi : c.Covers i) :
    low ≤ i ∧ i < high := by
  have hinside := h.inside c hc
  unfold Covers at hi
  omega

theorem tail {c : Node} (h : Row low high (c :: cs)) : Row c.stop high cs :=
  ⟨(h.inside c List.mem_cons_self).2,
    fun d hd => ⟨(List.pairwise_cons.mp h.ordered).1 d hd,
      (h.inside d (List.mem_cons_of_mem _ hd)).2⟩,
    fun d hd => h.nests d (List.mem_cons_of_mem _ hd), (List.pairwise_cons.mp h.ordered).2⟩

theorem sublist (h : Row low high cs) {ds : List Node} (hsub : ds.Sublist cs) : Row low high ds :=
  ⟨h.low_le_high, fun c hc => h.inside c (hsub.subset hc), fun c hc => h.nests c (hsub.subset hc),
    h.ordered.sublist hsub⟩

end Row

theorem role_of_child? {n c : Node} {r : Role} (h : n.child? r = some c) :
    c ∈ n.children ∧ c.role = some r :=
  ⟨List.mem_of_find?_eq_some h, by simpa using List.find?_some h⟩

end Node

end CodeIndex.Source
