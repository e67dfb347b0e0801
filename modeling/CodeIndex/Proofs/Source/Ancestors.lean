import CodeIndex.Proofs.Extract.Nesting
import CodeIndex.Proofs.Source.Shape

/-!
Nodes below one another. The ranges of a tree lie inside or beside each other, so a node that is not
empty has one parent, and what stands above it is its parent or stands above that.
-/
namespace CodeIndex.Source

/-! Ranges of a tree -/

namespace Node

theorem children_induction {P : Node → Prop} (h : ∀ n, (∀ c ∈ n.children, P c) → P n)
    (n : Node) : P n := by
  cases n with
  | mk k r s e cs =>
    refine h _ fun c (hc : c ∈ cs) => ?_
    have hlt : sizeOf c < sizeOf (mk k r s e cs) := by
      have hlist : sizeOf c < sizeOf cs := List.sizeOf_lt_of_mem hc
      simp only [mk.sizeOf_spec]
      omega
    exact children_induction h c
termination_by sizeOf n

variable {n a b c d : Node}

theorem preorder_subset (ha : a ∈ n.preorder) : a.preorder ⊆ n.preorder := by
  induction n using children_induction with
  | h n ih =>
    rcases mem_preorder.mp ha with rfl | ⟨c, hc, ha⟩
    · exact List.Subset.refl _
    · exact fun d hd => mem_preorder.mpr (.inr ⟨c, hc, ih c hc ha hd⟩)

theorem child_mem_preorder (hc : c ∈ n.children) : c ∈ n.preorder :=
  mem_preorder.mpr (.inr ⟨c, hc, c.self_mem_preorder⟩)

theorem mem_preorder_child (ha : a ∈ n.preorder) (hc : c ∈ a.children) : c ∈ n.preorder :=
  preorder_subset ha (child_mem_preorder hc)

/-- A node below another one stands inside its range. -/
theorem row_of_mem_preorder (h : Row n.start n.stop n.children) (ha : a ∈ n.preorder) :
    Row a.start a.stop a.children ∧ n.start ≤ a.start ∧ a.stop ≤ n.stop := by
  induction n using children_induction with
  | h n ih =>
    rcases mem_preorder.mp ha with rfl | ⟨c, hc, ha⟩
    · exact ⟨h, Nat.le_refl _, Nat.le_refl _⟩
    · obtain ⟨hrow, hstart, hstop⟩ := ih c hc (row_of_nests (h.nests c hc)) ha
      have hinside := h.inside c hc
      exact ⟨hrow, by omega, by omega⟩

theorem nests_of_mem_preorder (h : Row n.start n.stop n.children) (ha : a ∈ n.preorder) :
    a = n ∨ a.nests = true := by
  induction n using children_induction with
  | h n ih =>
    rcases mem_preorder.mp ha with rfl | ⟨c, hc, ha⟩
    · exact .inl rfl
    · rcases ih c hc (row_of_nests (h.nests c hc)) ha with rfl | ha
      · exact .inr (h.nests a hc)
      · exact .inr ha

theorem Row.apart {low high : Nat} {cs : List Node} (h : Row low high cs) (hc : c ∈ cs)
    (hd : d ∈ cs) (hne : c ≠ d) : c.stop ≤ d.start ∨ d.stop ≤ c.start := by
  have hsymm : Std.Symm fun a b : Node => a.stop ≤ b.start ∨ b.stop ≤ a.start :=
    ⟨fun _ _ => Or.symm⟩
  have hpairs : cs.Pairwise fun a b => a.stop ≤ b.start ∨ b.stop ≤ a.start :=
    h.ordered.imp Or.inl
  exact hpairs.forall hc hd hne

/-- Of two nodes of a tree one is below the other, or they stand apart. -/
theorem nested_or_apart (h : Row n.start n.stop n.children) (ha : a ∈ n.preorder)
    (hb : b ∈ n.preorder) :
    a ∈ b.preorder ∨ b ∈ a.preorder ∨ a.stop ≤ b.start ∨ b.stop ≤ a.start := by
  induction n using children_induction with
  | h n ih =>
    rcases mem_preorder.mp ha with rfl | ⟨c, hc, ha'⟩
    · exact .inr (.inl hb)
    rcases mem_preorder.mp hb with rfl | ⟨d, hd, hb'⟩
    · exact .inl ha
    by_cases hcd : c = d
    · subst hcd
      exact ih c hc (row_of_nests (h.nests c hc)) ha' hb'
    · obtain ⟨-, hac⟩ := row_of_mem_preorder (row_of_nests (h.nests c hc)) ha'
      obtain ⟨-, hbd⟩ := row_of_mem_preorder (row_of_nests (h.nests d hd)) hb'
      rcases h.apart hc hd hcd with hapart | hapart
      · exact .inr (.inr (.inl (by omega)))
      · exact .inr (.inr (.inr (by omega)))

/-! Ancestors -/

/-- A proper ancestor of a node. -/
def IsAbove (a n : Node) : Prop := ∃ c ∈ a.children, n ∈ c.preorder

theorem mem_preorder_iff_isAbove : a ∈ n.preorder ↔ a = n ∨ n.IsAbove a := mem_preorder

theorem isAbove_child (hc : c ∈ n.children) : n.IsAbove c := ⟨c, hc, c.self_mem_preorder⟩

theorem IsAbove.mem_preorder (h : a.IsAbove n) : n ∈ a.preorder :=
  mem_preorder_iff_isAbove.mpr (.inr h)

theorem IsAbove.trans_mem (h : a.IsAbove b) (hc : c ∈ b.preorder) : a.IsAbove c := by
  obtain ⟨d, hd, hb⟩ := h
  exact ⟨d, hd, preorder_subset hb hc⟩

theorem IsAbove.child (h : a.IsAbove b) (hc : c ∈ b.children) : a.IsAbove c :=
  h.trans_mem (child_mem_preorder hc)

theorem IsAbove.irrefl (n : Node) : ¬ n.IsAbove n := by
  induction n using children_induction with
  | h n ih =>
    rintro ⟨c, hc, hn⟩
    -- a node below its own child would put the child below itself
    have habove : c.IsAbove c := by
      rcases mem_preorder_iff_isAbove.mp hn with rfl | habove
      · exact isAbove_child hc
      · exact habove.child hc
    exact ih c hc habove

/-- What stands above a child is its parent or stands above the parent. -/
theorem IsAbove.of_child (hrow : Row n.start n.stop n.children) (ha : a ∈ n.preorder)
    (hb : b ∈ n.preorder) (hc : c ∈ b.children) (hlt : c.start < c.stop) (h : a.IsAbove c) :
    a = b ∨ a.IsAbove b := by
  obtain ⟨hbrow, -⟩ := row_of_mem_preorder hrow hb
  have hbc := hbrow.inside c hc
  obtain ⟨harow, -⟩ := row_of_mem_preorder hrow ha
  obtain ⟨-, hac⟩ := row_of_mem_preorder harow h.mem_preorder
  rcases nested_or_apart hrow ha hb with hin | hin | hapart
  · rcases mem_preorder_iff_isAbove.mp hin with rfl | ⟨d, hd, hin⟩
    · exact .inl rfl
    · -- the child that `a` is below covers what `c` covers
      have hsame : d = c := by
        by_contra hne
        have hdrow := row_of_nests (hbrow.nests d hd)
        obtain ⟨-, hda⟩ := row_of_mem_preorder hdrow (preorder_subset hin h.mem_preorder)
        rcases hbrow.apart hd hc hne with hapart | hapart <;> omega
      subst hsame
      rcases mem_preorder_iff_isAbove.mp hin with rfl | hbelow
      · exact absurd h (IsAbove.irrefl _)
      · exact absurd (hbelow.trans_mem h.mem_preorder) (IsAbove.irrefl _)
  · exact (mem_preorder_iff_isAbove.mp hin).imp Eq.symm id
  · omega

theorem parent_unique (hrow : Row n.start n.stop n.children) (ha : a ∈ n.preorder)
    (hb : b ∈ n.preorder) (hca : c ∈ a.children) (hcb : c ∈ b.children) (hlt : c.start < c.stop) :
    a = b := by
  rcases (isAbove_child hca).of_child hrow ha hb hcb hlt with heq | hab
  · exact heq
  rcases (isAbove_child hcb).of_child hrow hb ha hca hlt with heq | hba
  · exact heq.symm
  · exact absurd (hab.trans_mem hba.mem_preorder) (IsAbove.irrefl _)

/-- What starts inside the range of a node, but not where the node starts, stands below it. -/
theorem isAbove_of_start_lt (hrow : Row n.start n.stop n.children) (ha : a ∈ n.preorder)
    (hb : b ∈ n.preorder) (hlt : a.start < b.start) (hstop : b.start < a.stop) :
    a.IsAbove b := by
  obtain ⟨hbrow, -⟩ := row_of_mem_preorder hrow hb
  have hrange := hbrow.low_le_high
  rcases nested_or_apart hrow ha hb with hin | hin | hapart
  · obtain ⟨-, hstart, -⟩ := row_of_mem_preorder hbrow hin
    omega
  · rcases mem_preorder_iff_isAbove.mp hin with rfl | habove
    · omega
    · exact habove
  · omega

end Node

end CodeIndex.Source
