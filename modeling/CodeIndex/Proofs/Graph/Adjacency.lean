import CodeIndex.Graph.Adjacency
import Mathlib.Data.String.Basic
import Mathlib.Data.List.Sort

/-!
A graph that is built from pairs is in normal form: its sources ascend, the targets of each source
ascend, and no source is without targets. Two graphs in normal form with the same pairs are equal,
so a graph depends on the set of its pairs alone.
-/
namespace CodeIndex.Graph

theorem mem_insertSorted {x y : String} {xs : List String} :
    y ∈ insertSorted x xs ↔ y = x ∨ y ∈ xs := by
  induction xs with
  | nil => simp [insertSorted]
  | cons a xs ih =>
    unfold insertSorted
    split
    · simp
    · split
      · next heq => simp [heq]
      · simp only [List.mem_cons, ih]
        exact or_left_comm

theorem pairwise_insertSorted {x : String} {xs : List String} (h : xs.Pairwise (· < ·)) :
    (insertSorted x xs).Pairwise (· < ·) := by
  induction xs with
  | nil => simp [insertSorted]
  | cons a xs ih =>
    obtain ⟨hfirst, hrest⟩ := List.pairwise_cons.mp h
    unfold insertSorted
    split
    · next hlt =>
      refine List.pairwise_cons.mpr ⟨fun y hy => ?_, h⟩
      rcases List.mem_cons.mp hy with rfl | hy
      · exact hlt
      · exact hlt.trans (hfirst y hy)
    · next hle =>
      split
      · exact h
      · next hne =>
        refine List.pairwise_cons.mpr ⟨fun y hy => ?_, ih hrest⟩
        rcases mem_insertSorted.mp hy with rfl | hy
        · exact lt_of_le_of_ne (not_lt.mp hle) (Ne.symm hne)
        · exact hfirst y hy

namespace Adjacency

/-- A graph leads from one file to another. -/
def HasPair (g : Adjacency) (p : String × String) : Prop :=
  ∃ e ∈ g.entries, e.1 = p.1 ∧ p.2 ∈ e.2

/-- Sources and targets ascend, and every source has a target. -/
structure Normal (g : Adjacency) : Prop where
  sources : g.entries.Pairwise fun a b => a.1 < b.1
  targets : ∀ e ∈ g.entries, e.2.Pairwise (· < ·)
  ne_nil : ∀ e ∈ g.entries, e.2 ≠ []

/-- The entries after an insertion: the one of the source, with one more target, and the others. -/
theorem mem_insertEntry {source target : String} {entries : List (String × List String)}
    (h : entries.Pairwise fun a b => a.1 < b.1) {e : String × List String} :
    e ∈ insertEntry source target entries ↔
      (e ∈ entries ∧ e.1 ≠ source) ∨
        (e = (source, [target]) ∧ ∀ x ∈ entries, x.1 ≠ source) ∨
        ∃ ts, (source, ts) ∈ entries ∧ e = (source, insertSorted target ts) := by
  induction entries with
  | nil => simp [insertEntry]
  | cons a rest ih =>
    obtain ⟨name, ts⟩ := a
    obtain ⟨hfirst, hrest⟩ := List.pairwise_cons.mp h
    unfold insertEntry
    split
    · next hlt =>
      have hall : ∀ x ∈ (name, ts) :: rest, x.1 ≠ source := by
        intro x hx
        rcases List.mem_cons.mp hx with rfl | hx
        · exact hlt.ne'
        · exact (hlt.trans (hfirst x hx)).ne'
      constructor
      · intro he
        rcases List.mem_cons.mp he with rfl | he
        · exact .inr (.inl ⟨rfl, hall⟩)
        · exact .inl ⟨he, hall e he⟩
      · rintro (⟨he, -⟩ | ⟨rfl, -⟩ | ⟨ts', hts', -⟩)
        · exact List.mem_cons_of_mem _ he
        · exact List.mem_cons_self
        · exact absurd rfl (hall _ hts')
    · next hle =>
      split
      · next heq =>
        subst heq
        have hothers : ∀ x ∈ rest, x.1 ≠ source := fun x hx => (hfirst x hx).ne'
        constructor
        · intro he
          rcases List.mem_cons.mp he with rfl | he
          · exact .inr (.inr ⟨ts, List.mem_cons_self, rfl⟩)
          · exact .inl ⟨List.mem_cons_of_mem _ he, hothers e he⟩
        · rintro (⟨he, hne⟩ | ⟨-, hnone⟩ | ⟨ts', hts', rfl⟩)
          · rcases List.mem_cons.mp he with rfl | he
            · exact absurd rfl hne
            · exact List.mem_cons_of_mem _ he
          · exact absurd rfl (hnone _ List.mem_cons_self)
          · rcases List.mem_cons.mp hts' with hsame | hts'
            · rw [(Prod.mk.inj hsame).2]
              exact List.mem_cons_self
            · exact absurd rfl (hothers _ hts')
      · next hne =>
        have hname : name ≠ source := Ne.symm hne
        rw [List.mem_cons, ih hrest]
        constructor
        · rintro (rfl | ⟨he, hother⟩ | ⟨rfl, hnone⟩ | ⟨ts', hts', rfl⟩)
          · exact .inl ⟨List.mem_cons_self, hname⟩
          · exact .inl ⟨List.mem_cons_of_mem _ he, hother⟩
          · refine .inr (.inl ⟨rfl, fun x hx => ?_⟩)
            rcases List.mem_cons.mp hx with rfl | hx
            · exact hname
            · exact hnone x hx
          · exact .inr (.inr ⟨ts', List.mem_cons_of_mem _ hts', rfl⟩)
        · rintro (⟨he, hother⟩ | ⟨rfl, hnone⟩ | ⟨ts', hts', rfl⟩)
          · rcases List.mem_cons.mp he with rfl | he
            · exact .inl rfl
            · exact .inr (.inl ⟨he, hother⟩)
          · exact .inr (.inr (.inl ⟨rfl, fun x hx => hnone x (List.mem_cons_of_mem _ hx)⟩))
          · rcases List.mem_cons.mp hts' with hsame | hts'
            · exact absurd (Prod.mk.inj hsame).1.symm hname
            · exact .inr (.inr (.inr ⟨ts', hts', rfl⟩))

theorem pairwise_insertEntry {source target : String} {entries : List (String × List String)}
    (h : entries.Pairwise fun a b => a.1 < b.1) :
    (insertEntry source target entries).Pairwise fun a b => a.1 < b.1 := by
  induction entries with
  | nil => simp [insertEntry]
  | cons a rest ih =>
    obtain ⟨name, ts⟩ := a
    obtain ⟨hfirst, hrest⟩ := List.pairwise_cons.mp h
    unfold insertEntry
    split
    · next hlt =>
      refine List.pairwise_cons.mpr ⟨fun x hx => ?_, h⟩
      rcases List.mem_cons.mp hx with rfl | hx
      · exact hlt
      · exact hlt.trans (hfirst x hx)
    · next hle =>
      split
      · exact List.pairwise_cons.mpr ⟨hfirst, hrest⟩
      · next hne =>
        have hlt : name < source := lt_of_le_of_ne (not_lt.mp hle) (Ne.symm hne)
        refine List.pairwise_cons.mpr ⟨fun x hx => ?_, ih hrest⟩
        rcases (mem_insertEntry hrest).mp hx with ⟨hx, -⟩ | ⟨rfl, -⟩ | ⟨ts', -, rfl⟩
        · exact hfirst x hx
        · exact hlt
        · exact hlt

theorem Normal.insert {g : Adjacency} (h : g.Normal) (source target : String) :
    (g.insert source target).Normal := by
  refine ⟨pairwise_insertEntry h.sources, fun e he => ?_, fun e he => ?_⟩
  · rcases (mem_insertEntry h.sources).mp he with ⟨he, -⟩ | ⟨rfl, -⟩ | ⟨ts, hts, rfl⟩
    · exact h.targets e he
    · exact List.pairwise_singleton _ _
    · exact pairwise_insertSorted (h.targets _ hts)
  · rcases (mem_insertEntry h.sources).mp he with ⟨he, -⟩ | ⟨rfl, -⟩ | ⟨ts, -, rfl⟩
    · exact h.ne_nil e he
    · simp
    · exact List.ne_nil_of_mem (mem_insertSorted.mpr (.inl rfl))

theorem Normal.hasPair_insert {g : Adjacency} (h : g.Normal) (source target : String)
    {p : String × String} :
    (g.insert source target).HasPair p ↔ p = (source, target) ∨ g.HasPair p := by
  obtain ⟨a, b⟩ := p
  constructor
  · rintro ⟨e, he, rfl, hb⟩
    rcases (mem_insertEntry h.sources).mp he with ⟨he, -⟩ | ⟨rfl, -⟩ | ⟨ts, hts, rfl⟩
    · exact .inr ⟨e, he, rfl, hb⟩
    · exact .inl (by simpa using hb)
    · rcases mem_insertSorted.mp hb with hnew | hb
      · exact .inl (Prod.ext rfl hnew)
      · exact .inr ⟨_, hts, rfl, hb⟩
  · rintro (heq | ⟨e, he, rfl, hb⟩)
    · obtain ⟨rfl, rfl⟩ := Prod.mk.inj heq
      by_cases hsource : ∃ ts, (a, ts) ∈ g.entries
      · obtain ⟨ts, hts⟩ := hsource
        exact ⟨_, (mem_insertEntry h.sources).mpr (.inr (.inr ⟨ts, hts, rfl⟩)), rfl,
          mem_insertSorted.mpr (.inl rfl)⟩
      · refine ⟨_, (mem_insertEntry h.sources).mpr (.inr (.inl ⟨rfl, ?_⟩)), rfl, by simp⟩
        rintro ⟨name, ts⟩ hx rfl
        exact hsource ⟨ts, hx⟩
    · by_cases hsource : e.1 = source
      · subst hsource
        exact ⟨_, (mem_insertEntry h.sources).mpr (.inr (.inr ⟨e.2, he, rfl⟩)), rfl,
          mem_insertSorted.mpr (.inr hb)⟩
      · exact ⟨e, (mem_insertEntry h.sources).mpr (.inl ⟨he, hsource⟩), rfl, hb⟩

theorem normal_empty : empty.Normal := by
  constructor <;> simp [empty]

/-- A graph of pairs is in normal form and has exactly these pairs. -/
theorem normal_ofPairs (pairs : List (String × String)) :
    (ofPairs pairs).Normal ∧ ∀ p, (ofPairs pairs).HasPair p ↔ p ∈ pairs := by
  have hfold : ∀ (pairs : List (String × String)) (g : Adjacency), g.Normal →
      (pairs.foldl (fun g p => g.insert p.1 p.2) g).Normal ∧
        ∀ p, (pairs.foldl (fun g p => g.insert p.1 p.2) g).HasPair p ↔ p ∈ pairs ∨ g.HasPair p := by
    intro pairs
    induction pairs with
    | nil => exact fun g hg => ⟨hg, by simp⟩
    | cons q rest ih =>
      intro g hg
      obtain ⟨hnormal, hpairs⟩ := ih _ (hg.insert q.1 q.2)
      refine ⟨hnormal, fun p => ?_⟩
      rw [List.foldl_cons, hpairs, hg.hasPair_insert, List.mem_cons]
      exact or_left_comm.trans (or_assoc.symm)
  obtain ⟨hnormal, hpairs⟩ := hfold pairs empty normal_empty
  refine ⟨hnormal, fun p => ?_⟩
  rw [show ofPairs pairs = pairs.foldl (fun g p => g.insert p.1 p.2) empty from rfl, hpairs]
  simp [HasPair, empty]

/-- The targets of a source in normal form are those of its pairs. -/
theorem Normal.mem_targets {g : Adjacency} (h : g.Normal) {source target : String}
    {ts : List String} (hts : (source, ts) ∈ g.entries) :
    target ∈ ts ↔ g.HasPair (source, target) := by
  constructor
  · exact fun htarget => ⟨_, hts, rfl, htarget⟩
  · rintro ⟨⟨name, ts'⟩, he, rfl, htarget⟩
    have hkeys : (g.entries.map Prod.fst).Nodup :=
      (List.pairwise_map.mpr h.sources).imp fun hlt => hlt.ne
    have hsame := List.inj_on_of_nodup_map hkeys he hts rfl
    rw [(Prod.mk.inj hsame).2] at htarget
    exact htarget

theorem Normal.entries_subset {g g' : Adjacency} (h : g.Normal) (h' : g'.Normal)
    (hpairs : ∀ p, g.HasPair p ↔ g'.HasPair p) : g.entries ⊆ g'.entries := by
  rintro ⟨source, ts⟩ hts
  obtain ⟨target, htarget⟩ := List.exists_mem_of_ne_nil _ (h.ne_nil _ hts)
  obtain ⟨⟨name, ts'⟩, hts', rfl, -⟩ := (hpairs (source, target)).mp ⟨_, hts, rfl, htarget⟩
  have hsame : ts = ts' := by
    apply (h.targets _ hts).eq_of_mem_iff (h'.targets _ hts')
    intro t
    rw [h.mem_targets hts, h'.mem_targets hts', hpairs]
  rw [hsame]
  exact hts'

/-- Graphs in normal form with the same pairs are equal. -/
theorem Normal.ext {g g' : Adjacency} (h : g.Normal) (h' : g'.Normal)
    (hpairs : ∀ p, g.HasPair p ↔ g'.HasPair p) : g = g' := by
  let before : String × List String → String × List String → Prop := fun a b => a.1 < b.1
  have hirrefl : Std.Irrefl before := ⟨fun a => lt_irrefl a.1⟩
  have hantisymm : Std.Antisymm before := ⟨fun a b hab hba => absurd hba (lt_asymm hab)⟩
  have hentries : g.entries = g'.entries :=
    List.Subset.antisymm_of_pairwise (r := before) h.sources h'.sources
      (h.entries_subset h' hpairs) (h'.entries_subset h fun p => (hpairs p).symm)
  cases g
  cases g'
  exact congrArg Adjacency.mk hentries

/-- A graph depends on the set of its pairs alone. -/
theorem ofPairs_congr {pairs pairs' : List (String × String)}
    (h : ∀ p, p ∈ pairs ↔ p ∈ pairs') : ofPairs pairs = ofPairs pairs' := by
  obtain ⟨hnormal, hpairs⟩ := normal_ofPairs pairs
  obtain ⟨hnormal', hpairs'⟩ := normal_ofPairs pairs'
  exact hnormal.ext hnormal' fun p => by rw [hpairs, hpairs', h]

end Adjacency

end CodeIndex.Graph
