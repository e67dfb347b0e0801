import CodeIndex.Proofs.Resolve.Specifier
import CodeIndex.Resolve.Alias
import Mathlib.Data.List.Induction
import Mathlib.Data.List.TakeWhile
import Mathlib.Data.String.Basic

/-!
Which of the patterns of a configuration takes a specifier. The patterns are sorted by the bytes
before their stars, longest first, and the first one that matches is taken. As what stands before
the star begins the specifier, that pattern has the longest beginning of all that match; and as a
text comes before every longer text that it begins, a pattern without a star comes before the
patterns that go on with one.
-/
namespace CodeIndex.Resolve

open Files.Tree (stripStart_eq_some)

namespace AliasPattern

/-- A specifier fits the pattern that it is, and every pattern that becomes the specifier when a
text takes the place of the first star. -/
def Fits (pattern specifier matched : String) : Prop :=
  ('*' ∉ pattern.toList ∧ specifier = pattern ∧ matched = "") ∨
    ∃ before after, '*' ∉ before.toList ∧ pattern = before ++ "*" ++ after ∧
      specifier = before ++ matched ++ after

/-- What stands before the first star of a pattern; all of a pattern without a star. -/
def lead (pattern : String) : String := String.ofList (pattern.toList.takeWhile (· != '*'))

theorem whole_or_starred (pattern : String) : '*' ∉ pattern.toList ∨
    ∃ before after, '*' ∉ before.toList ∧ pattern = before ++ "*" ++ after := by
  by_cases hstar : '*' ∈ pattern.toList
  · obtain ⟨before, after, hchars, hbefore⟩ := List.eq_append_cons_of_mem hstar
    refine .inr ⟨String.ofList before, String.ofList after, by simpa using hbefore, ?_⟩
    apply String.toList_inj.mp
    simp [hchars]
  · exact .inl hstar

theorem cut_starred {before : String} (h : '*' ∉ before.toList) (after : String) :
    Text.Pieces.cut '*' (before ++ "*" ++ after) = some (before, after) := by
  have hchars : (before ++ "*" ++ after).toList = before.toList ++ '*' :: after.toList := by simp
  rw [Text.Pieces.cut, hchars, Text.Pieces.cutChars_append h]
  simp

theorem cut_whole {pattern : String} (h : '*' ∉ pattern.toList) :
    Text.Pieces.cut '*' pattern = none := by
  rw [Text.Pieces.cut, Text.Pieces.cutChars_eq_none_iff.mpr h, Option.map_none]

theorem lead_whole {pattern : String} (h : '*' ∉ pattern.toList) : lead pattern = pattern := by
  have hall : pattern.toList.takeWhile (· != '*') = pattern.toList :=
    List.takeWhile_eq_self_iff.mpr fun c hc => by
      simp only [bne_iff_ne, ne_eq]
      exact fun hstar => h (hstar ▸ hc)
  rw [lead, hall, String.ofList_toList]

theorem lead_starred {before : String} (h : '*' ∉ before.toList) (after : String) :
    lead (before ++ "*" ++ after) = before := by
  have hall : ∀ c ∈ before.toList, (c != '*') = true := fun c hc => by
    simp only [bne_iff_ne, ne_eq]
    exact fun hstar => h (hstar ▸ hc)
  have hchars : (before ++ "*" ++ after).toList = before.toList ++ '*' :: after.toList := by simp
  rw [lead, hchars, List.takeWhile_append_of_pos hall]
  simp

theorem start_of (pattern : String) (targets : List String) :
    (of pattern targets).start = lead pattern := by
  rcases whole_or_starred pattern with hwhole | ⟨before, after, hbefore, rfl⟩
  · rw [of, cut_whole hwhole, lead_whole hwhole]
  · rw [of, cut_starred hbefore, lead_starred hbefore]

theorem targets_of (pattern : String) (targets : List String) :
    (of pattern targets).targets = targets := by
  unfold of
  split <;> rfl

theorem stripEnd_eq_some {tail s rest : String} :
    Text.Pieces.stripEnd tail s = some rest ↔ s = rest ++ tail := by
  rw [Text.Pieces.stripEnd, Text.Pieces.stripEndChars]
  simp only [Option.map_map, Option.map_eq_some_iff, Files.Tree.stripStartChars_eq_some,
    Function.comp_apply]
  constructor
  · rintro ⟨cs, hcs, rfl⟩
    apply String.toList_inj.mp
    have hreversed := congrArg List.reverse hcs
    simpa using hreversed
  · rintro rfl
    exact ⟨rest.toList.reverse, by simp, by simp⟩

/-- A pattern matches the specifiers that fit it. -/
theorem match?_eq_some_iff {pattern specifier matched : String} {targets : List String} :
    (of pattern targets).match? specifier = some matched ↔ Fits pattern specifier matched := by
  rcases whole_or_starred pattern with hwhole | ⟨before, after, hbefore, rfl⟩
  · have hfits : Fits pattern specifier matched ↔ specifier = pattern ∧ matched = "" := by
      constructor
      · rintro (⟨-, h⟩ | ⟨before, after, -, rfl, -⟩)
        · exact h
        · simp at hwhole
      · exact fun h => .inl ⟨hwhole, h⟩
    rw [hfits, of, cut_whole hwhole, match?]
    dsimp only
    split
    · next heq => simp [beq_iff_eq.mp heq, eq_comm]
    · next hne => simp [beq_eq_false_iff_ne.mp (Bool.not_eq_true _ ▸ hne)]
  · have hfits : Fits (before ++ "*" ++ after) specifier matched ↔
        specifier = before ++ matched ++ after := by
      constructor
      · rintro (⟨hwhole, -⟩ | ⟨before', after', hbefore', hsame, rfl⟩)
        · simp at hwhole
        · have hcut := cut_starred hbefore after
          rw [hsame, cut_starred hbefore' after', Option.some.injEq, Prod.mk.injEq] at hcut
          rw [hcut.1, hcut.2]
      · exact fun h => .inr ⟨before, after, hbefore, rfl, h⟩
    rw [hfits, of, cut_starred hbefore, match?]
    simp only [Option.bind_eq_some_iff, stripStart_eq_some, stripEnd_eq_some]
    constructor
    · rintro ⟨rest, rfl, rfl⟩
      rw [String.append_assoc]
    · rintro rfl
      exact ⟨matched ++ after, by rw [String.append_assoc], rfl⟩

/-- What stands before the star of a pattern begins every specifier that fits the pattern. -/
theorem Fits.lead_prefix {pattern specifier matched : String} (h : Fits pattern specifier matched) :
    (lead pattern).toList <+: specifier.toList := by
  rcases h with ⟨hwhole, rfl, -⟩ | ⟨before, after, hbefore, rfl, rfl⟩
  · simp only [lead_whole hwhole, List.prefix_refl]
  · rw [lead_starred hbefore, String.append_assoc, String.toList_append]
    exact List.prefix_append _ _

end AliasPattern

namespace Aliases

open AliasPattern (Fits lead)

/-! The table of patterns -/

/-- The targets that a list of paths gives a pattern; the last entry of a text counts. -/
def Enters (paths : List (String × List String)) (pattern : String) (targets : List String) :
    Prop :=
  paths.reverse.lookup pattern = some targets

/-- The entries of a table that was filled by inserting. -/
def entries (paths : List (String × List String)) : List (String × List String) :=
  paths.foldl (fun acc p => insertPattern p.1 p.2 acc) []

theorem mem_insertPattern {pattern : String} {targets : List String}
    {table : List (String × List String)} (h : table.Pairwise fun a b => a.1 < b.1)
    {m : String × List String} :
    m ∈ insertPattern pattern targets table ↔
      m = (pattern, targets) ∨ (m ∈ table ∧ m.1 ≠ pattern) := by
  induction table with
  | nil => simp [insertPattern]
  | cons first rest ih =>
    obtain ⟨p, ts⟩ := first
    obtain ⟨hfirst, hrest⟩ := List.pairwise_cons.mp h
    rw [insertPattern]
    split_ifs with hless hsame
    · have hne : ∀ x ∈ (p, ts) :: rest, x.1 ≠ pattern := by
        intro x hx
        rcases List.mem_cons.mp hx with rfl | hx
        · exact hless.ne'
        · exact (hless.trans (hfirst x hx)).ne'
      rw [List.mem_cons]
      exact or_congr_right ⟨fun hm => ⟨hm, hne m hm⟩, And.left⟩
    · subst hsame
      have hne : ∀ x ∈ rest, x.1 ≠ pattern := fun x hx => (hfirst x hx).ne'
      constructor
      · intro hm
        rcases List.mem_cons.mp hm with rfl | hm
        · exact .inl rfl
        · exact .inr ⟨List.mem_cons_of_mem _ hm, hne m hm⟩
      · rintro (rfl | ⟨hm, hmne⟩)
        · exact List.mem_cons_self
        · rcases List.mem_cons.mp hm with rfl | hm
          · exact absurd rfl hmne
          · exact List.mem_cons_of_mem _ hm
    · rw [List.mem_cons, ih hrest, List.mem_cons]
      constructor
      · rintro (rfl | rfl | ⟨hm, hmne⟩)
        · exact .inr ⟨.inl rfl, Ne.symm hsame⟩
        · exact .inl rfl
        · exact .inr ⟨.inr hm, hmne⟩
      · rintro (rfl | ⟨rfl | hm, hmne⟩)
        · exact .inr (.inl rfl)
        · exact .inl rfl
        · exact .inr (.inr ⟨hm, hmne⟩)

theorem pairwise_insertPattern (pattern : String) (targets : List String)
    {table : List (String × List String)} (h : table.Pairwise fun a b => a.1 < b.1) :
    (insertPattern pattern targets table).Pairwise fun a b => a.1 < b.1 := by
  induction table with
  | nil => simp [insertPattern]
  | cons first rest ih =>
    obtain ⟨p, ts⟩ := first
    obtain ⟨hfirst, hrest⟩ := List.pairwise_cons.mp h
    rw [insertPattern]
    split_ifs with hless hsame
    · refine List.pairwise_cons.mpr ⟨?_, h⟩
      intro x hx
      rcases List.mem_cons.mp hx with rfl | hx
      · exact hless
      · exact hless.trans (hfirst x hx)
    · exact List.pairwise_cons.mpr ⟨hfirst, hrest⟩
    · refine List.pairwise_cons.mpr ⟨?_, ih hrest⟩
      intro x hx
      rcases (mem_insertPattern hrest).mp hx with rfl | ⟨hx, -⟩
      · exact lt_of_le_of_ne (not_lt.mp hless) (Ne.symm hsame)
      · exact hfirst x hx

/-- A filled table is sorted by the texts of its patterns and holds what the paths give them. -/
theorem entries_spec (paths : List (String × List String)) :
    (entries paths).Pairwise (fun a b => a.1 < b.1) ∧
      ∀ pattern targets, (pattern, targets) ∈ entries paths ↔ Enters paths pattern targets := by
  induction paths using List.reverseRecOn with
  | nil => simp [entries, Enters]
  | append_singleton paths p ih =>
    obtain ⟨hsorted, hmem⟩ := ih
    have hstep : entries (paths ++ [p]) = insertPattern p.1 p.2 (entries paths) := by
      simp [entries]
    rw [hstep]
    refine ⟨pairwise_insertPattern _ _ hsorted, fun pattern targets => ?_⟩
    rw [mem_insertPattern hsorted, hmem, Enters, Enters, List.reverse_append,
      List.reverse_singleton, List.singleton_append, List.lookup_cons]
    by_cases hsame : pattern = p.1
    · simp [hsame, Prod.ext_iff, eq_comm]
    · rw [beq_eq_false_iff_ne.mpr hsame]
      simp [hsame, Prod.ext_iff]

/-- The order in which patterns are tried. -/
def Precedes (a b : String × List String) : Prop :=
  (lead b.1).utf8ByteSize < (lead a.1).utf8ByteSize ∨
    (lead b.1).utf8ByteSize = (lead a.1).utf8ByteSize ∧ a.1 < b.1

/-- The order that the patterns are sorted by. -/
def noShorter (a b : String × List String) : Bool :=
  (lead b.1).utf8ByteSize ≤ (lead a.1).utf8ByteSize

theorem ordered_eq (paths : List (String × List String)) :
    ordered paths =
      ((entries paths).mergeSort noShorter).map fun p => AliasPattern.of p.1 p.2 := by
  rw [ordered, List.map_mergeSort]
  · rfl
  · intro a _ b _
    rw [noShorter, AliasPattern.start_of, AliasPattern.start_of]

theorem noShorter_trans (a b c : String × List String) (hab : noShorter a b = true)
    (hbc : noShorter b c = true) : noShorter a c = true := by
  simp only [noShorter, decide_eq_true_eq] at *
  omega

theorem noShorter_total (a b : String × List String) : (noShorter a b || noShorter b a) = true := by
  simp only [noShorter, Bool.or_eq_true, decide_eq_true_eq]
  omega

/-- Sorting keeps patterns whose beginnings are equally long in their order. -/
theorem filter_mergeSort (table : List (String × List String)) (size : Nat) :
    (table.mergeSort noShorter).filter (fun p => (lead p.1).utf8ByteSize == size) =
      table.filter fun p => (lead p.1).utf8ByteSize == size := by
  have hequal : (table.filter fun p => (lead p.1).utf8ByteSize == size).Pairwise
      fun a b => noShorter a b = true := by
    refine List.pairwise_of_forall_mem_list fun a ha b hb => ?_
    have hsize := (List.mem_filter.mp ha).2
    have hsize' := (List.mem_filter.mp hb).2
    simp only [beq_iff_eq] at hsize hsize'
    simp [noShorter, hsize, hsize']
  have hkept := List.sublist_mergeSort noShorter_trans noShorter_total hequal List.filter_sublist
  have hsub := hkept.filter fun p => (lead p.1).utf8ByteSize == size
  rw [List.filter_filter] at hsub
  simp only [Bool.and_self] at hsub
  exact (hsub.eq_of_length
    ((List.mergeSort_perm table noShorter).filter _).length_eq.symm).symm

theorem pairwise_precedes (paths : List (String × List String)) :
    ((entries paths).mergeSort noShorter).Pairwise Precedes := by
  rw [List.pairwise_iff_forall_sublist]
  intro a b hab
  have hle := List.pairwise_iff_forall_sublist.mp
    (List.pairwise_mergeSort noShorter_trans noShorter_total (entries paths)) hab
  simp only [noShorter, decide_eq_true_eq] at hle
  rcases Nat.lt_or_eq_of_le hle with hlt | heq
  · exact .inl hlt
  · refine .inr ⟨heq, ?_⟩
    have hclass := hab.filter fun p => (lead p.1).utf8ByteSize == (lead a.1).utf8ByteSize
    rw [filter_mergeSort] at hclass
    simp only [heq, beq_self_eq_true, List.filter_cons_of_pos, List.filter_nil] at hclass
    exact List.pairwise_iff_forall_sublist.mp (entries_spec paths).1
      (hclass.trans List.filter_sublist)

/-! The pattern that is taken -/

/-- An entry that fits a specifier, and what its star stands for. No entry that fits has a longer
beginning, and if the specifier itself is an entry without a star, it is this one. -/
structure Best (paths : List (String × List String)) (specifier pattern : String)
    (targets : List String) (matched : String) : Prop where
  entry : Enters paths pattern targets
  fits : Fits pattern specifier matched
  longest : ∀ other ts m, Enters paths other ts → Fits other specifier m →
    (lead other).toList <+: (lead pattern).toList
  exact : ∀ ts, Enters paths specifier ts → '*' ∉ specifier.toList → pattern = specifier

/-- Of two beginnings of one text, the one with no more bytes begins the other. -/
theorem prefix_of_utf8ByteSize_le {a b whole : String} (ha : a.toList <+: whole.toList)
    (hb : b.toList <+: whole.toList) (hle : a.utf8ByteSize ≤ b.utf8ByteSize) :
    a.toList <+: b.toList := by
  rcases List.prefix_or_prefix_of_prefix ha hb with h | h
  · exact h
  · obtain ⟨rest, hrest⟩ := h
    have hsame : b ++ String.ofList rest = a := String.toList_inj.mp (by simpa using hrest)
    have hempty : (String.ofList rest).utf8ByteSize = 0 := by
      have hsize := congrArg String.utf8ByteSize hsame
      rw [String.utf8ByteSize_append] at hsize
      omega
    rw [String.utf8ByteSize_eq_zero_iff] at hempty
    rw [hempty, String.append_empty] at hsame
    exact hsame ▸ List.prefix_refl _

/-- No text comes before one that it goes on from. -/
theorem not_append_lt (s t : String) : ¬ s ++ t < s := by
  rw [String.lt_iff_toList_lt, String.toList_append]
  induction s.toList with
  | nil => simp
  | cons c cs ih => simpa [List.cons_lt_cons_iff] using ih

theorem lead_append (pattern : String) : ∃ rest, pattern = lead pattern ++ rest := by
  rcases AliasPattern.whole_or_starred pattern with hwhole | ⟨before, after, hbefore, rfl⟩
  · exact ⟨"", by rw [AliasPattern.lead_whole hwhole, String.append_empty]⟩
  · exact ⟨"*" ++ after, by rw [AliasPattern.lead_starred hbefore, String.append_assoc]⟩

/-- A pattern that is tried before the specifier itself does not fit the specifier. -/
theorem not_precedes_whole {pattern specifier matched : String} {targets ts : List String}
    (hfits : Fits pattern specifier matched) (hwhole : '*' ∉ specifier.toList) :
    ¬ Precedes (pattern, targets) (specifier, ts) := by
  have hprefix := hfits.lead_prefix
  obtain ⟨rest, hrest⟩ := hprefix
  have hspecifier : lead pattern ++ String.ofList rest = specifier :=
    String.toList_inj.mp (by simpa using hrest)
  have hsize := congrArg String.utf8ByteSize hspecifier
  rw [String.utf8ByteSize_append] at hsize
  simp only [Precedes, AliasPattern.lead_whole hwhole]
  rintro (hlt | ⟨heq, hless⟩)
  · omega
  · have hempty : (String.ofList rest).utf8ByteSize = 0 := by omega
    rw [String.utf8ByteSize_eq_zero_iff] at hempty
    rw [hempty, String.append_empty] at hspecifier
    obtain ⟨more, hmore⟩ := lead_append pattern
    rw [hspecifier] at hmore
    exact not_append_lt specifier more (hmore ▸ hless)

theorem select_ordered (base : Option String) (paths : List (String × List String))
    (specifier : String) :
    (∃ pattern targets matched, Best paths specifier pattern targets matched ∧
      (Aliases.mk base (ordered paths)).select specifier =
        some (AliasPattern.of pattern targets, matched)) ∨
    (∀ pattern targets matched, Enters paths pattern targets → ¬ Fits pattern specifier matched) ∧
      (Aliases.mk base (ordered paths)).select specifier = Option.none := by
  have hmem : ∀ {pattern targets}, (pattern, targets) ∈ (entries paths).mergeSort noShorter ↔
      Enters paths pattern targets := by
    intro pattern targets
    rw [List.mem_mergeSort, (entries_spec paths).2]
  rw [select, ordered_eq, List.findSome?_map]
  cases hfound : ((entries paths).mergeSort noShorter).findSome? _ with
  | none =>
    refine .inr ⟨fun pattern targets matched hentry hfits => ?_, rfl⟩
    have hnone := List.findSome?_eq_none_iff.mp hfound _ (hmem.mpr hentry)
    simp [AliasPattern.match?_eq_some_iff.mpr hfits] at hnone
  | some chosen =>
    obtain ⟨before, ⟨pattern, targets⟩, after, hsplit, hchosen, hearlier⟩ :=
      List.findSome?_eq_some_iff.mp hfound
    obtain ⟨matched, hmatched, rfl⟩ := Option.map_eq_some_iff.mp hchosen
    have hfits := AliasPattern.match?_eq_some_iff.mp hmatched
    have hentry : Enters paths pattern targets := hmem.mp (by simp [hsplit])
    -- What fits is not tried earlier, so it is the entry that is taken or comes after it.
    have hlater : ∀ {other ts m}, Enters paths other ts → Fits other specifier m →
        (other, ts) = (pattern, targets) ∨ Precedes (pattern, targets) (other, ts) := by
      intro other ts m hother hm
      have hin := hmem.mpr hother
      rw [hsplit, List.mem_append, List.mem_cons] at hin
      have hsorted := pairwise_precedes paths
      rw [hsplit] at hsorted
      rcases hin with hin | hin | hin
      · have hnone := hearlier _ hin
        simp [AliasPattern.match?_eq_some_iff.mpr hm] at hnone
      · exact .inl hin
      · exact .inr ((List.pairwise_cons.mp (List.pairwise_append.mp hsorted).2.1).1 _ hin)
    refine .inl ⟨pattern, targets, matched, ⟨hentry, hfits, ?_, ?_⟩, rfl⟩
    · intro other ts m hother hm
      refine prefix_of_utf8ByteSize_le hm.lead_prefix hfits.lead_prefix ?_
      rcases hlater hother hm with hsame | hlt | ⟨heq, -⟩
      · rw [(Prod.mk.inj hsame).1]
      · exact hlt.le
      · exact heq.le
    · intro ts hwhole hstar
      rcases hlater hwhole (.inl ⟨hstar, rfl, rfl⟩) with hsame | hafter
      · exact (Prod.mk.inj hsame).1.symm
      · exact absurd hafter (not_precedes_whole hfits hstar)

/-! Configurations -/

/-- The entries that a configuration has under `paths`, in the order of the text. -/
def written (config : Json.Value) : List (String × List String) :=
  match (config.get? "compilerOptions").bind fun options => options.get? "paths" with
  | some (.object members) => members.map fun (pattern, targets) => (pattern, texts targets)
  | _ => []

theorem ofValue_patterns (config : Json.Value) :
    (ofValue config).patterns = ordered (written config) := by
  have hempty : ordered [] = [] := by simp [ordered]
  unfold ofValue written
  cases config.get? "compilerOptions" with
  | none => exact hempty.symm
  | some options =>
    cases options with
    | object members => rfl
    | _ => exact hempty.symm

/-- The path that a specifier which is no alias stands for below the base directory. -/
def below (base : Option String) (specifier : String) : List String :=
  (base.bind fun directory => join? directory specifier).toList

/-- The entry that a specifier is rewritten with is the best of those that fit it: no other one has
a longer beginning, and an entry without a star is taken before any with one. Its targets come
first, with the text of the star in the place of theirs. Where no entry fits, none is used. -/
theorem rewrite_bestPattern (config : Json.Value) (specifier fromFile : String) :
    (∃ pattern targets matched, Best (written config) specifier pattern targets matched ∧
      (ofValue config).rewrite specifier fromFile =
        (targets.filterMap (fun target =>
            join? ((ofValue config).base.getD "") (substitute target matched)) ++
          below (ofValue config).base specifier).map (specifierTo fromFile)) ∨
    (∀ pattern targets matched, Enters (written config) pattern targets →
        ¬ Fits pattern specifier matched) ∧
      (ofValue config).rewrite specifier fromFile =
        (below (ofValue config).base specifier).map (specifierTo fromFile) := by
  have hbelow : ∀ base : Option String,
      (if base.isSome then (join? (base.getD "") specifier).toList else []) =
        below base specifier := by
    intro base
    cases base <;> rfl
  have hparts : ofValue config = ⟨(ofValue config).base, ordered (written config)⟩ := by
    rw [← ofValue_patterns]
  rcases select_ordered (ofValue config).base (written config) specifier with
    ⟨pattern, targets, matched, hbest, hselect⟩ | ⟨hnone, hselect⟩
  · refine .inl ⟨pattern, targets, matched, hbest, ?_⟩
    rw [← hparts] at hselect
    simp only [rewrite, candidatePaths, hselect, hbelow, AliasPattern.targets_of]
  · refine .inr ⟨hnone, ?_⟩
    rw [← hparts] at hselect
    simp only [rewrite, candidatePaths, hselect, hbelow, List.nil_append]

end Aliases

end CodeIndex.Resolve
