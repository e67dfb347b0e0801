import CodeIndex.Proofs.Search.Phrase
import CodeIndex.Store.Search

/-!
What a search finds. A term is looked for as one phrase, so quotes and operators in it mean nothing:
a search for a term without a null character succeeds, and it finds the files in whose path or
content the words of the term stand next to each other.
-/
namespace CodeIndex

/-- Trimming adds nothing to a text. -/
theorem Text.Blank.mem_of_mem_trim {c : Char} {s : String} (h : c ∈ (trim s).toList) :
    c ∈ s.toList := by
  rw [trim, String.toList_ofList, trimChars, trimEndChars, List.mem_reverse] at h
  have hend := List.mem_reverse.mp ((List.dropWhile_suffix _).subset h)
  exact (List.dropWhile_suffix _).subset hend

namespace Search

/-- The words of a text in the form in which they are compared. -/
def words (s : String) : List String := (tokens s).map Token.word

/-- A phrase occurs where its words stand next to each other. -/
theorem occurrencesFrom_ne_nil_iff {phrase : List String} (h : phrase ≠ []) (i : Nat)
    (ws : List String) : occurrencesFrom phrase i ws ≠ [] ↔ phrase <:+: ws := by
  induction ws generalizing i with
  | nil => simpa [occurrencesFrom] using h
  | cons w ws ih =>
    rw [occurrencesFrom, List.infix_cons_iff, ← List.isPrefixOf_iff_prefix, ← ih (i + 1)]
    split <;> simp_all

theorem length_occurrences_pos_iff {phrase ws : List String} :
    0 < (occurrences phrase ws).length ↔ phrase ≠ [] ∧ phrase <:+: ws := by
  rw [List.length_pos_iff, occurrences]
  by_cases h : phrase = []
  · simp [h]
  · rw [if_neg (by simpa using h), occurrencesFrom_ne_nil_iff h]
    simp [h]

end Search

namespace Store

variable {s : Store} {term : String} {asked : Option String} {limit : Nat}

/-- A file of a repository, in whose path or content the words stand next to each other. -/
structure Sought (s : Store) (words : List String) (asked : Option String) (f : FileRow)
    (r : RepositoryRow) : Prop where
  stored : f ∈ s.files
  owner : s.repositoryById? f.repositoryId = some r
  asked : ∀ name ∈ asked, name = r.fullName
  phrase : words ≠ []
  occurs : words <:+: Search.words f.path ∨ words <:+: Search.words f.content

theorem frequency_pos_iff {phrase : List String} {f : FileRow} :
    0 < (Indexed.of f).frequency phrase ↔
      phrase ≠ [] ∧ (phrase <:+: Search.words f.path ∨ phrase <:+: Search.words f.content) := by
  rw [Indexed.frequency, Nat.add_pos_iff_pos_or_pos, Indexed.contentPlaces,
    Search.length_occurrences_pos_iff, Search.length_occurrences_pos_iff, and_or_left]
  rfl

theorem mem_of_mem_limited {α : Type} {a : α} {rows : List α} (h : a ∈ limited limit rows) :
    a ∈ rows := by
  unfold limited at h
  split at h
  · exact List.mem_of_mem_take h
  · exact h

/-- A limit that is no smaller than the number of rows leaves all of them. -/
theorem limited_eq_self {α : Type} {rows : List α} (hlength : rows.length ≤ limit)
    (hlimit : limit < 0x10000000000000000) : limited limit rows = rows := by
  unfold limited
  rw [Nat.mod_eq_of_lt hlimit]
  split
  · exact List.take_of_length_le hlength
  · rfl

/-- The files that a search ranks, whatever their ranks are. -/
theorem mem_ranked {phrase : List String} {rankOf : Indexed → Float} {x : Ranked} :
    x ∈ (((s.files.map Indexed.of).filter fun x => x.frequency phrase > 0).filterMap fun x => do
        let r ← s.repositoryById? x.row.repositoryId
        if (asked.map (· == r.fullName)).getD true then return ⟨x, r, rankOf x⟩ else none) ↔
      ∃ f r, s.Sought phrase asked f r ∧ x = ⟨.of f, r, rankOf (.of f)⟩ := by
  have hasks : ∀ r : RepositoryRow, (asked.map (· == r.fullName)).getD true = true ↔
      ∀ name ∈ asked, name = r.fullName := by
    intro r
    cases asked <;> simp
  rw [List.mem_filterMap]
  constructor
  · rintro ⟨indexed, hindexed, hfound⟩
    obtain ⟨hmem, hfrequency⟩ := List.mem_filter.mp hindexed
    obtain ⟨f, hf, rfl⟩ := List.mem_map.mp hmem
    obtain ⟨r, hr, hfits⟩ := Option.bind_eq_some_iff.mp hfound
    obtain ⟨hasked, heq⟩ := Option.ite_none_right_eq_some.mp hfits
    obtain ⟨hphrase, hoccurs⟩ := frequency_pos_iff.mp (of_decide_eq_true hfrequency)
    exact ⟨f, r, ⟨hf, hr, (hasks r).mp hasked, hphrase, hoccurs⟩, (Option.some.inj heq).symm⟩
  · rintro ⟨f, r, h, rfl⟩
    have hfrequency := frequency_pos_iff.mpr ⟨h.phrase, h.occurs⟩
    refine ⟨.of f, List.mem_filter.mpr ⟨List.mem_map_of_mem h.stored, decide_eq_true hfrequency⟩, ?_⟩
    refine Option.bind_eq_some_iff.mpr ⟨r, h.owner, ?_⟩
    rw [if_pos ((hasks r).mpr h.asked)]
    rfl

/-- A search has nothing to look for, or its term is no phrase, or it ranks the files that are sought
and reports the first of them. -/
theorem search_cases (s : Store) (term : String) (asked : Option String) (limit : Nat) :
    (((Text.Blank.trim term).isEmpty || limit == 0) = true ∧ s.search term asked limit = .ok []) ∨
      (Search.Phrase.decode (Search.Phrase.encode (Text.Blank.trim term)) = none ∧
        s.search term asked limit = .error (.storage .unterminatedText)) ∨
      ∃ text ranked, Search.Phrase.decode (Search.Phrase.encode (Text.Blank.trim term)) = some text ∧
        s.search term asked limit =
          .ok ((limited limit ranked).map (s.hitOf (Search.words text))) ∧
        ranked.length ≤ s.files.length ∧
        ∃ rankOf : Indexed → Float, ∀ x, x ∈ ranked ↔
          ∃ f r, s.Sought (Search.words text) asked f r ∧ x = ⟨.of f, r, rankOf (.of f)⟩ := by
  rw [search]
  cases hasked : (Text.Blank.trim term).isEmpty || limit == 0 with
  | true => exact .inl ⟨rfl, rfl⟩
  | false =>
    cases hread : Search.Phrase.decode (Search.Phrase.encode (Text.Blank.trim term)) with
    | none => exact .inr (.inl ⟨rfl, rfl⟩)
    | some text =>
      have hwords : (Search.tokens text).map Search.Token.word = Search.words text := rfl
      simp only [hwords, Bool.false_eq_true, if_false]
      refine .inr (.inr ⟨text, _, rfl, rfl, ?_, ?_⟩)
      · rw [List.length_mergeSort]
        refine (List.length_filterMap_le _ _).trans ?_
        refine (List.length_filter_le _ _).trans ?_
        rw [List.length_map]
      · -- The weight of the phrase and the average length of the files change the order alone.
        generalize weight _ _ = idf
        generalize (_ / _ : Float) = average
        refine ⟨fun x => rank idf average (x.frequency (Search.words text)) x.length, fun x => ?_⟩
        rw [List.mem_mergeSort]
        exact mem_ranked

/-- A term is opaque. Without a null character it is quoted as one phrase that is read to its end and
has the term for its value, and no other query has this value. So no search for it fails, and what
is found are the files of the repository that is asked for, in whose path or content the words of
the term stand next to each other: none but these, and all of them within the limit. -/
theorem search_opaque (term : String) (h : '\x00' ∉ term.toList) :
    (∃ quoted, (Search.Phrase.encode term).toList = '"' :: quoted ∧
        Search.Phrase.readFrom quoted = some (term.toList, [])) ∧
      (∀ query, Search.Phrase.decode query = some term ↔
        query.toList.takeWhile (· != '\x00') = (Search.Phrase.encode term).toList) ∧
      ∀ (s : Store) (asked : Option String) (limit : Nat), ∃ hits,
        s.search term asked limit = .ok hits ∧
        (∀ hit ∈ hits, ∃ f r, s.Sought (Search.words (Text.Blank.trim term)) asked f r ∧
          hit.path = f.path ∧ hit.repository = r.fullName) ∧
        (s.files.length ≤ limit → limit < 0x10000000000000000 →
          ∀ f r, s.Sought (Search.words (Text.Blank.trim term)) asked f r →
            ∃ hit ∈ hits, hit.path = f.path ∧ hit.repository = r.fullName) := by
  have hread := Search.Phrase.decode_encode_iff.mpr fun hnull => h (Text.Blank.mem_of_mem_trim hnull)
  refine ⟨⟨_, Search.Phrase.toList_encode term, Search.Phrase.readFrom_quoted term⟩,
    fun query => Search.Phrase.decode_eq_some_iff, fun s asked limit => ?_⟩
  rcases search_cases s term asked limit with
    ⟨hnothing, hsearch⟩ | ⟨hnone, -⟩ | ⟨text, ranked, htext, hsearch, hlength, rankOf, hranked⟩
  · refine ⟨[], hsearch, by simp, fun hfiles _ f r hsought => ?_⟩
    rcases Bool.or_eq_true_iff.mp hnothing with hblank | hzero
    · have hempty : Text.Blank.trim term = "" := by simpa using hblank
      exact absurd (by rw [hempty]; rfl) hsought.phrase
    · have hpos := List.length_pos_of_mem hsought.stored
      have hlimit : limit = 0 := by simpa using hzero
      omega
  · rw [hread] at hnone
    cases hnone
  · obtain rfl := Option.some.inj (hread.symm.trans htext)
    refine ⟨_, hsearch, fun hit hhit => ?_, fun hfiles hlimit f r hsought => ?_⟩
    · obtain ⟨x, hx, rfl⟩ := List.mem_map.mp hhit
      obtain ⟨f, r, hsought, rfl⟩ := (hranked x).mp (mem_of_mem_limited hx)
      exact ⟨f, r, hsought, rfl, rfl⟩
    · rw [limited_eq_self (hlength.trans hfiles) hlimit]
      exact ⟨_, List.mem_map_of_mem ((hranked _).mpr ⟨f, r, hsought, rfl⟩), rfl, rfl⟩

/-- A file with a quotation. -/
def quoting : Store where
  origin := 0
  nextSerial := 1
  repositories := [⟨.given "1", "r", "r", none, "main", some 0⟩]
  files := [⟨.made 0 0, .given "1", "a.ts", "// \"say\" or \"not\"", .typescript, 17, "", 0⟩]

/-- A term that would be cut off at its first quote, and whose other words would be operators. -/
theorem search_opaque_quoting : '\x00' ∉ "say\"\" OR (NOT*".toList ∧
    (Search.Phrase.encode "say\"\" OR (NOT*").toList = "\"say\"\"\"\" OR (NOT*\"".toList ∧
    Search.Phrase.decode "\"say\"\"\"\" OR (NOT*\"" = some "say\"\" OR (NOT*" ∧
    ∃ hits, quoting.search "say\"\" OR (NOT*" (some "r") 5 = .ok hits ∧
      ∃ hit ∈ hits, hit.path = "a.ts" ∧ hit.repository = "r" := by
  have hnull : '\x00' ∉ "say\"\" OR (NOT*".toList := by decide
  have hencode : (Search.Phrase.encode "say\"\" OR (NOT*").toList =
      "\"say\"\"\"\" OR (NOT*\"".toList := by decide
  obtain ⟨-, hdecode, hsearch⟩ := search_opaque "say\"\" OR (NOT*" hnull
  obtain ⟨hits, hok, -, hall⟩ := hsearch quoting (some "r") 5
  have hdecoded : Search.Phrase.decode "\"say\"\"\"\" OR (NOT*\"" = some "say\"\" OR (NOT*" :=
    (hdecode _).mpr (by decide)
  have hwords : Search.words (Text.Blank.trim "say\"\" OR (NOT*") = ["say", "or", "not"] := by
    decide +kernel
  have hcontent : Search.words "// \"say\" or \"not\"" = ["say", "or", "not"] := by decide +kernel
  have hsought : quoting.Sought (Search.words (Text.Blank.trim "say\"\" OR (NOT*")) (some "r")
      ⟨.made 0 0, .given "1", "a.ts", "// \"say\" or \"not\"", .typescript, 17, "", 0⟩
      ⟨.given "1", "r", "r", none, "main", some 0⟩ := by
    rw [hwords]
    refine ⟨List.mem_singleton_self _, rfl, by simp, by simp, .inr ?_⟩
    simp only [hcontent, List.infix_rfl]
  exact ⟨hnull, hencode, hdecoded, hits, hok, hall (by decide) (by decide) _ _ hsought⟩

end Store

end CodeIndex
