import CodeIndex.Extract.Extractor

/-!
An extractor that has been used gives what a new one gives: the grammar that it kept is the grammar
of the language it was kept for. So it does not matter how the files of a run are shared out.
-/
namespace CodeIndex.Extract

open Source

namespace Extractor

/-- The extractors that come from a new one by extracting files. -/
inductive Used : Extractor → Prop where
  | new : Used new
  | after {x : Extractor} (path content : String) : Used x → Used (x.extractFile path content).2

/-- The grammar is set, and it is the one of the current language. -/
def Ready (x : Extractor) : Prop :=
  ∀ language, x.current = some language →
    ∃ d, Dialect.ofLanguage? language = some d ∧ x.grammar = some d

theorem extractFile_snd (x : Extractor) (path content : String) :
    (x.extractFile path content).2 = (x.prepare? (Language.ofPath path)).getD x := by
  unfold extractFile parse
  cases x.prepare? (Language.ofPath path) with
  | none => rfl
  | some ready =>
    dsimp only
    cases ready.grammar.bind fun d => parse? d content <;> rfl

/-- A prepared extractor has the grammar of the language. -/
theorem Ready.prepare? {x : Extractor} (h : x.Ready) (language : Language) :
    match x.prepare? language with
    | none => Dialect.ofLanguage? language = none
    | some ready => ready.Ready ∧ ready.grammar = Dialect.ofLanguage? language ∧
        (Dialect.ofLanguage? language).isSome = true := by
  unfold Extractor.prepare?
  by_cases hcurrent : x.current = some language
  · obtain ⟨d, hd, hgrammar⟩ := h language hcurrent
    simp [hcurrent, h, hd, hgrammar]
  · cases hd : Dialect.ofLanguage? language with
    | none => simp [hcurrent]
    | some d =>
      simp only [hcurrent, if_false, Option.map_some, Option.isSome_some, and_self, and_true]
      rintro l hl
      obtain rfl := Option.some.inj hl
      exact ⟨d, hd, rfl⟩

theorem Used.ready {x : Extractor} (h : x.Used) : x.Ready := by
  induction h with
  | new => simp [Ready, Extractor.new]
  | @after x path content _ ih =>
    rw [extractFile_snd]
    have hprepared := ih.prepare? (Language.ofPath path)
    split at hprepared
    · next hnone =>
      rw [hnone]
      exact ih
    · next ready hready =>
      rw [hready]
      exact hprepared.1

/-- What was extracted before leaves no trace. -/
theorem Used.extractFile_fst {x : Extractor} (h : x.Used) (path content : String) :
    (x.extractFile path content).1 = Extract.extractFile path content := by
  have hprepared := h.ready.prepare? (Language.ofPath path)
  unfold Extractor.extractFile Extractor.parse Extract.extractFile parseFile
  cases hready : x.prepare? (Language.ofPath path) with
  | none =>
    rw [hready] at hprepared
    simp only [hprepared]
  | some ready =>
    rw [hready] at hprepared
    obtain ⟨-, hgrammar, hsome⟩ := hprepared
    obtain ⟨d, hd⟩ := Option.isSome_iff_exists.mp hsome
    simp only [hgrammar, hd, Option.bind_some]
    cases parse? d content <;> rfl

end Extractor

/-- However files are shared out, each of them gives what it gives alone. -/
theorem share_eq {pool : Extractors} (hpool : ∀ i, (pool i).Used) (jobs : List (Nat × SourceFile)) :
    share pool jobs = jobs.map fun j => (j.2, extractFile j.2.path j.2.content) := by
  induction jobs generalizing pool with
  | nil => rfl
  | cons j rest ih =>
    obtain ⟨worker, f⟩ := j
    have hstep : share pool ((worker, f) :: rest) =
        (f, ((pool worker).extractFile f.path f.content).1) ::
          share (fun i => if i = worker then ((pool worker).extractFile f.path f.content).2
            else pool i) rest := rfl
    rw [hstep, List.map_cons, (hpool worker).extractFile_fst, ih]
    intro i
    split
    · exact .after f.path f.content (hpool worker)
    · exact hpool i

end CodeIndex.Extract
