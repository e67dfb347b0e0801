import CodeIndex.Proofs.Operation
import CodeIndex.Proofs.Store.Replacement
import CodeIndex.Proofs.Store.Verdict

/-!
Runs that a store accepts. Storing a run fails only where the run names a file that it does not
have, or an edge without both ends; a run that passes these checks is stored. If its targets and
symbol ends are symbols of its own, the loaders give its references and edges back unchanged.

A run with distinct paths has no stray ones, so all that can be wrong with it is that a value of it
does not fit; the checks of a run find that.
-/
namespace CodeIndex.Store

/-- What the writer asks of a run. Each key that a reference or an edge names belongs to exactly one
symbol of the run. -/
structure Run.Accepted (run : Run) : Prop where
  symbol_file : ∀ x ∈ run.symbols, x.filePath ∈ run.paths
  reference_file : ∀ r ∈ run.references, r.filePath ∈ run.paths
  edge_wellFormed : ∀ e ∈ run.edges, e.isWellFormed = true
  edge_files : ∀ e ∈ run.edges, ∃ source ∈ run.paths, ∃ target ∈ run.paths,
    e.fromFile = some source ∧ e.toFile = some target
  target_symbol : ∀ r ∈ run.references, ∀ key, r.targetSymbol = some key →
    (run.symbols.map Symbol.key).count key = 1
  edge_symbols : ∀ e ∈ run.edges, ∀ key, e.fromSymbol = some key ∨ e.toSymbol = some key →
    (run.symbols.map Symbol.key).count key = 1

/-- Both ends of an edge are there: the files that it names, and two files or two symbols. -/
structure TiedBy (paths : List String) (keys : List SymbolKey) (e : Edge) : Prop where
  wellFormed : e.isWellFormed = true
  files : ∀ path, e.fromFile = some path ∨ e.toFile = some path → path ∈ paths
  ends : (e.fromFile.isSome = true ∧ e.toFile.isSome = true) ∨
    (∃ k ∈ keys, e.fromSymbol = some k) ∧ ∃ k ∈ keys, e.toSymbol = some k

/-- Why an edge is refused, with the failure that says so. -/
inductive Untied (paths : List String) (keys : List SymbolKey) (e : Edge) : Error → Prop
  | openEnds (h : e.isWellFormed = false) : Untied paths keys e (.openEdge e.key)
  | file {path : String} (hpath : e.fromFile = some path ∨ e.toFile = some path)
      (h : path ∉ paths) : Untied paths keys e (.notInRun path)
  | lostEnds (hfiles : ¬(e.fromFile.isSome = true ∧ e.toFile.isSome = true))
      (hsymbols : ¬((∃ k ∈ keys, e.fromSymbol = some k) ∧ ∃ k ∈ keys, e.toSymbol = some k)) :
      Untied paths keys e (.storage .incompleteEdge)

theorem Untied.not_tiedBy {paths : List String} {keys : List SymbolKey} {e : Edge} {error : Error}
    (h : Untied paths keys e error) : ¬TiedBy paths keys e := by
  rintro ⟨hformed, hfiles, hends⟩
  cases h with
  | openEnds hopen => simp [hformed] at hopen
  | file hpath hmissing => exact hmissing (hfiles _ hpath)
  | lostEnds hnoFiles hnoSymbols => exact hends.elim hnoFiles hnoSymbols

/-- What a run must meet to be stored. -/
structure Run.Fits (run : Run) : Prop where
  symbols : ∀ x ∈ run.symbols, x.filePath ∈ run.paths
  references : ∀ r ∈ run.references, r.filePath ∈ run.paths
  edges : ∀ e ∈ run.edges, TiedBy run.paths (run.symbols.map Symbol.key) e

/-- Why a run is refused, with the failure that says so. -/
inductive Run.Misfit (run : Run) : Error → Prop
  | symbol {x : Symbol} (hx : x ∈ run.symbols) (h : x.filePath ∉ run.paths) :
      Misfit run (.notInRun x.filePath)
  | reference {r : Reference} (hr : r ∈ run.references) (h : r.filePath ∉ run.paths) :
      Misfit run (.notInRun r.filePath)
  | edge {e : Edge} {error : Error} (he : e ∈ run.edges)
      (h : Untied run.paths (run.symbols.map Symbol.key) e error) : Misfit run error

theorem Run.Misfit.not_fits {run : Run} {error : Error} (h : run.Misfit error) : ¬run.Fits := by
  intro hfits
  cases h with
  | symbol hx hmissing => exact hmissing (hfits.symbols _ hx)
  | reference hr hmissing => exact hmissing (hfits.references _ hr)
  | edge he huntied => exact huntied.not_tiedBy (hfits.edges _ he)

theorem Run.Accepted.fits {run : Run} (h : run.Accepted) : run.Fits := by
  refine ⟨h.symbol_file, h.reference_file, fun e he => ?_⟩
  obtain ⟨source, hsource, target, htarget, hfrom, hto⟩ := h.edge_files e he
  refine ⟨h.edge_wellFormed e he, ?_, .inl (by simp [hfrom, hto])⟩
  rintro path (hpath | hpath)
  · rwa [← Option.some.inj (hfrom.symm.trans hpath)]
  · rwa [← Option.some.inj (hto.symm.trans hpath)]

/-! What the checks of a run find -/

/-- An edge has no flaw when both of its ends are there. -/
theorem edgeFlaw?_eq_none {paths : List String} {keys : List SymbolKey} {e : Edge} :
    edgeFlaw? paths keys e = none ↔ TiedBy paths keys e := by
  have hpaths : (edgePaths e).findSome? (pathFlaw? paths) = none ↔
      ∀ path, e.fromFile = some path ∨ e.toFile = some path → path ∈ paths := by
    simp only [List.findSome?_eq_none_iff, edgePaths, List.mem_append, Option.mem_toList,
      pathFlaw?_eq_none]
  rw [edgeFlaw?]
  split
  · next hopen =>
    refine iff_of_false (by simp) fun htied => ?_
    simp [htied.wellFormed] at hopen
  · next hformed =>
    rw [Option.or_eq_none_iff, hpaths]
    constructor
    · rintro ⟨hfiles, hends⟩
      refine ⟨by simpa using hformed, hfiles, ?_⟩
      by_contra hlost
      rw [if_neg hlost] at hends
      cases hends
    · intro htied
      exact ⟨htied.files, if_pos htied.ends⟩

/-- The flaw of an edge says which end is missing. -/
theorem Untied.of_flaw {paths : List String} {keys : List SymbolKey} {e : Edge} {error : Error}
    (h : edgeFlaw? paths keys e = some error) : Untied paths keys e error := by
  rw [edgeFlaw?] at h
  split at h
  · next hopen =>
    obtain rfl := Option.some.inj h
    exact .openEnds hopen
  · rcases Option.or_eq_some_iff.mp h with hfile | ⟨-, hends⟩
    · obtain ⟨p, hp, hflaw⟩ := List.exists_of_findSome?_eq_some hfile
      obtain ⟨hmissing, rfl⟩ := pathFlaw?_eq_some.mp hflaw
      simp only [edgePaths, List.mem_append, Option.mem_toList] at hp
      exact .file hp hmissing
    · split at hends
      · cases hends
      · next hlost =>
        obtain rfl := Option.some.inj hends
        rw [not_or] at hlost
        exact .lostEnds hlost.1 hlost.2

/-- What is first wrong with a run is wrong with one of its values. -/
theorem Run.Misfit.of_flaw {run : Run} {error : Error} (h : run.flaw? [] = some error) :
    run.Misfit error := by
  obtain ⟨c, hc, hflaw⟩ := List.exists_of_findSome?_eq_some h
  cases c with
  | row p =>
    rw [Check.flaw?, if_neg List.not_mem_nil] at hflaw
    cases hflaw
  | value flaw =>
    obtain rfl : flaw = some error := hflaw
    rcases Run.value_mem_checks.mp hc with ⟨x, hx, hpath⟩ | ⟨r, hr, hpath⟩ | ⟨e, he, hedge⟩
    · obtain ⟨hmissing, rfl⟩ := pathFlaw?_eq_some.mp hpath.symm
      exact .symbol hx hmissing
    · obtain ⟨hmissing, rfl⟩ := pathFlaw?_eq_some.mp hpath.symm
      exact .reference hr hmissing
    · exact .edge he (.of_flaw hedge.symm)

/-- A run with which nothing is wrong fits. -/
theorem Run.Fits.of_flaw {run : Run} (h : run.flaw? [] = none) : run.Fits := by
  have hvalue : ∀ flaw, .value flaw ∈ run.checks → flaw = none := fun flaw hc =>
    List.findSome?_eq_none_iff.mp h _ hc
  refine ⟨fun x hx => ?_, fun r hr => ?_, fun e he => ?_⟩
  · exact pathFlaw?_eq_none.mp (hvalue _ (Run.value_mem_checks.mpr (.inl ⟨x, hx, rfl⟩)))
  · exact pathFlaw?_eq_none.mp (hvalue _ (Run.value_mem_checks.mpr (.inr (.inl ⟨r, hr, rfl⟩))))
  · exact edgeFlaw?_eq_none.mp (hvalue _ (Run.value_mem_checks.mpr (.inr (.inr ⟨e, he, rfl⟩))))

/-- Every file of the map is stored. -/
def HoldsFiles (s : Store) (files : FileIds) : Prop :=
  ∀ path ∈ files.map Prod.fst, s.HoldsFile files path

/-! The whole run -/

section Verdict

variable {s : Store} {repositoryId : Id} {now : Int} {run : Run} (h : s.Sound)
include h

/-- A run that is stored meets the checks. -/
theorem Sound.fits_of_storeRun {out : RunCounts × Store}
    (hok : s.storeRun repositoryId now run = .ok out) :
    s.HasRepository repositoryId ∧ run.Fits := by
  obtain ⟨o⟩ := h.storeRun_outcome hok
  have hnone := failure?_eq_none.mpr ⟨out, hok⟩
  rw [h.failure?_storeRun o.owner] at hnone
  refine ⟨o.owner, .of_flaw ?_⟩
  rcases flaw_cases run.checks (s.strayPaths repositoryId run) with hsame | hmissing
  · exact hsame.symm.trans hnone
  · cases hmissing.symm.trans hnone

/-- A run is refused for a repository that is not there or for a value that does not fit. -/
theorem Sound.misfit_of_storeRun {e : Error}
    (hheld : s.HasRepository repositoryId → ∀ repository,
      (s.cleared repository repositoryId run).HoldsFiles (s.withFiles repositoryId run).2)
    (herr : s.storeRun repositoryId now run = .error e) :
    (¬s.HasRepository repositoryId ∧ e = .repositoryNotFound repositoryId.text) ∨
      s.HasRepository repositoryId ∧ run.Misfit e := by
  by_cases howner : s.HasRepository repositoryId
  · have ⟨repository, _⟩ := howner
    have hstray : s.strayPaths repositoryId run = [] := by
      refine List.eq_nil_iff_forall_not_mem.mpr fun p hp => ?_
      have hpath := List.mem_of_mem_filter hp
      have hstands := hheld howner repository p (mem_withFiles_paths.mpr hpath)
      exact (h.holdsFile_iff howner repository hpath).mp hstands hp
    have hflaw := failure?_eq_some.mpr herr
    rw [h.failure?_storeRun howner, hstray] at hflaw
    exact .inr ⟨howner, .of_flaw hflaw⟩
  · refine .inl ⟨howner, ?_⟩
    rw [Store.storeRun] at herr
    split at herr
    · exact (Except.error.inj herr).symm
    · next repository hfound =>
      exact absurd ⟨repository, h.repositoryById?_eq_some.mp hfound⟩ howner

/-- A run that meets the checks is stored, if the rows of its files stand. -/
theorem Sound.storeRun_isOk_of_held (now : Int) (howner : s.HasRepository repositoryId)
    (hheld : ∀ repository, (s.cleared repository repositoryId run).HoldsFiles
      (s.withFiles repositoryId run).2) (hrun : run.Fits) :
    ∃ out, s.storeRun repositoryId now run = .ok out := by
  cases hout : s.storeRun repositoryId now run with
  | ok out => exact ⟨out, rfl⟩
  | error e =>
    rcases h.misfit_of_storeRun (fun _ => hheld) hout with ⟨hnone, -⟩ | ⟨-, hmisfit⟩
    · exact absurd howner hnone
    · exact absurd hrun hmisfit.not_fits

/-- The rows of a run with distinct paths stand. -/
theorem Sound.holdsFiles_cleared (howner : s.HasRepository repositoryId)
    (hpaths : run.paths.Nodup) (repository : RepositoryRow) :
    (s.cleared repository repositoryId run).HoldsFiles (s.withFiles repositoryId run).2 :=
  fun path hpath => by
    rw [h.holdsFile_iff howner repository (mem_withFiles_paths.mp hpath), strayPaths_eq_nil hpaths]
    exact List.not_mem_nil

/-- A run that the writer accepts is stored. -/
theorem Sound.storeRun_isOk (now : Int) (howner : s.HasRepository repositoryId)
    (hpaths : run.paths.Nodup) (hrun : run.Accepted) :
    ∃ out, s.storeRun repositoryId now run = .ok out :=
  h.storeRun_isOk_of_held now howner (h.holdsFiles_cleared howner hpaths) hrun.fits

end Verdict

/-- When a run is accepted. A run whose files have different paths is stored exactly if its
repository is there and the run fits: all its symbols and references stand in files of the run, and
every edge is well formed, names files of the run only, and names two of them or has the keys of two
of the run's symbols. Any other run fails, with an error that names what is missing. -/
theorem storeRun_isOk_iff {s : Store} (h : Reachable s) (repositoryId : Id) (now : Int) {run : Run}
    (hpaths : run.paths.Nodup) :
    ((∃ out, s.storeRun repositoryId now run = .ok out) ↔
      s.HasRepository repositoryId ∧ run.Fits) ∧
      (¬(s.HasRepository repositoryId ∧ run.Fits) →
        ∃ e, s.storeRun repositoryId now run = .error e ∧
          ((¬s.HasRepository repositoryId ∧ e = .repositoryNotFound repositoryId.text) ∨
            s.HasRepository repositoryId ∧ run.Misfit e)) := by
  have hok : (∃ out, s.storeRun repositoryId now run = .ok out) ↔
      s.HasRepository repositoryId ∧ run.Fits := by
    constructor
    · rintro ⟨out, hout⟩
      exact h.sound.fits_of_storeRun hout
    · rintro ⟨howner, hrun⟩
      exact h.sound.storeRun_isOk_of_held now howner (h.sound.holdsFiles_cleared howner hpaths) hrun
  refine ⟨hok, fun hnot => ?_⟩
  cases hout : s.storeRun repositoryId now run with
  | ok out => exact absurd (hok.mp ⟨out, hout⟩) hnot
  | error e =>
    refine ⟨e, rfl, h.sound.misfit_of_storeRun (fun howner => ?_) hout⟩
    exact h.sound.holdsFiles_cleared howner hpaths

/-- The sample run without its symbol, so that an edge of it loses both ends. -/
def bareRun : Run := { sampleRun with symbols := [] }

theorem storeRun_isOk_iff_sample : ∃ s : Store, Reachable s ∧
    (sampleRun.paths.Nodup ∧ ∃ out, s.storeRun (.made 0 0) 0 sampleRun = .ok out) ∧
    (s.HasRepository (.made 0 0) ∧ sampleRun.Fits) ∧
    bareRun.paths.Nodup ∧ ¬bareRun.Fits ∧
    s.storeRun (.made 0 0) 0 bareRun = .error (.storage .incompleteEdge) := by
  let s : Store :=
    { origin := 0, nextSerial := 1, repositories := [⟨.made 0 0, "r", "r", none, "main", none⟩] }
  have h : Reachable s := .step (.upsertRepository (.ofFullName "r" "")) (.empty 0) trivial rfl
  have hpaths : sampleRun.paths.Nodup := by decide
  have hbarePaths : bareRun.paths.Nodup := by decide
  have hstored : ∃ out, s.storeRun (.made 0 0) 0 sampleRun = .ok out := ⟨_, rfl⟩
  have hrefused : s.storeRun (.made 0 0) 0 bareRun = .error (.storage .incompleteEdge) := rfl
  obtain ⟨howner, hfits⟩ := (storeRun_isOk_iff h (.made 0 0) 0 hpaths).1.mp hstored
  refine ⟨s, h, ⟨hpaths, hstored⟩, ⟨howner, hfits⟩, hbarePaths, fun hbare => ?_, hrefused⟩
  obtain ⟨out, hout⟩ := (storeRun_isOk_iff h (.made 0 0) 0 hbarePaths).1.mpr ⟨howner, hbare⟩
  rw [hrefused] at hout
  cases hout

/-! What is given back -/

theorem Run.keep_of_count {run : Run} {key : Option SymbolKey}
    (h : ∀ k, key = some k → (run.symbols.map Symbol.key).count k = 1) : run.keep key = key := by
  apply Run.keep_eq_self
  intro k hk
  apply List.count_pos_iff.mp
  rw [h k hk]
  exact Nat.one_pos

/-- No reference loses its target. -/
theorem Run.Accepted.storedReference_eq {run : Run} (h : run.Accepted) {r : Reference}
    (hr : r ∈ run.references) : run.storedReference r = r := by
  rw [Run.storedReference, Run.keep_of_count (h.target_symbol r hr)]

/-- No edge loses a symbol end. -/
theorem Run.Accepted.storedEdge_eq {run : Run} (h : run.Accepted) {e : Edge} (he : e ∈ run.edges) :
    run.storedEdge e.repositoryId e = e := by
  rw [Run.storedEdge, Run.keep_of_count fun k hk => h.edge_symbols e he k (.inl hk),
    Run.keep_of_count fun k hk => h.edge_symbols e he k (.inr hk)]

end CodeIndex.Store
