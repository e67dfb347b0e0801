import CodeIndex.Proofs.Files.Directory

/-!
Files that paths lead to, through links or not. A route is a derivation that a list of names leads
to a file. A path leads to one file only, and it still does when the tree grows: when directories
are made and files are written.
-/
namespace CodeIndex.Files.Tree

variable {t u : Tree}

/-- Names that lead from a directory to a file and meet no more than a number of links. -/
inductive Route (t : Tree) : Nat → Location → List String → Location → Prop where
  | file {links : Nat} {here : Location} {name : String} {content : Content} (hname : IsPlain name)
      (hentry : t.entry? (here ++ [name]) = some (.file content)) :
      Route t links here [name] (here ++ [name])
  | skip {links : Nat} {here there : Location} {name : String} {rest : List String}
      (hname : name = "" ∨ name = ".") (hrest : Route t links here rest there) :
      Route t links here (name :: rest) there
  | up {links : Nat} {here there : Location} {rest : List String} (hhere : here ≠ [])
      (hrest : Route t links here.dropLast rest there) : Route t links here (".." :: rest) there
  | down {links : Nat} {here there : Location} {name : String} {rest : List String}
      (hname : IsPlain name) (hentry : t.entry? (here ++ [name]) = some .directory)
      (hrest : Route t links (here ++ [name]) rest there) : Route t links here (name :: rest) there
  | link {links : Nat} {here next there : Location} {name target : String}
      {way rest : List String} (hname : IsPlain name)
      (hentry : t.entry? (here ++ [name]) = some (.link target))
      (horigin : t.origin? here target = some (next, way))
      (hrest : Route t links next (way ++ rest) there) : Route t (links + 1) here (name :: rest) there

/-! Trees that grow -/

/-- The second tree has the directories and links of the first one, and files where it has files. -/
structure Grows (t u : Tree) : Prop where
  base : u.base = t.base
  directory : ∀ l, t.entry? l = some .directory → u.entry? l = some .directory
  link : ∀ l target, t.entry? l = some (.link target) → u.entry? l = some (.link target)
  file : ∀ l content, t.entry? l = some (.file content) → ∃ c, u.entry? l = some (.file c)

namespace Grows

theorem refl (t : Tree) : Grows t t := ⟨rfl, fun _ h => h, fun _ _ h => h, fun _ c h => ⟨c, h⟩⟩

theorem trans {v : Tree} (h : Grows t u) (h' : Grows u v) : Grows t v where
  base := h'.base.trans h.base
  directory l hl := h'.directory l (h.directory l hl)
  link l target hl := h'.link l target (h.link l target hl)
  file l content hl := by
    obtain ⟨c, hc⟩ := h.file l content hl
    exact h'.file l c hc

/-- An entry was put where there was none, or a file over a file. -/
theorem set {l : Location} {e : Entry} (hl : l ≠ [])
    (hfree : t.entry? l = none ∨ (∃ c, t.entry? l = some (.file c)) ∧ ∃ c, e = .file c) :
    Grows t (t.set l e) := by
  have hother : ∀ l' e', t.entry? l' = some e' → (∀ c, e' ≠ .file c) →
      entry? (t.set l e) l' = some e' := by
    intro l' e' hentry hfile
    rw [entry?_set hl, if_neg, hentry]
    rintro rfl
    rcases hfree with hnone | ⟨⟨c, hc⟩, -⟩
    · simp [hnone] at hentry
    · exact hfile c (Option.some.inj (hentry.symm.trans hc))
  refine ⟨base_set t l e, fun l' h => hother l' _ h (by simp),
    fun l' target h => hother l' _ h (by simp), fun l' content h => ?_⟩
  rw [entry?_set hl]
  split
  · next heq =>
    subst heq
    rcases hfree with hnone | ⟨-, c, rfl⟩
    · simp [hnone] at h
    · exact ⟨c, rfl⟩
  · exact ⟨content, h⟩

variable (h : Grows t u)
include h

theorem origin? : u.origin? = t.origin? := by
  funext start path
  unfold Tree.origin?
  rw [h.base]

theorem walk {links : Nat} {here there : Location} {way : List String}
    (hwalk : Walk t links here way there) : Walk u links here way there := by
  induction hwalk with
  | done links here => exact .done links here
  | skip hname _ ih => exact .skip hname ih
  | up hhere _ ih => exact .up hhere ih
  | down hname hentry _ ih => exact .down hname (h.directory _ hentry) ih
  | link hname hentry horigin _ ih =>
    exact .link hname (h.link _ _ hentry) (h.origin? ▸ horigin) ih

theorem route {links : Nat} {here there : Location} {way : List String}
    (hroute : Route t links here way there) : Route u links here way there := by
  induction hroute with
  | file hname hentry =>
    obtain ⟨c, hc⟩ := h.file _ _ hentry
    exact .file hname hc
  | skip hname _ ih => exact .skip hname ih
  | up hhere _ ih => exact .up hhere ih
  | down hname hentry _ ih => exact .down hname (h.directory _ hentry) ih
  | link hname hentry horigin _ ih =>
    exact .link hname (h.link _ _ hentry) (h.origin? ▸ horigin) ih

/-- A directory that a path leads to is still where it leads. -/
theorem resolve {start l : Location} {path : String} (hresolve : t.resolve start path = .ok l)
    (hdir : t.entry? l = some .directory) :
    ∃ here way, t.origin? start path = some (here, way) ∧ Walk u maxLinks here way l := by
  unfold Tree.resolve at hresolve
  split at hresolve
  · next here way horigin => exact ⟨here, way, horigin, h.walk (walk_of_follow hresolve hdir)⟩
  · simp at hresolve

end Grows

/-! Routes and the search -/

theorem WellFormed.dropLast (ht : t.WellFormed) {here : Location}
    (hhere : t.entry? here = some .directory) : t.entry? here.dropLast = some .directory := by
  by_cases hne : here = []
  · rw [hne]
    rfl
  · apply ht.closed _ (here.getLast hne)
    rw [List.dropLast_concat_getLast, hhere]
    rfl

theorem directory_of_origin? {here next : Location} {path : String} {way : List String}
    (hhere : t.entry? here = some .directory) (h : t.origin? here path = some (next, way)) :
    t.entry? next = some .directory := by
  rcases (origin?_spec h).1 with rfl | rfl
  · exact hhere
  · exact t.entry?_nil

/-- A place that is found stays reached by a route while the tree grows, if a file comes to stand
there. -/
theorem Grows.route_of_follow (hgrows : Grows t u) (ht : t.WellFormed) {mayMiss : Bool}
    {n links : Nat} {here there : Location} {way : List String} {content : Content}
    (h : t.follow mayMiss n links here way = .ok there) (hhere : t.entry? here = some .directory)
    (hfile : u.entry? there = some (.file content)) : Route u links here way there := by
  induction n generalizing links here way with
  | zero => simp [follow] at h
  | succ n ih =>
    cases way with
    | nil =>
      cases h
      rw [hgrows.directory _ hhere] at hfile
      simp at hfile
    | cons name rest =>
      by_cases hskip : name = "" ∨ name = "."
      · rw [follow_skip hskip] at h
        exact .skip hskip (ih h hhere)
      by_cases hup : name = ".."
      · subst hup
        rw [follow_up] at h
        split at h
        · simp at h
        · next hne => exact .up hne (ih h (ht.dropLast hhere))
      have hplain : IsPlain name := ⟨fun hn => hskip (.inl hn), fun hn => hskip (.inr hn), hup⟩
      rw [follow_plain hplain] at h
      split at h
      · split at h
        · next hlast =>
          cases h
          rw [Bool.and_eq_true, List.isEmpty_iff] at hlast
          rw [hlast.2]
          exact .file hplain hfile
        · simp at h
      · next hentry => exact .down hplain (hgrows.directory _ hentry) (ih h hentry)
      · split at h
        · next hlast =>
          cases h
          rw [List.isEmpty_iff.mp hlast]
          exact .file hplain hfile
        · simp at h
      · next target hentry =>
        split at h
        · simp at h
        · simp at h
        · next horigin =>
          exact .link hplain (hgrows.link _ _ hentry) (hgrows.origin? ▸ horigin)
            (ih h (directory_of_origin? hhere horigin))

/-- A file that is found is reached by a route. -/
theorem route_of_follow (ht : t.WellFormed) {mayMiss : Bool} {n links : Nat}
    {here there : Location} {way : List String} {content : Content}
    (h : t.follow mayMiss n links here way = .ok there) (hhere : t.entry? here = some .directory)
    (hfile : t.entry? there = some (.file content)) : Route t links here way there :=
  (Grows.refl t).route_of_follow ht h hhere hfile

/-- What is found from a directory is a directory, or a file or nothing in one. -/
theorem entry_of_follow (ht : t.WellFormed) {mayMiss : Bool} {n links : Nat}
    {here there : Location} {way : List String}
    (h : t.follow mayMiss n links here way = .ok there)
    (hhere : t.entry? here = some .directory) :
    t.entry? there = some .directory ∨
      (∃ l name, there = l ++ [name] ∧ t.entry? l = some .directory) ∧
        ((mayMiss = true ∧ t.entry? there = none) ∨
          ∃ content, t.entry? there = some (.file content)) := by
  induction n generalizing links here way with
  | zero => simp [follow] at h
  | succ n ih =>
    cases way with
    | nil =>
      cases h
      exact .inl hhere
    | cons name rest =>
      by_cases hskip : name = "" ∨ name = "."
      · rw [follow_skip hskip] at h
        exact ih h hhere
      by_cases hup : name = ".."
      · subst hup
        rw [follow_up] at h
        split at h
        · simp at h
        · exact ih h (ht.dropLast hhere)
      rw [follow_plain ⟨fun hn => hskip (.inl hn), fun hn => hskip (.inr hn), hup⟩] at h
      split at h
      · next hentry =>
        split at h
        · next hlast =>
          cases h
          rw [Bool.and_eq_true] at hlast
          exact .inr ⟨⟨here, name, rfl, hhere⟩, .inl ⟨hlast.1, hentry⟩⟩
        · simp at h
      · next hentry => exact ih h hentry
      · next content hentry =>
        split at h
        · cases h
          exact .inr ⟨⟨here, name, rfl, hhere⟩, .inr ⟨content, hentry⟩⟩
        · simp at h
      · split at h
        · simp at h
        · simp at h
        · next horigin => exact ih h (directory_of_origin? hhere horigin)

/-- A route is found. -/
theorem Route.follow_eq {links : Nat} {here there : Location} {way : List String}
    (h : Route t links here way there) (mayMiss : Bool) {n : Nat}
    (hn : way.length + links * t.linkSteps < n) :
    t.follow mayMiss n links here way = .ok there := by
  induction h generalizing n with
  | file hname hentry =>
    obtain ⟨n, rfl⟩ : ∃ m, n = m + 1 := ⟨n - 1, by omega⟩
    rw [follow_plain hname, hentry]
    rfl
  | skip hname _ ih =>
    obtain ⟨n, rfl⟩ : ∃ m, n = m + 1 := ⟨n - 1, by omega⟩
    rw [follow_skip hname]
    exact ih (by simp only [List.length_cons] at hn; omega)
  | up hhere _ ih =>
    obtain ⟨n, rfl⟩ : ∃ m, n = m + 1 := ⟨n - 1, by omega⟩
    rw [follow_up, if_neg hhere]
    exact ih (by simp only [List.length_cons] at hn; omega)
  | down hname hentry _ ih =>
    obtain ⟨n, rfl⟩ : ∃ m, n = m + 1 := ⟨n - 1, by omega⟩
    rw [follow_plain hname, hentry]
    exact ih (by simp only [List.length_cons] at hn; omega)
  | @link links here next there name target way tail hname hentry horigin _ ih =>
    obtain ⟨n, rfl⟩ : ∃ m, n = m + 1 := ⟨n - 1, by omega⟩
    rw [follow_plain hname, hentry]
    simp only [horigin]
    apply ih
    -- The names of a target are paid for by the link that was met.
    have hway := (origin?_spec horigin).2
    have htarget := length_le_linkSteps hentry
    simp only [List.length_cons, List.length_append, Nat.add_mul, Nat.one_mul] at hn ⊢
    omega

theorem Route.mono {links more : Nat} {here there : Location} {way : List String}
    (h : Route t links here way there) (hle : links ≤ more) : Route t more here way there := by
  induction h generalizing more with
  | file hname hentry => exact .file hname hentry
  | skip hname _ ih => exact .skip hname (ih hle)
  | up hhere _ ih => exact .up hhere (ih hle)
  | down hname hentry _ ih => exact .down hname hentry (ih hle)
  | link hname hentry horigin _ ih =>
    obtain ⟨m, rfl⟩ : ∃ m, more = m + 1 := ⟨more - 1, by omega⟩
    exact .link hname hentry horigin (ih (by omega))

theorem Route.isFile {links : Nat} {here there : Location} {way : List String}
    (h : Route t links here way there) : ∃ content, t.entry? there = some (.file content) := by
  induction h with
  | file _ hentry => exact ⟨_, hentry⟩
  | skip _ _ ih | up _ _ ih | down _ _ _ ih | link _ _ _ _ ih => exact ih

/-- Names lead to one file only. -/
theorem Route.unique {links links' : Nat} {here there there' : Location} {way : List String}
    (h : Route t links here way there) (h' : Route t links' here way there') : there = there' := by
  have heq := (h.mono (Nat.le_max_left links links')).follow_eq false (Nat.lt_succ_self _)
  have heq' := (h'.mono (Nat.le_max_right links links')).follow_eq false (Nat.lt_succ_self _)
  exact Except.ok.inj (heq.symm.trans heq')

/-! Files that paths lead to -/

/-- A path that leads to a file. -/
def Leads (t : Tree) (path : String) (l : Location) : Prop :=
  ∃ way, t.origin? [] path = some ([], way) ∧ Route t maxLinks [] way l

theorem leads_iff (ht : t.WellFormed) {path : String} {l : Location} :
    t.Leads path l ↔ t.resolve [] path = .ok l ∧ ∃ c, t.entry? l = some (.file c) := by
  constructor
  · rintro ⟨way, horigin, hroute⟩
    refine ⟨?_, hroute.isFile⟩
    have hway := (origin?_spec horigin).2
    simp only [resolve, horigin]
    apply hroute.follow_eq false
    rw [stepsFor_eq]
    omega
  · rintro ⟨hresolve, c, hfile⟩
    unfold resolve at hresolve
    split at hresolve
    · next here way horigin =>
      obtain rfl : here = [] := (origin?_spec horigin).1.elim id id
      exact ⟨way, horigin, route_of_follow ht hresolve t.entry?_nil hfile⟩
    · simp at hresolve

theorem readText_eq_ok_iff (ht : t.WellFormed) {path text : String} :
    t.readText [] path = .ok text ↔
      ∃ l, t.Leads path l ∧ t.entry? l = some (.file (.text text)) := by
  constructor
  · intro h
    unfold readText readContent at h
    cases hresolve : t.resolve [] path with
    | error f => simp [hresolve, bind, Except.bind] at h
    | ok l =>
      simp only [hresolve, bind, Except.bind] at h
      cases hentry : t.entry? l with
      | none => simp [hentry, throw, throwThe, MonadExceptOf.throw] at h
      | some e =>
        cases e with
        | link target => simp [hentry, throw, throwThe, MonadExceptOf.throw] at h
        | directory => simp [hentry, throw, throwThe, MonadExceptOf.throw] at h
        | file c =>
          refine ⟨l, (leads_iff ht).mpr ⟨hresolve, c, hentry⟩, ?_⟩
          cases c with
          | text old =>
            simp only [hentry, pure, Except.pure, Except.ok.injEq] at h
            rw [hentry, h]
          | bytes b => simp [hentry, pure, Except.pure, throw, throwThe, MonadExceptOf.throw] at h
          | database s =>
            simp [hentry, pure, Except.pure, throw, throwThe, MonadExceptOf.throw] at h
  · rintro ⟨l, hleads, hentry⟩
    simp [readText, readContent, ((leads_iff ht).mp hleads).1, hentry, bind, Except.bind, pure,
      Except.pure]

namespace Leads

variable {path : String} {l l' : Location}

theorem pathExists (ht : t.WellFormed) (h : t.Leads path l) : t.pathExists [] path = true := by
  rw [Tree.pathExists, ((leads_iff ht).mp h).1]

theorem grow (h : t.Leads path l) (hgrows : Grows t u) : u.Leads path l := by
  obtain ⟨way, horigin, hroute⟩ := h
  exact ⟨way, hgrows.origin? ▸ horigin, hgrows.route hroute⟩

theorem unique (h : t.Leads path l) (h' : t.Leads path l') : l = l' := by
  obtain ⟨way, horigin, hroute⟩ := h
  obtain ⟨way', horigin', hroute'⟩ := h'
  obtain ⟨-, rfl⟩ := Prod.mk.inj (Option.some.inj (horigin.symm.trans horigin'))
  exact hroute.unique hroute'

/-- A path that is there leads already to where it leads later. -/
theorem of_pathExists (ht : t.WellFormed) (hu : u.WellFormed) (hgrows : Grows t u)
    (h : u.Leads path l) (hpath : t.pathExists [] path = true) : t.Leads path l := by
  unfold Tree.pathExists at hpath
  split at hpath
  · next place hresolve =>
    have hentry := hresolve
    unfold Tree.resolve at hentry
    split at hentry
    · next here way horigin =>
      obtain hdir | ⟨-, hmiss | hfile⟩ :=
        entry_of_follow ht hentry (directory_of_origin? t.entry?_nil horigin)
      · obtain ⟨here', way', horigin', hwalk⟩ := hgrows.resolve hresolve hdir
        obtain ⟨hlater, c, hc⟩ := (leads_iff hu).mp h
        rw [resolve_of_walk (hgrows.origin? ▸ horigin') hwalk] at hlater
        obtain rfl := Except.ok.inj hlater
        simp [hgrows.directory _ hdir] at hc
      · simp at hmiss
      · have hold : t.Leads path place := (leads_iff ht).mpr ⟨hresolve, hfile⟩
        rwa [(hold.grow hgrows).unique h] at hold
    · simp at hentry
  · simp at hpath

/-- A path that leads past a new file led there before. -/
theorem of_set {content : Content} (hl : l' ≠ []) (h : (t.set l' (.file content)).Leads path l)
    (hne : l ≠ l') : t.Leads path l := by
  obtain ⟨way, horigin, hroute⟩ := h
  refine ⟨way, by rwa [origin?_set] at horigin, ?_⟩
  clear horigin
  generalize maxLinks = links at hroute
  generalize ([] : Location) = here at hroute
  have hother : ∀ {place e}, entry? (t.set l' (.file content)) place = some e →
      (∀ c, e ≠ .file c) → t.entry? place = some e := by
    intro place e hentry hfile
    rw [entry?_set hl] at hentry
    split at hentry
    · exact absurd (Option.some.inj hentry).symm (hfile content)
    · exact hentry
  induction hroute with
  | file hname hentry =>
    rw [entry?_set hl, if_neg hne] at hentry
    exact .file hname hentry
  | skip hname _ ih => exact .skip hname (ih hne)
  | up hhere _ ih => exact .up hhere (ih hne)
  | down hname hentry _ ih => exact .down hname (hother hentry (by simp)) (ih hne)
  | link hname hentry horigin _ ih =>
    rw [origin?_set] at horigin
    exact .link hname (hother hentry (by simp)) horigin (ih hne)

end Leads

end CodeIndex.Files.Tree
