import CodeIndex.Files.Tree
import Mathlib.Data.List.Basic

/-!
Directories that paths lead to. A walk is a derivation that a list of names leads from one directory
to another one; it says what the bounded search finds, and unlike the search it can be cut and
joined. A walk goes through no file, so it stays one when files are written.
-/
namespace CodeIndex.Files.Tree

variable {t : Tree}

/-- A name that leads to an entry below a directory. -/
def IsPlain (name : String) : Prop := name ≠ "" ∧ name ≠ "." ∧ name ≠ ".."

/-- Names that lead from one directory to another one and meet no more than a number of links. -/
inductive Walk (t : Tree) : Nat → Location → List String → Location → Prop where
  | done (links : Nat) (here : Location) : Walk t links here [] here
  | skip {links : Nat} {here there : Location} {name : String} {rest : List String}
      (hname : name = "" ∨ name = ".") (hrest : Walk t links here rest there) :
      Walk t links here (name :: rest) there
  | up {links : Nat} {here there : Location} {rest : List String} (hhere : here ≠ [])
      (hrest : Walk t links here.dropLast rest there) : Walk t links here (".." :: rest) there
  | down {links : Nat} {here there : Location} {name : String} {rest : List String}
      (hname : IsPlain name) (hentry : t.entry? (here ++ [name]) = some .directory)
      (hrest : Walk t links (here ++ [name]) rest there) : Walk t links here (name :: rest) there
  | link {links : Nat} {here next there : Location} {name target : String}
      {way rest : List String} (hname : IsPlain name)
      (hentry : t.entry? (here ++ [name]) = some (.link target))
      (horigin : t.origin? here target = some (next, way))
      (hrest : Walk t links next (way ++ rest) there) : Walk t (links + 1) here (name :: rest) there

/-- The most names that following an entry adds to a path. -/
def targetSteps : Entry → Nat
  | .link target => target.length + 1
  | _ => 0

/-- The names that all links of the tree add to a path. -/
def linkSteps (t : Tree) : Nat := t.entries.foldr (fun e n => targetSteps e.2 + n) 0

theorem stepsFor_eq (t : Tree) (path : String) :
    t.stepsFor path = path.length + 2 + maxLinks * t.linkSteps := by
  unfold stepsFor linkSteps
  generalize path.length + 2 = n
  induction t.entries generalizing n with
  | nil => rfl
  | cons e es ih =>
    rw [List.foldl_cons, List.foldr_cons, ih, Nat.mul_add, ← Nat.add_assoc]
    congr 1
    cases e.2 <;> rfl

/-! Where paths start -/

theorem length_splitChars_le (sep : Char) (cs : List Char) :
    (Text.Pieces.splitChars sep cs).length ≤ cs.length + 1 := by
  induction cs with
  | nil => simp [Text.Pieces.splitChars]
  | cons c cs ih =>
    simp only [Text.Pieces.splitChars]
    split
    · simpa using ih
    · split
      · simp
      · next piece more heq =>
        rw [heq] at ih
        simpa using Nat.le_succ_of_le ih

theorem length_names_le (path : String) : (names path).length ≤ path.length + 1 := by
  rw [names, Text.Pieces.split, List.length_map, ← String.length_toList]
  exact length_splitChars_le '/' path.toList

theorem stripStartChars_eq_some {head cs rest : List Char} :
    Text.Pieces.stripStartChars head cs = some rest ↔ cs = head ++ rest := by
  induction head generalizing cs with
  | nil => simp [Text.Pieces.stripStartChars]
  | cons p ps ih =>
    cases cs with
    | nil => simp [Text.Pieces.stripStartChars]
    | cons c cs =>
      by_cases hc : p = c
      · simp [Text.Pieces.stripStartChars, hc, ih]
      · simp [Text.Pieces.stripStartChars, hc, Ne.symm hc]

theorem stripStart_eq_some {head s rest : String} :
    Text.Pieces.stripStart head s = some rest ↔ s = head ++ rest := by
  rw [Text.Pieces.stripStart, Option.map_eq_some_iff]
  constructor
  · rintro ⟨cs, hcs, rfl⟩
    rw [stripStartChars_eq_some] at hcs
    rw [← String.toList_inj, String.toList_append, hcs, String.toList_ofList]
  · rintro rfl
    refine ⟨rest.toList, ?_, String.ofList_toList⟩
    rw [stripStartChars_eq_some, String.toList_append]

/-- A path starts where it is used or at the base, and its names are no more than its letters. -/
theorem origin?_spec {start here : Location} {path : String} {way : List String}
    (h : t.origin? start path = some (here, way)) :
    (here = start ∨ here = []) ∧ way.length ≤ path.length + 1 := by
  unfold origin? at h
  split at h
  · cases h
    exact ⟨.inl rfl, by simp⟩
  · split at h
    · cases h
      exact ⟨.inr rfl, by simp⟩
    · split at h
      · next rest hstrip =>
        cases h
        rw [stripStart_eq_some] at hstrip
        have hlength := length_names_le rest
        refine ⟨.inr rfl, ?_⟩
        rw [hstrip, String.length_append]
        omega
      · split at h
        · simp at h
        · cases h
          exact ⟨.inl rfl, length_names_le path⟩

theorem targetSteps_le {e : Location × Entry} (h : e ∈ t.entries) :
    targetSteps e.2 ≤ t.linkSteps := by
  unfold linkSteps
  generalize t.entries = es at h
  induction es with
  | nil => exact absurd h List.not_mem_nil
  | cons x xs ih =>
    rw [List.foldr_cons]
    rcases List.mem_cons.mp h with rfl | h
    · exact Nat.le_add_right _ _
    · have hrest := ih h
      omega

theorem length_le_linkSteps {l : Location} {target : String}
    (h : t.entry? l = some (.link target)) : target.length + 1 ≤ t.linkSteps := by
  unfold entry? at h
  split at h
  · simp at h
  · obtain ⟨e, hfound, he⟩ := Option.map_eq_some_iff.mp h
    have hle := targetSteps_le (List.mem_of_find?_eq_some hfound)
    rw [he] at hle
    exact hle

/-! Walks and the search -/

section Search

variable {mayMiss : Bool}

theorem follow_skip {n links : Nat} {here : Location} {name : String} {rest : List String}
    (h : name = "" ∨ name = ".") :
    t.follow mayMiss (n + 1) links here (name :: rest) = t.follow mayMiss n links here rest := by
  rcases h with rfl | rfl <;> simp [follow]

theorem follow_up {n links : Nat} {here : Location} {rest : List String} :
    t.follow mayMiss (n + 1) links here (".." :: rest) =
      if here = [] then .error .notFound else t.follow mayMiss n links here.dropLast rest := by
  simp [follow]

theorem follow_plain {n links : Nat} {here : Location} {name : String} {rest : List String}
    (h : IsPlain name) :
    t.follow mayMiss (n + 1) links here (name :: rest) =
      match t.entry? (here ++ [name]) with
      | none => if mayMiss && rest.isEmpty then .ok (here ++ [name]) else .error .notFound
      | some .directory => t.follow mayMiss n links (here ++ [name]) rest
      | some (.file _) => if rest.isEmpty then .ok (here ++ [name]) else .error .notDirectory
      | some (.link target) =>
        match links, t.origin? here target with
        | 0, _ => .error .tooManyLinks
        | _, none => .error .notFound
        | links + 1, some (there, way) => t.follow mayMiss n links there (way ++ rest) := by
  have hskip : (name == "" || name == ".") = false := by simp [h.1, h.2.1]
  have hup : (name == "..") = false := by simp [h.2.2]
  rw [follow, hskip, hup]
  rfl

/-- A directory that is found is reached by a walk. -/
theorem walk_of_follow {n links : Nat} {here there : Location} {way : List String}
    (h : t.follow mayMiss n links here way = .ok there) (hdir : t.entry? there = some .directory) :
    Walk t links here way there := by
  induction n generalizing links here way with
  | zero => simp [follow] at h
  | succ n ih =>
    cases way with
    | nil =>
      cases h
      exact .done links _
    | cons name rest =>
      by_cases hskip : name = "" ∨ name = "."
      · rw [follow_skip hskip] at h
        exact .skip hskip (ih h)
      by_cases hup : name = ".."
      · subst hup
        rw [follow_up] at h
        split at h
        · simp at h
        · next hhere => exact .up hhere (ih h)
      have hplain : IsPlain name := ⟨fun hn => hskip (.inl hn), fun hn => hskip (.inr hn), hup⟩
      rw [follow_plain hplain] at h
      split at h
      · next hentry =>
        split at h
        · cases h
          rw [hentry] at hdir
          simp at hdir
        · simp at h
      · next hentry => exact .down hplain hentry (ih h)
      · next content hentry =>
        split at h
        · cases h
          rw [hentry] at hdir
          simp at hdir
        · simp at h
      · next target hentry =>
        split at h
        · simp at h
        · simp at h
        · next hlinks next way horigin => exact .link hplain hentry horigin (ih h)

/-- The search that has found a directory goes on with what follows the names. -/
theorem Walk.follow_append {links : Nat} {here there : Location} {way : List String}
    (h : Walk t links here way there) (rest : List String) {n : Nat}
    (hn : way.length + rest.length + links * t.linkSteps < n) :
    ∃ n' links', rest.length < n' ∧
      t.follow mayMiss n links here (way ++ rest) = t.follow mayMiss n' links' there rest := by
  induction h generalizing n with
  | done links here => exact ⟨n, links, by omega, rfl⟩
  | skip hname _ ih =>
    obtain ⟨n, rfl⟩ : ∃ m, n = m + 1 := ⟨n - 1, by omega⟩
    rw [List.cons_append, follow_skip hname]
    exact ih (by simp only [List.length_cons] at hn; omega)
  | up hhere _ ih =>
    obtain ⟨n, rfl⟩ : ∃ m, n = m + 1 := ⟨n - 1, by omega⟩
    rw [List.cons_append, follow_up, if_neg hhere]
    exact ih (by simp only [List.length_cons] at hn; omega)
  | down hname hentry _ ih =>
    obtain ⟨n, rfl⟩ : ∃ m, n = m + 1 := ⟨n - 1, by omega⟩
    rw [List.cons_append, follow_plain hname, hentry]
    exact ih (by simp only [List.length_cons] at hn; omega)
  | @link links here next there name target way tail hname hentry horigin _ ih =>
    obtain ⟨n, rfl⟩ : ∃ m, n = m + 1 := ⟨n - 1, by omega⟩
    rw [List.cons_append, follow_plain hname, hentry]
    simp only [horigin]
    rw [← List.append_assoc]
    apply ih
    -- The names of a target are paid for by the link that was met.
    have hway := (origin?_spec horigin).2
    have htarget := length_le_linkSteps hentry
    simp only [List.length_cons, List.length_append, Nat.add_mul, Nat.one_mul] at hn ⊢
    omega

/-- A walk is found. -/
theorem Walk.follow_eq {links : Nat} {here there : Location} {way : List String}
    (h : Walk t links here way there) {n : Nat} (hn : way.length + links * t.linkSteps < n) :
    t.follow mayMiss n links here way = .ok there := by
  obtain ⟨n', links', hn', heq⟩ := h.follow_append [] (n := n) (by simpa using hn)
  obtain ⟨m, rfl⟩ : ∃ m, n' = m + 1 := ⟨n' - 1, by simp at hn'; omega⟩
  rw [List.append_nil] at heq
  rw [heq]
  rfl

/-- An entry of a directory that is no link is found where it is, or would be. -/
theorem Walk.follow_name {links : Nat} {here there : Location} {way : List String}
    (h : Walk t links here way there) {name : String} (hname : IsPlain name)
    (hentry : ∀ target, t.entry? (there ++ [name]) ≠ some (.link target)) {n : Nat}
    (hn : way.length + 1 + links * t.linkSteps < n) :
    t.follow mayMiss n links here (way ++ [name]) =
      if mayMiss || (t.entry? (there ++ [name])).isSome then .ok (there ++ [name])
      else .error .notFound := by
  obtain ⟨n', links', hn', heq⟩ := h.follow_append [name] hn
  obtain ⟨m, rfl⟩ : ∃ m, n' = m + 2 := ⟨n' - 2, by simp at hn'; omega⟩
  rw [heq, follow_plain hname]
  cases hfound : t.entry? (there ++ [name]) with
  | none => simp
  | some e =>
    cases e with
    | file content => simp
    | link target => exact absurd hfound (hentry target)
    | directory => simp [follow]

end Search

/-! Cutting walks -/

theorem Walk.mono {links more : Nat} {here there : Location} {way : List String}
    (h : Walk t links here way there) (hle : links ≤ more) : Walk t more here way there := by
  induction h generalizing more with
  | done links here => exact .done more here
  | skip hname _ ih => exact .skip hname (ih hle)
  | up hhere _ ih => exact .up hhere (ih hle)
  | down hname hentry _ ih => exact .down hname hentry (ih hle)
  | link hname hentry horigin _ ih =>
    obtain ⟨m, rfl⟩ : ∃ m, more = m + 1 := ⟨more - 1, by omega⟩
    exact .link hname hentry horigin (ih (by omega))

/-- What the operations on trees keep: the base is an absolute path, and what is above an entry is
a directory. -/
structure WellFormed (t : Tree) : Prop where
  rooted : ∃ cs, t.base.toList = '/' :: cs
  closed : ∀ (l : Location) (name : String), (t.entry? (l ++ [name])).isSome = true →
    t.entry? l = some .directory

theorem entry?_nil (t : Tree) : t.entry? [] = some .directory := rfl

/-- A walk along two lists of names stops at a directory between them. -/
theorem Walk.split (ht : t.WellFormed) {links : Nat} {here there : Location}
    {way rest : List String} (h : Walk t links here (way ++ rest) there)
    (hhere : t.entry? here = some .directory) :
    ∃ mid, Walk t links here way mid ∧ Walk t links mid rest there ∧
      t.entry? mid = some .directory := by
  generalize hall : way ++ rest = all at h
  induction h generalizing way with
  | done links here =>
    obtain ⟨rfl, rfl⟩ := List.append_eq_nil_iff.mp hall
    exact ⟨here, .done .., .done .., hhere⟩
  | @skip links here there name tail hname hwalk ih =>
    cases way with
    | nil =>
      rw [List.nil_append] at hall
      subst hall
      exact ⟨here, .done .., .skip hname hwalk, hhere⟩
    | cons first way =>
      obtain ⟨rfl, rfl⟩ := List.cons.inj hall
      obtain ⟨mid, hway, hrest, hmid⟩ := ih hhere rfl
      exact ⟨mid, .skip hname hway, hrest, hmid⟩
  | @up links here there tail hne hwalk ih =>
    cases way with
    | nil =>
      rw [List.nil_append] at hall
      subst hall
      exact ⟨here, .done .., .up hne hwalk, hhere⟩
    | cons first way =>
      obtain ⟨rfl, rfl⟩ := List.cons.inj hall
      have habove : t.entry? here.dropLast = some .directory := by
        apply ht.closed _ (here.getLast hne)
        rw [List.dropLast_concat_getLast, hhere]
        rfl
      obtain ⟨mid, hway, hrest, hmid⟩ := ih habove rfl
      exact ⟨mid, .up hne hway, hrest, hmid⟩
  | @down links here there name tail hname hentry hwalk ih =>
    cases way with
    | nil =>
      rw [List.nil_append] at hall
      subst hall
      exact ⟨here, .done .., .down hname hentry hwalk, hhere⟩
    | cons first way =>
      obtain ⟨rfl, rfl⟩ := List.cons.inj hall
      obtain ⟨mid, hway, hrest, hmid⟩ := ih hentry rfl
      exact ⟨mid, .down hname hentry hway, hrest, hmid⟩
  | @link links here next there name target names tail hname hentry horigin hwalk ih =>
    cases way with
    | nil =>
      rw [List.nil_append] at hall
      subst hall
      exact ⟨here, .done .., .link hname hentry horigin hwalk, hhere⟩
    | cons first way =>
      obtain ⟨rfl, rfl⟩ := List.cons.inj hall
      have hnext : t.entry? next = some .directory := by
        rcases (origin?_spec horigin).1 with rfl | rfl
        · exact hhere
        · exact t.entry?_nil
      obtain ⟨mid, hway, hrest, hmid⟩ := ih hnext (List.append_assoc ..)
      exact ⟨mid, .link hname hentry horigin hway, hrest.mono (Nat.le_succ _), hmid⟩

/-! Writing files -/

theorem base_set (t : Tree) (l : Location) (e : Entry) : (t.set l e).base = t.base := by
  unfold set
  split <;> rfl

theorem origin?_set (t : Tree) (l : Location) (e : Entry) : (t.set l e).origin? = t.origin? := by
  funext start path
  unfold origin?
  rw [base_set]

theorem entry?_of_ne_nil {l : Location} (hl : l ≠ []) :
    t.entry? l = (t.entries.find? fun x => x.1 == l).map Prod.snd := by
  unfold entry?
  rw [if_neg (by simpa using hl)]

/-- The entry that was put is there, and all others are as they were. -/
theorem entry?_set {l : Location} (hl : l ≠ []) (e : Entry) (l' : Location) :
    entry? (t.set l e) l' = if l' = l then some e else t.entry? l' := by
  by_cases hroot : l' = []
  · subst hroot
    rw [if_neg (Ne.symm hl)]
    rfl
  rw [entry?_of_ne_nil hroot, entry?_of_ne_nil hroot, set]
  split
  · next hany =>
    have hsame : ((fun x : Location × Entry => x.1 == l') ∘
        fun x => if x.1 == l then (l, e) else x) = fun x => x.1 == l' := by
      funext x
      by_cases hx : x.1 = l <;> simp [hx]
    rw [List.find?_map, hsame, Option.map_map]
    split
    · next heq =>
      subst heq
      obtain ⟨x, hx⟩ :=
        Option.isSome_iff_exists.mp (List.find?_isSome.mpr (List.any_eq_true.mp hany))
      have hfst := List.find?_some hx
      simp [hx, beq_iff_eq.mp hfst]
    · next hne =>
      cases hx : t.entries.find? fun x => x.1 == l' with
      | none => rfl
      | some x =>
        have hfst := List.find?_some hx
        simp [beq_iff_eq.mp hfst, hne]
  · next hnone =>
    rw [List.find?_append]
    split
    · next heq =>
      subst heq
      have hmissing : (t.entries.find? fun x => x.1 == l') = none := by
        rw [List.find?_eq_none]
        intro x hx hfst
        exact hnone (List.any_eq_true.mpr ⟨x, hx, hfst⟩)
      simp [hmissing]
    · next hne => simp [Ne.symm hne]

/-- Writing a file into a directory keeps the tree well formed. -/
theorem WellFormed.set (ht : t.WellFormed) {l : Location} {name : String} {c : Content}
    (hdir : t.entry? l = some .directory) (hfree : t.entry? (l ++ [name]) ≠ some .directory) :
    (t.set (l ++ [name]) (.file c)).WellFormed := by
  have hne : l ++ [name] ≠ [] := by simp
  refine ⟨?_, ?_⟩
  · rw [base_set]
    exact ht.rooted
  · intro l' name' hsome
    rw [entry?_set hne] at hsome ⊢
    have hdir' : t.entry? l' = some .directory := by
      split at hsome
      · next heq =>
        rw [(List.append_inj' heq rfl).1]
        exact hdir
      · exact ht.closed l' name' hsome
    rw [if_neg, hdir']
    rintro rfl
    exact hfree hdir'

/-- A walk goes through no file. -/
theorem Walk.set {links : Nat} {here there : Location} {way : List String}
    (h : Walk t links here way there) {l : Location} {e : Entry} (hl : l ≠ [])
    (hfree : t.entry? l = none ∨ ∃ c, t.entry? l = some (.file c)) :
    Walk (t.set l e) links here way there := by
  have hother : ∀ l' e', t.entry? l' = some e' → (∀ c, e' ≠ .file c) →
      entry? (t.set l e) l' = some e' := by
    intro l' e' hentry hfile
    rw [entry?_set hl, if_neg, hentry]
    rintro rfl
    rcases hfree with hnone | ⟨c, hc⟩
    · simp [hnone] at hentry
    · exact hfile c (Option.some.inj (hentry.symm.trans hc))
  induction h with
  | done links here => exact .done links here
  | skip hname _ ih => exact .skip hname ih
  | up hhere _ ih => exact .up hhere ih
  | down hname hentry _ ih => exact .down hname (hother _ _ hentry (by simp)) ih
  | link hname hentry horigin _ ih =>
    refine .link hname (hother _ _ hentry (by simp)) ?_ ih
    rw [origin?_set]
    exact horigin

end CodeIndex.Files.Tree
