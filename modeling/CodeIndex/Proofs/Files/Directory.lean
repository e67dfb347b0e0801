import CodeIndex.Proofs.Files.Walking

/-!
Files of a directory. A path that leads to a directory, followed by a stroke and a name, leads to
the entry of that name: it can be read where it is a file and written where it is no directory.
Writing it changes no other entry, and the path of the directory leads to it as before.
-/
namespace CodeIndex.Files.Tree

variable {t : Tree}

/-- A name that paths do not cut. -/
structure IsFileName (name : String) : Prop where
  plain : IsPlain name
  whole : '/' ∉ name.toList

/-! Names of a path -/

theorem names_whole {name : String} (h : '/' ∉ name.toList) : names name = [name] := by
  rw [names, Text.Pieces.split, Text.Pieces.splitChars_whole h]
  simp

theorem names_child {name : String} (h : '/' ∉ name.toList) (dir : String) :
    names (dir ++ "/" ++ name) = names dir ++ [name] := by
  rw [names, Text.Pieces.split, String.toList_append, String.toList_append, List.append_assoc]
  change (Text.Pieces.splitChars '/' (dir.toList ++ '/' :: name.toList)).map String.ofList = _
  rw [Text.Pieces.splitChars_append_whole h, List.map_append]
  simp [names, Text.Pieces.split]

/-! Where the path of an entry starts -/

theorem origin?_below {start : Location} {path rest : String}
    (h : path = t.base ++ "/" ++ rest) : t.origin? start path = some ([], names rest) := by
  have hempty : path ≠ "" := by
    rw [h]
    simp
  have hbase : path ≠ t.base := by
    intro heq
    have hlength := congrArg String.length (h.symm.trans heq)
    have hstroke : "/".length = 1 := rfl
    simp only [String.length_append] at hlength
    omega
  simp [origin?, hempty, hbase, stripStart_eq_some.mpr h]

theorem origin?_relative (ht : t.WellFormed) {start : Location} {path : String} {c : Char}
    {cs : List Char} (hpath : path.toList = c :: cs) (hc : c ≠ '/') :
    t.origin? start path = some (start, names path) := by
  obtain ⟨base, hbase⟩ := ht.rooted
  have hempty : path ≠ "" := by
    rintro rfl
    simp at hpath
  have hnot : ∀ rest, path.toList ≠ t.base.toList ++ rest := by
    intro rest heq
    rw [hpath, hbase, List.cons_append] at heq
    exact hc (List.cons.inj heq).1
  have hne : path ≠ t.base := by
    intro heq
    exact hnot [] (by rw [heq, List.append_nil])
  have hstrip : Text.Pieces.stripStart (t.base ++ "/") path = none := by
    rw [Option.eq_none_iff_forall_ne_some]
    intro rest hrest
    rw [stripStart_eq_some] at hrest
    apply hnot ("/" ++ rest).toList
    rw [hrest]
    simp [String.toList_append]
  have hstroke : path.startsWith "/" = false := by
    rw [String.startsWith_string_eq_false_iff, hpath]
    intro hhead
    exact hc (List.cons_prefix_cons.mp hhead).1.symm
  simp [origin?, hempty, hne, hstrip, hstroke]

/-- The names of the path of an entry are those of its directory and the last one. -/
theorem origin?_child (ht : t.WellFormed) {start here : Location} {dir name : String}
    {way : List String} (hdir : dir ≠ "") (hname : '/' ∉ name.toList)
    (h : t.origin? start dir = some (here, way)) :
    t.origin? start (dir ++ "/" ++ name) = some (here, way ++ [name]) := by
  obtain ⟨c, cs, hcs⟩ : ∃ c cs, dir.toList = c :: cs :=
    List.exists_cons_of_ne_nil (by simpa using hdir)
  unfold origin? at h
  rw [if_neg (by simpa using hdir)] at h
  split at h
  · next hbase =>
    cases h
    rw [origin?_below (by rw [beq_iff_eq.mp hbase]), names_whole hname]
    rfl
  · split at h
    · next rest hstrip =>
      cases h
      rw [stripStart_eq_some] at hstrip
      have hpath : dir ++ "/" ++ name = t.base ++ "/" ++ (rest ++ "/" ++ name) := by
        simp [hstrip, String.append_assoc]
      rw [origin?_below hpath, names_child hname]
    · split at h
      · simp at h
      · next hstroke =>
        cases h
        have hc : c ≠ '/' := by
          rintro rfl
          apply hstroke
          rw [String.startsWith_string_iff, hcs]
          exact ⟨cs, rfl⟩
        have hpath : (dir ++ "/" ++ name).toList = c :: (cs ++ ("/" ++ name).toList) := by
          simp [String.toList_append, hcs]
        rw [origin?_relative ht hpath hc, names_child hname]

/-! Directories that are there -/

theorem not_mem_names {path name : String} (h : name ∈ names path) : '/' ∉ name.toList := by
  obtain ⟨piece, hpiece, rfl⟩ := List.mem_map.mp h
  rw [String.toList_ofList]
  exact Text.Pieces.not_mem_splitChars hpiece

theorem not_mem_origin? {start here : Location} {path : String} {way : List String}
    (h : t.origin? start path = some (here, way)) : ∀ name ∈ way, '/' ∉ name.toList := by
  unfold origin? at h
  split at h
  · cases h
    simp
  · split at h
    · cases h
      simp
    · split at h
      · cases h
        exact fun _ => not_mem_names
      · split at h
        · simp at h
        · cases h
          exact fun _ => not_mem_names

/-- A path that leads to a directory. -/
structure At (t : Tree) (dir : String) (l : Location) : Prop where
  wellFormed : t.WellFormed
  named : dir ≠ ""
  resolves : t.resolve [] dir = .ok l
  directory : t.entry? l = some .directory

theorem resolve_of_walk {start here l : Location} {path : String} {way : List String}
    (horigin : t.origin? start path = some (here, way)) (hwalk : Walk t maxLinks here way l) :
    t.resolve start path = .ok l := by
  have hway := (origin?_spec horigin).2
  simp only [resolve, horigin]
  apply hwalk.follow_eq
  rw [stepsFor_eq]
  omega

/-- A walk along one name that is passed over stays where it is. -/
theorem Walk.eq_of_skip {links : Nat} {here there : Location} {name : String}
    (h : Walk t links here [name] there) (hskip : name = "" ∨ name = ".") : there = here := by
  cases h with
  | skip _ hdone =>
    cases hdone
    rfl
  | up => simp at hskip
  | down hplain => exact absurd hskip (by simp [hplain.1, hplain.2.1])
  | link hplain => exact absurd hskip (by simp [hplain.1, hplain.2.1])

theorem makeNames_of_walk (ht : t.WellFormed) {here there : Location} {way : List String}
    (hwhole : ∀ name ∈ way, '/' ∉ name.toList) (hhere : t.entry? here = some .directory)
    (h : Walk t maxLinks here way there) : makeNames here way t = .ok t := by
  induction way generalizing here with
  | nil => rfl
  | cons name rest ih =>
    have hcut : Walk t maxLinks here ([name] ++ rest) there := h
    obtain ⟨mid, hname, hrest, hmid⟩ := hcut.split ht hhere
    have hnext := ih (fun n hn => hwhole n (List.mem_cons_of_mem _ hn)) hmid hrest
    rw [makeNames]
    split
    · next hskip =>
      rw [← hname.eq_of_skip (by simpa using hskip)]
      exact hnext
    · next hskip =>
      obtain ⟨c, cs, hcs⟩ : ∃ c cs, name.toList = c :: cs := by
        apply List.exists_cons_of_ne_nil
        intro hnil
        simp_all
      have hc : c ≠ '/' := by
        rintro rfl
        exact hwhole name List.mem_cons_self (by simp [hcs])
      have horigin : t.origin? here name = some (here, names name) := origin?_relative ht hcs hc
      rw [names_whole (hwhole name List.mem_cons_self)] at horigin
      simp only [resolve_of_walk horigin hname, hmid]
      exact hnext

/-- The names of a directory and one more are followed within the steps of the longer path. -/
theorem steps_child {dir : String} (way : List String) (name : String)
    (hway : way.length ≤ dir.length + 1) :
    way.length + 1 + maxLinks * t.linkSteps < t.stepsFor (dir ++ "/" ++ name) := by
  have hstroke : "/".length = 1 := rfl
  rw [stepsFor_eq, String.length_append, String.length_append]
  omega

namespace At

variable {dir : String} {l : Location} (h : t.At dir l)
include h

theorem exists_walk : ∃ way, t.origin? [] dir = some ([], way) ∧ Walk t maxLinks [] way l := by
  have hresolves := h.resolves
  unfold resolve at hresolves
  split at hresolves
  · next here way horigin =>
    have hhere : here = [] := (origin?_spec horigin).1.elim id id
    subst hhere
    exact ⟨way, horigin, walk_of_follow hresolves h.directory⟩
  · simp at hresolves

theorem isDirectory : t.isDirectory [] dir = true := by
  simp [Tree.isDirectory, h.resolves, h.directory]

/-- The path of an entry that is no link. -/
theorem resolve_child {name : String} (hname : IsFileName name)
    (hentry : ∀ target, t.entry? (l ++ [name]) ≠ some (.link target)) :
    t.resolve [] (dir ++ "/" ++ name) =
      if (t.entry? (l ++ [name])).isSome then .ok (l ++ [name]) else .error .notFound := by
  obtain ⟨way, horigin, hwalk⟩ := h.exists_walk
  have hway := (origin?_spec horigin).2
  simp only [resolve, origin?_child h.wellFormed h.named hname.whole horigin]
  exact hwalk.follow_name hname.plain hentry (steps_child way name hway)

/-- The place of an entry that is no link, be it there or not. -/
theorem resolveNew_child {name : String} (hname : IsFileName name)
    (hentry : ∀ target, t.entry? (l ++ [name]) ≠ some (.link target)) :
    t.resolveNew [] (dir ++ "/" ++ name) = .ok (l ++ [name]) := by
  obtain ⟨way, horigin, hwalk⟩ := h.exists_walk
  have hway := (origin?_spec horigin).2
  simp only [resolveNew, origin?_child h.wellFormed h.named hname.whole horigin]
  exact hwalk.follow_name hname.plain hentry (steps_child way name hway)

theorem pathExists_child {name : String} (hname : IsFileName name)
    (hentry : ∀ target, t.entry? (l ++ [name]) ≠ some (.link target)) :
    t.pathExists [] (dir ++ "/" ++ name) = (t.entry? (l ++ [name])).isSome := by
  rw [pathExists, h.resolve_child hname hentry]
  cases (t.entry? (l ++ [name])).isSome <;> rfl

theorem readText_child {name text : String} (hname : IsFileName name)
    (hentry : t.entry? (l ++ [name]) = some (.file (.text text))) :
    t.readText [] (dir ++ "/" ++ name) = .ok text := by
  have hresolve := h.resolve_child hname (by simp [hentry])
  simp only [hentry, Option.isSome_some, if_true] at hresolve
  simp [readText, readContent, hresolve, hentry, bind, Except.bind, pure, Except.pure]

theorem readText_missing {name : String} (hname : IsFileName name)
    (hentry : t.entry? (l ++ [name]) = none) :
    t.readText [] (dir ++ "/" ++ name) = .error .notFound := by
  have hresolve := h.resolve_child hname (by simp [hentry])
  simp only [hentry, Option.isSome_none, Bool.false_eq_true, if_false] at hresolve
  simp [readText, readContent, hresolve, bind, Except.bind]

theorem write_child {name : String} (hname : IsFileName name) (content : Content)
    (hfree : t.entry? (l ++ [name]) = none ∨ ∃ c, t.entry? (l ++ [name]) = some (.file c)) :
    t.write [] (dir ++ "/" ++ name) content = .ok (t.set (l ++ [name]) (.file content)) := by
  have hentry : ∀ target, t.entry? (l ++ [name]) ≠ some (.link target) := by
    rcases hfree with hnone | ⟨c, hc⟩ <;> simp [*]
  rw [write, h.resolveNew_child hname hentry]
  simp only [bind, Except.bind]
  rcases hfree with hnone | ⟨c, hc⟩
  · rw [hnone]
    rfl
  · rw [hc]
    rfl

/-- A written file leaves the directory where it was. -/
theorem set {name : String} {content : Content}
    (hfree : t.entry? (l ++ [name]) = none ∨ ∃ c, t.entry? (l ++ [name]) = some (.file c)) :
    (t.set (l ++ [name]) (.file content)).At dir l := by
  have hne : l ++ [name] ≠ [] := by simp
  obtain ⟨way, horigin, hwalk⟩ := h.exists_walk
  have hnotdir : t.entry? (l ++ [name]) ≠ some .directory := by
    rcases hfree with hnone | ⟨c, hc⟩ <;> simp [*]
  refine ⟨h.wellFormed.set h.directory hnotdir, h.named, ?_, ?_⟩
  · refine resolve_of_walk ?_ (hwalk.set hne hfree)
    rw [origin?_set]
    exact horigin
  · rw [entry?_set hne, if_neg (by simp), h.directory]

/-- Nothing is made where a directory is. -/
theorem makeDirectories : t.makeDirectories [] dir = .ok t := by
  obtain ⟨way, horigin, hwalk⟩ := h.exists_walk
  rw [Tree.makeDirectories]
  simp only [horigin]
  exact makeNames_of_walk h.wellFormed (not_mem_origin? horigin) t.entry?_nil hwalk

end At

/-- A tree with entries in its base only. -/
theorem wellFormed_of_flat (hrooted : ∃ cs, t.base.toList = '/' :: cs)
    (h : ∀ e ∈ t.entries, ∃ name, e.1 = [name]) : t.WellFormed := by
  refine ⟨hrooted, fun l name hsome => ?_⟩
  rw [entry?_of_ne_nil (by simp), Option.isSome_map, List.find?_isSome] at hsome
  obtain ⟨e, he, hplace⟩ := hsome
  obtain ⟨name', hname⟩ := h e he
  obtain rfl : l = [] := by
    have hlength := congrArg List.length (hname.symm.trans (beq_iff_eq.mp hplace))
    simpa using hlength
  exact t.entry?_nil

end CodeIndex.Files.Tree
