import CodeIndex.Proofs.Files.Routes

/-!
Writing files and making directories. What is written through a path is put where the path leads to
afterwards, also when it goes through links and when the tree has grown since; directories that were
made are not made again.
-/
namespace CodeIndex.Files.Tree

variable {t u : Tree}

/-! Writing through links -/

/-- A write puts the file into a directory, where none is or over another one, and its path leads
there afterwards. -/
theorem write_eq_ok (ht : t.WellFormed) {path : String} {content : Content}
    (h : t.write [] path content = .ok u) :
    ∃ l name, t.entry? l = some .directory ∧
      (t.entry? (l ++ [name]) = none ∨ ∃ c, t.entry? (l ++ [name]) = some (.file c)) ∧
      u = t.set (l ++ [name]) (.file content) ∧ u.Leads path (l ++ [name]) := by
  unfold write resolveNew at h
  split at h
  · next here way horigin =>
    have hhere := directory_of_origin? t.entry?_nil horigin
    obtain rfl : here = [] := (origin?_spec horigin).1.elim id id
    cases hfollow : t.follow true (t.stepsFor path) maxLinks [] way with
    | error f => simp [hfollow, bind, Except.bind] at h
    | ok place =>
      simp only [hfollow, bind, Except.bind] at h
      obtain hdir | ⟨⟨l, name, rfl, hdir⟩, hfree⟩ := entry_of_follow ht hfollow hhere
      · simp [hdir, throw, throwThe, MonadExceptOf.throw] at h
      · have hfree := hfree.imp_left And.right
        have hset : u = t.set (l ++ [name]) (.file content) := by
          rcases hfree with hnone | ⟨c, hc⟩
          · simpa [hnone, pure, Except.pure, eq_comm] using h
          · simpa [hc, pure, Except.pure, eq_comm] using h
        have hgrows : Grows t u :=
          hset ▸ .set (by simp) (hfree.imp_right fun hfile => ⟨hfile, content, rfl⟩)
        have hnew : u.entry? (l ++ [name]) = some (.file content) := by
          rw [hset, entry?_set (by simp), if_pos rfl]
        exact ⟨l, name, hdir, hfree, hset, way, hgrows.origin? ▸ horigin,
          hgrows.route_of_follow ht hfollow hhere hnew⟩
  · simp [bind, Except.bind] at h

/-- A write keeps the tree well formed, and the tree grows. -/
theorem WellFormed.write (ht : t.WellFormed) {path : String} {content : Content}
    (h : t.write [] path content = .ok u) : u.WellFormed ∧ Grows t u := by
  obtain ⟨l, name, hdir, hfree, rfl, -⟩ := write_eq_ok ht h
  constructor
  · apply ht.set hdir
    rcases hfree with hnone | ⟨c, hc⟩ <;> simp [*]
  · exact .set (by simp) (hfree.imp_right fun hfile => ⟨hfile, content, rfl⟩)

/-- What is written through a path is put where the path leads to afterwards. -/
theorem write_eq_set {t' : Tree} {path : String} {content : Content} {l : Location}
    (ht : t.WellFormed) (h : t.write [] path content = .ok t') (hlater : Grows t' u)
    (hleads : u.Leads path l) : t' = t.set l (.file content) := by
  obtain ⟨place, name, -, -, hset, hplace⟩ := write_eq_ok ht h
  rw [hset, (hplace.grow hlater).unique hleads]

/-- A text that was written is read back. -/
theorem readText_write {path text : String} (ht : t.WellFormed)
    (h : t.write [] path (.text text) = .ok u) : u.readText [] path = .ok text := by
  obtain ⟨l, name, -, -, hset, hleads⟩ := write_eq_ok ht h
  refine (readText_eq_ok_iff (ht.write h).1).mpr ⟨_, hleads, ?_⟩
  rw [hset, entry?_set (by simp), if_pos rfl]

/-! Making directories -/

theorem WellFormed.set_directory (ht : t.WellFormed) {l : Location} {name : String}
    (hdir : t.entry? l = some .directory) : (t.set (l ++ [name]) .directory).WellFormed := by
  have hne : l ++ [name] ≠ [] := by simp
  refine ⟨by rw [base_set]; exact ht.rooted, fun l' name' hsome => ?_⟩
  rw [entry?_set hne] at hsome ⊢
  split
  · rfl
  · split at hsome
    · next heq => rw [(List.append_inj' heq rfl).1, hdir]
    · exact ht.closed l' name' hsome

/-- Directories that were made are there, and are not made again. -/
theorem makeNames_spec (ht : t.WellFormed) {here : Location} {way : List String}
    (hwhole : ∀ name ∈ way, '/' ∉ name.toList) (hhere : t.entry? here = some .directory)
    {t' : Tree} (h : makeNames here way t = .ok t') :
    t'.WellFormed ∧ Grows t t' ∧ ∀ u, u.WellFormed → Grows t' u → makeNames here way u = .ok u := by
  induction way generalizing here t with
  | nil =>
    cases h
    exact ⟨ht, .refl _, fun _ _ _ => rfl⟩
  | cons name rest ih =>
    have hwhole' : ∀ name ∈ rest, '/' ∉ name.toList :=
      fun n hn => hwhole n (List.mem_cons_of_mem _ hn)
    rw [makeNames] at h
    split at h
    · next hskip =>
      obtain ⟨ht', hgrows, hagain⟩ := ih ht hwhole' hhere h
      refine ⟨ht', hgrows, fun u hu hlater => ?_⟩
      rw [makeNames, if_pos hskip]
      exact hagain u hu hlater
    · next hskip =>
      split at h
      · next l hresolve =>
        split at h
        · next hdir =>
          obtain ⟨ht', hgrows, hagain⟩ := ih ht hwhole' hdir h
          refine ⟨ht', hgrows, fun u hu hlater => ?_⟩
          have hall := hgrows.trans hlater
          obtain ⟨here', way', horigin, hwalk⟩ := hall.resolve hresolve hdir
          rw [makeNames, if_neg hskip, resolve_of_walk (hall.origin? ▸ horigin) hwalk]
          simp only [hall.directory l hdir]
          exact hagain u hu hlater
        · simp at h
      · split at h
        · simp at h
        · next hup =>
          split at h
          · simp at h
          · next hfree =>
            have hset : Grows t (t.set (here ++ [name]) .directory) := .set (by simp) (.inl hfree)
            have hnew : entry? (t.set (here ++ [name]) .directory) (here ++ [name]) =
                some .directory := by
              rw [entry?_set (by simp), if_pos rfl]
            obtain ⟨ht', hgrows, hagain⟩ := ih (ht.set_directory hhere) hwhole' hnew h
            refine ⟨ht', hset.trans hgrows, fun u hu hlater => ?_⟩
            have hdir := (hgrows.trans hlater).directory _ hnew
            have hplain : IsPlain name := by
              simp only [Bool.or_eq_true, beq_iff_eq, not_or] at hskip hup
              exact ⟨hskip.1, hskip.2, hup⟩
            obtain ⟨c, cs, hcs⟩ : ∃ c cs, name.toList = c :: cs :=
              List.exists_cons_of_ne_nil (by simpa using hplain.1)
            have hc : c ≠ '/' := by
              rintro rfl
              exact hwhole name List.mem_cons_self (by simp [hcs])
            have horigin : u.origin? here name = some (here, names name) :=
              origin?_relative hu hcs hc
            rw [names_whole (hwhole name List.mem_cons_self)] at horigin
            rw [makeNames, if_neg hskip,
              resolve_of_walk horigin (.down hplain hdir (.done _ _))]
            simp only [hdir]
            exact hagain u hu hlater

theorem makeDirectories_spec (ht : t.WellFormed) {path : String} {t' : Tree}
    (h : t.makeDirectories [] path = .ok t') :
    t'.WellFormed ∧ Grows t t' ∧
      ∀ u, u.WellFormed → Grows t' u → u.makeDirectories [] path = .ok u := by
  unfold makeDirectories at h
  split at h
  · next here way horigin =>
    have hhere := directory_of_origin? t.entry?_nil horigin
    obtain ⟨ht', hgrows, hagain⟩ := makeNames_spec ht (not_mem_origin? horigin) hhere h
    refine ⟨ht', hgrows, fun u hu hlater => ?_⟩
    rw [makeDirectories, (hgrows.trans hlater).origin?, horigin]
    exact hagain u hu hlater
  · simp at h

end CodeIndex.Files.Tree
