import CodeIndex.Proofs.Files.Writing
import CodeIndex.Proofs.Operation
import CodeIndex.Proofs.Sync.Directory

/-!
What an export leaves in a directory that held anything before. The files of an export may be links,
and one may lead to where another one leads; as long as the names lead to different files after the
export, each file holds what was written to it, and the manifest that was read is the one that the
directory had before.
-/
namespace CodeIndex.Sync

open Files Files.Tree

/-- The names of the files of an export lead to different files. -/
structure Apart (t : Tree) (dir : String) : Prop where
  files : ∀ name ∈ exportNames, t.isFile [] (dir ++ "/" ++ name) = true
  distinct : ∀ name ∈ exportNames, ∀ other ∈ exportNames,
    t.resolve [] (dir ++ "/" ++ name) = t.resolve [] (dir ++ "/" ++ other) → name = other

/-- Where the names lead to. -/
structure Sites (t : Tree) (dir : String) (place : String → Location) : Prop where
  leads : ∀ name ∈ exportNames, t.Leads (dir ++ "/" ++ name) (place name)
  apart : ∀ name ∈ exportNames, ∀ other ∈ exportNames, place name = place other → name = other

theorem Apart.sites {t : Tree} {dir : String} (h : Apart t dir) (ht : t.WellFormed) :
    ∃ place, Sites t dir place := by
  have hfound : ∀ name ∈ exportNames, ∃ l c, t.resolve [] (dir ++ "/" ++ name) = .ok l ∧
      t.entry? l = some (.file c) := by
    intro name hname
    have hfile := h.files name hname
    unfold isFile at hfile
    split at hfile
    · next l hresolve =>
      split at hfile
      · next c hentry => exact ⟨l, c, hresolve, hentry⟩
      · simp at hfile
    · simp at hfile
  refine ⟨fun name => (t.resolve [] (dir ++ "/" ++ name)).toOption.getD [], ?_, ?_⟩
  · intro name hname
    obtain ⟨l, c, hresolve, hentry⟩ := hfound name hname
    rw [hresolve]
    exact (leads_iff ht).mpr ⟨hresolve, c, hentry⟩
  · intro name hname other hother hplace
    obtain ⟨l, -, hresolve, -⟩ := hfound name hname
    obtain ⟨l', -, hresolve', -⟩ := hfound other hother
    rw [hresolve, hresolve'] at hplace
    obtain rfl : l = l' := hplace
    exact h.distinct name hname other hother (hresolve.trans hresolve'.symm)

/-- A directory in which an export left its files without links. -/
theorem Exported.apart {t : Tree} {dir : String} {l : Location} {s : Store} {keys : List Deletion}
    (h : Exported t dir l s keys) : Apart t dir := by
  have hfound : ∀ name ∈ exportNames, ∃ text,
      t.entry? (l ++ [name]) = some (.file (.text text)) := by
    intro name hname
    rcases List.mem_append.mp hname with hname | hname
    · obtain ⟨table, htable, rfl⟩ := List.mem_map.mp hname
      exact ⟨_, textAt?_eq_some.mp (h.tables table htable)⟩
    · rw [List.mem_singleton.mp hname]
      exact ⟨_, textAt?_eq_some.mp h.manifest⟩
  have hresolve : ∀ name ∈ exportNames, t.resolve [] (dir ++ "/" ++ name) = .ok (l ++ [name]) := by
    intro name hname
    obtain ⟨text, hentry⟩ := hfound name hname
    rw [h.resolve_child (isFileName_of_mem hname) (by simp [hentry]), hentry]
    rfl
  constructor
  · intro name hname
    obtain ⟨text, hentry⟩ := hfound name hname
    simp only [isFile, hresolve name hname, hentry]
  · intro name hname other hother heq
    rw [hresolve name hname, hresolve other hother] at heq
    simpa using heq

/-- The manifest is not where a table is. -/
theorem Sites.manifest_not_mem {t : Tree} {dir : String} {place : String → Location}
    (h : Sites t dir place) :
    place Manifest.fileName ∉ Table.all.map fun table => place table.fileName := by
  intro hmem
  obtain ⟨table, htable, hplace⟩ := List.mem_map.mp hmem
  exact fileName_ne_manifest htable (h.apart _ (fileName_mem htable) _ manifest_mem hplace)

/-- The second tree is the first one but for texts at some places. -/
structure Touches (places : List Location) (t t' : Tree) : Prop where
  entry : ∀ l, l ∉ places → t'.entry? l = t.entry? l
  leads : ∀ path l, l ∉ places → t'.Leads path l → t.Leads path l

namespace Touches

theorem refl (t : Tree) : Touches [] t t := ⟨fun _ _ => rfl, fun _ _ _ h => h⟩

theorem trans {t t' t'' : Tree} {places more : List Location} (h : Touches places t t')
    (h' : Touches more t' t'') : Touches (places ++ more) t t'' := by
  refine ⟨fun l hl => ?_, fun path l hl hleads => ?_⟩
  · rw [List.mem_append, not_or] at hl
    rw [h'.entry l hl.2, h.entry l hl.1]
  · rw [List.mem_append, not_or] at hl
    exact h.leads path l hl.1 (h'.leads path l hl.2 hleads)

theorem set (t : Tree) {l : Location} (hl : l ≠ []) (content : Files.Content) :
    Touches [l] t (t.set l (.file content)) := by
  refine ⟨fun l' hl' => ?_, fun path l' hl' hleads => ?_⟩
  · rw [entry?_set hl, if_neg (by simpa using hl')]
  · exact hleads.of_set hl (by simpa using hl')

end Touches

/-! Writing one file -/

section One

variable {t u : Tree} {path text : String} {force : Bool} {out : Option Tree}

theorem writeChanged_grows (ht : t.WellFormed) (h : writeChanged t path text force = .ok out) :
    (out.getD t).WellFormed ∧ Grows t (out.getD t) := by
  rcases writeChanged_cases t path text force with ⟨hskip, -⟩ | hwrite
  · rw [hskip] at h
    cases h
    exact ⟨ht, .refl t⟩
  · rw [hwrite] at h
    obtain ⟨t', hwrite, rfl⟩ := Store.map_eq_ok.mp h
    exact ht.write hwrite

/-- What is written is read back through the same path. -/
theorem readText_writeChanged (ht : t.WellFormed) (h : writeChanged t path text force = .ok out) :
    (out.getD t).readText [] path = .ok text := by
  rcases writeChanged_cases t path text force with ⟨hskip, hread⟩ | hwrite
  · rw [hskip] at h
    cases h
    exact hread
  · rw [hwrite] at h
    obtain ⟨t', hwrite, rfl⟩ := Store.map_eq_ok.mp h
    exact readText_write ht hwrite

/-- What is written through a path is there where the path leads to in the end. -/
theorem writeChanged_places (ht : t.WellFormed) (h : writeChanged t path text force = .ok out)
    (hu : u.WellFormed) (hlater : Grows (out.getD t) u) {l : Location} (hleads : u.Leads path l) :
    Tree.entry? (out.getD t) l = some (.file (.text text)) ∧ Touches [l] t (out.getD t) := by
  rcases writeChanged_cases t path text force with ⟨hskip, hread⟩ | hwrite
  · rw [hskip] at h
    cases h
    obtain ⟨l', hold, hentry⟩ := (readText_eq_ok_iff ht).mp hread
    obtain rfl := (hold.grow hlater).unique hleads
    exact ⟨hentry, fun _ _ => rfl, fun _ _ _ h => h⟩
  · rw [hwrite] at h
    obtain ⟨t', hwrite, rfl⟩ := Store.map_eq_ok.mp h
    have hl : l ≠ [] := by
      rintro rfl
      obtain ⟨-, c, hc⟩ := (leads_iff hu).mp hleads
      simp [entry?_nil] at hc
    obtain rfl := write_eq_set ht hwrite hlater hleads
    exact ⟨by rw [Option.getD_some, entry?_set hl, if_pos rfl], .set t hl _⟩

end One

/-! Writing the tables -/

section Tables

variable {t t' u : Tree} {dir : String} {force : Bool} {dumps : List Dump}
  {done done' : ExportSummary}

/-- The first table is written, and then the others. -/
theorem writeTables_cons {d : Dump} {rest : List Dump}
    (h : Snapshot.writeTables dir force (d :: rest) done t = (t', .ok done')) :
    ∃ out done1, writeChanged t (dir ++ "/" ++ d.fileName) (Manifest.linesText d.lines) force =
        .ok out ∧
      Snapshot.writeTables dir force rest done1 (out.getD t) = (t', .ok done') := by
  rw [Snapshot.writeTables] at h
  split at h
  · simp at h
  · next hwrite => exact ⟨none, _, hwrite, h⟩
  · next hwrite => exact ⟨some _, _, hwrite, h⟩

theorem writeTables_grows (ht : t.WellFormed)
    (h : Snapshot.writeTables dir force dumps done t = (t', .ok done')) :
    t'.WellFormed ∧ Grows t t' := by
  induction dumps generalizing t done with
  | nil =>
    obtain ⟨rfl, -⟩ := Prod.mk.inj h
    exact ⟨ht, .refl _⟩
  | cons d rest ih =>
    obtain ⟨out, done1, hwrite, hrest⟩ := writeTables_cons h
    obtain ⟨hgood, hgrows⟩ := writeChanged_grows ht hwrite
    obtain ⟨hgood', hgrows'⟩ := ih hgood hrest
    exact ⟨hgood', hgrows.trans hgrows'⟩

/-- Each table is there where its name leads to in the end, and no other file has changed. -/
theorem writeTables_places (ht : t.WellFormed)
    (h : Snapshot.writeTables dir force dumps done t = (t', .ok done')) (hu : u.WellFormed)
    (hlater : Grows t' u) {place : String → Location} (hsites : Sites u dir place)
    (hnames : ∀ d ∈ dumps, d.fileName ∈ exportNames) (hnodup : (dumps.map Dump.fileName).Nodup) :
    (∀ d ∈ dumps, t'.entry? (place d.fileName) =
        some (.file (.text (Manifest.linesText d.lines)))) ∧
      Touches (dumps.map fun d => place d.fileName) t t' := by
  induction dumps generalizing t done with
  | nil =>
    obtain ⟨rfl, -⟩ := Prod.mk.inj h
    exact ⟨by simp, .refl _⟩
  | cons d rest ih =>
    obtain ⟨out, done1, hwrite, hrest⟩ := writeTables_cons h
    have hgood := (writeChanged_grows ht hwrite).1
    have hgrows := (writeTables_grows hgood hrest).2.trans hlater
    rw [List.map_cons, List.nodup_cons] at hnodup
    obtain ⟨hentry, htouches⟩ := writeChanged_places ht hwrite hu hgrows
      (hsites.leads _ (hnames d List.mem_cons_self))
    obtain ⟨hentries, hrestTouches⟩ :=
      ih hgood hrest (fun x hx => hnames x (List.mem_cons_of_mem _ hx)) hnodup.2
    refine ⟨?_, htouches.trans hrestTouches⟩
    intro x hx
    rcases List.mem_cons.mp hx with rfl | hx
    · rw [hrestTouches.entry, hentry]
      intro hmem
      obtain ⟨y, hy, hplace⟩ := List.mem_map.mp hmem
      have hname := hsites.apart _ (hnames y (List.mem_cons_of_mem _ hy)) _
        (hnames x List.mem_cons_self) hplace
      exact hnodup.1 (hname ▸ List.mem_map_of_mem hy)
    · exact hentries x hx

/-- Tables that are there already are not written. -/
theorem writeTables_same
    (h : ∀ d ∈ dumps, t.readText [] (dir ++ "/" ++ d.fileName) = .ok (Manifest.linesText d.lines)) :
    Snapshot.writeTables dir false dumps done t =
      (t, .ok { done with unchanged := done.unchanged ++ dumps.map Dump.table }) := by
  induction dumps generalizing done with
  | nil => simp [Snapshot.writeTables]
  | cons d rest ih =>
    have hskip : writeChanged t (dir ++ "/" ++ d.fileName) (Manifest.linesText d.lines) false =
        .ok none := by
      simp [writeChanged, h d List.mem_cons_self]
    simp only [Snapshot.writeTables, hskip]
    rw [ih fun x hx => h x (List.mem_cons_of_mem _ hx)]
    simp

end Tables

/-! The store after an export -/

theorem clear_eq (s : Store) (x : Snapshot) :
    ∃ pending, x.clear s = { s with pending := pending } ∧ pending ⊆ s.pending := by
  unfold Snapshot.clear
  split
  · exact ⟨s.pending, rfl, List.Subset.refl _⟩
  · exact ⟨_, rfl, List.filter_subset_self _⟩

theorem live_clear (s : Store) (x : Snapshot) (k : Deletion) : Live (x.clear s) k ↔ Live s k := by
  obtain ⟨pending, heq, -⟩ := clear_eq s x
  rw [heq]
  rfl

theorem text_clear (s : Store) (x : Snapshot) (table : Table) (htable : table ∈ Table.all) :
    table.text (x.clear s) = table.text s := by
  obtain ⟨pending, heq, -⟩ := clear_eq s x
  rw [heq]
  simp only [Table.all, List.mem_cons, List.not_mem_nil, or_false] at htable
  rcases htable with rfl | rfl | rfl | rfl | rfl | rfl | rfl <;> rfl

theorem records_clear (s : Store) (x : Snapshot) : records (x.clear s) = records s := by
  obtain ⟨pending, heq, -⟩ := clear_eq s x
  rw [heq]
  rfl

/-! The keys of a manifest -/

section Distinct

variable {α : Type} [DecidableEq α] (xs : List α)

theorem firstsBy_id : Store.firstsBy id [] xs = xs.eraseDups :=
  Store.firstsBy_eq_eraseDups fun _ _ _ _ h => h

theorem nodup_eraseDups : xs.eraseDups.Nodup := by
  have hfirsts : ([] ++ (Store.firstsBy id [] xs).map id).Nodup :=
    (Store.nodup_firstsBy [] xs).mpr .nil
  rwa [firstsBy_id, List.nil_append, List.map_id] at hfirsts

theorem eraseDups_of_nodup {xs : List α} (h : xs.Nodup) : xs.eraseDups = xs := by
  rw [← firstsBy_id]
  exact Store.firstsBy_eq_self (by simpa using h)

end Distinct

section Keys

variable {previous : String} {s : Store}

theorem nodup_manifestKeys : (manifestKeys previous s).Nodup := by
  rw [manifestKeys]
  exact nodup_eraseDups _

/-- Keys that were read can be written. -/
theorem Manifest.fits_ofText {k : Deletion} (h : k ∈ (Manifest.ofText previous).1) : k.Fits := by
  obtain ⟨o, ho, hk⟩ := List.mem_filterMap.mp h
  obtain ⟨line, -, rfl⟩ := List.mem_map.mp ho
  exact Deletion.fits_of_decode (Store.toOption_eq_some.mp hk)

theorem fits_manifestKeys (h : ∀ p ∈ s.pending, p.key.Fits) :
    ∀ k ∈ manifestKeys previous s, k.Fits := by
  intro k hk
  rcases (mem_manifestKeys.mp hk).1 with hk | hk
  · exact Manifest.fits_ofText hk
  · obtain ⟨p, hp, rfl⟩ := List.mem_map.mp hk
    exact h p hp

/-- A manifest that was merged with the same rows before and an empty queue stays as it is. -/
theorem manifestKeys_again {s' : Store} (hrecords : records s' = records s)
    (hpending : s'.pending = []) (hfits : ∀ p ∈ s.pending, p.key.Fits) :
    manifestKeys (Manifest.text (manifestKeys previous s)) s' = manifestKeys previous s := by
  have hlive : ∀ k ∈ manifestKeys previous s, ¬Live s k := fun k hk => (mem_manifestKeys.mp hk).2
  rw [manifestKeys, Manifest.merge, hrecords, hpending,
    Manifest.ofText_text (fits_manifestKeys hfits), List.map_nil, List.append_nil,
    List.filter_eq_self.mpr, eraseDups_of_nodup nodup_manifestKeys]
  intro k hk
  simpa [Live] using hlive k hk

end Keys

/-! The stages of an export -/

section Parts

variable {t t' : Tree} {dir : String} {force : Bool} {x : Snapshot} {done : ExportSummary}

/-- The manifest that was read is merged with what the snapshot has seen. -/
theorem writeManifest_eq_ok {n : Nat} (h : x.writeManifest dir force t = .ok (t', n)) :
    ∃ previous out, manifestText t dir = .ok previous ∧
      writeChanged t (dir ++ "/" ++ Manifest.fileName)
        (Manifest.text (Manifest.merge (Manifest.ofText previous).1 x.waiting x.live)) force =
          .ok out ∧
      t' = out.getD t ∧
      n = (Manifest.merge (Manifest.ofText previous).1 x.waiting x.live).length := by
  unfold Snapshot.writeManifest at h
  obtain ⟨previous, hread, h⟩ := Store.bind_eq_ok.mp h
  dsimp only at h
  split at h
  · simp [throw, throwThe, MonadExceptOf.throw] at h
  · next hsame =>
    obtain ⟨rfl, rfl⟩ := Prod.mk.inj (Except.ok.inj h)
    exact ⟨previous, none, hread, hsame, rfl, rfl⟩
  · next hchanged =>
    obtain ⟨rfl, rfl⟩ := Prod.mk.inj (Except.ok.inj h)
    exact ⟨previous, some _, hread, hchanged, rfl, rfl⟩

/-- The tables are written first and the manifest last. -/
theorem write_eq_ok (h : x.write dir force t = (t', .ok done)) :
    ∃ tabled tablesDone n,
      Snapshot.writeTables dir force x.tables {} t = (tabled, .ok tablesDone) ∧
      x.writeManifest dir force tabled = .ok (t', n) ∧ { tablesDone with deletions := n } = done := by
  unfold Snapshot.write at h
  split at h
  · simp at h
  · next tabled tablesDone htables =>
    split at h
    · simp at h
    · next t3 n hmanifest =>
      obtain ⟨rfl, hdone⟩ := Prod.mk.inj h
      exact ⟨tabled, tablesDone, n, htables, hmanifest, Except.ok.inj hdone⟩

end Parts

/-- The stages of an export that succeeded. -/
structure ExportStages (s : Store) (t : Tree) (dir : String) (force : Bool) (t' : Tree)
    (done : ExportSummary) where
  /-- The tree with the directory. -/
  made : Tree
  makes : t.makeDirectories [] dir = .ok made
  /-- The tree with the tables. -/
  tabled : Tree
  tablesDone : ExportSummary
  writes : Snapshot.writeTables dir force (Snapshot.of s).tables {} made = (tabled, .ok tablesDone)
  /-- The text of the manifest before. -/
  previous : String
  reads : manifestText tabled dir = .ok previous
  written : Option Tree
  manifests : writeChanged tabled (dir ++ "/" ++ Manifest.fileName)
    (Manifest.text (manifestKeys previous s)) force = .ok written
  result : t' = written.getD tabled
  deletions : done.deletions = (manifestKeys previous s).length

variable {s s' : Store} {t t' : Tree} {dir : String} {force : Bool} {done : ExportSummary}

/-- An export that succeeded went through all stages. -/
theorem exportTo_stages (h : exportTo s t dir force = (t', .ok (done, s'))) :
    Nonempty (ExportStages s t dir force t' done) ∧ s' = (Snapshot.of s).clear s := by
  obtain ⟨made, hmakes, hwrite, hstore⟩ := Store.exportTo_eq_ok h
  obtain ⟨tabled, tablesDone, n, htables, hmanifest, rfl⟩ := write_eq_ok hwrite
  obtain ⟨previous, written, hread, hwritten, hresult, hcount⟩ := writeManifest_eq_ok hmanifest
  rw [merge_snapshot] at hwritten hcount
  subst hcount
  exact ⟨⟨made, hmakes, tabled, tablesDone, htables, previous, hread, written, hwritten, hresult,
    rfl⟩, hstore⟩

/-- A directory that holds the tables of a store and a manifest of keys, behind links or not. -/
structure HoldsExport (t : Tree) (dir : String) (s : Store) (keys : List Deletion) : Prop where
  wellFormed : t.WellFormed
  made : t.makeDirectories [] dir = .ok t
  tables : ∀ table ∈ Table.all, t.readText [] (dir ++ "/" ++ table.fileName) = .ok (table.text s)
  manifest : t.readText [] (dir ++ "/" ++ Manifest.fileName) = .ok (Manifest.text keys)

theorem HoldsExport.manifestText {keys : List Deletion} (h : HoldsExport t dir s keys) :
    manifestText t dir = .ok (Manifest.text keys) := by
  obtain ⟨l, hleads, -⟩ := (readText_eq_ok_iff h.wellFormed).mp h.manifest
  unfold Sync.manifestText
  rw [if_pos (hleads.pathExists h.wellFormed), h.manifest]
  rfl

namespace ExportStages

variable (x : ExportStages s t dir force t' done) (ht : t.WellFormed)
include x ht

theorem grows : t'.WellFormed ∧ x.made.WellFormed ∧ x.tabled.WellFormed ∧ Grows x.made x.tabled ∧
    Grows x.tabled t' := by
  obtain ⟨hmade, -, -⟩ := makeDirectories_spec ht x.makes
  obtain ⟨htabled, htables⟩ := writeTables_grows hmade x.writes
  obtain ⟨hgood, hmanifest⟩ := writeChanged_grows htabled x.manifests
  rw [← x.result] at hgood hmanifest
  exact ⟨hgood, hmade, htabled, htables, hmanifest⟩

theorem places {place : String → Location} (hsites : Sites t' dir place) :
    (∀ table ∈ Table.all,
        x.tabled.entry? (place table.fileName) = some (.file (.text (table.text s)))) ∧
      Touches (Table.all.map fun table => place table.fileName) x.made x.tabled := by
  obtain ⟨hgood, hmade, -, -, hgrows⟩ := x.grows ht
  obtain ⟨hentries, htouches⟩ := writeTables_places hmade x.writes hgood hgrows hsites
    (fun _ => fileName_mem_of_snapshot) (nodup_snapshot s)
  exact ⟨fun table htable => hentries _ (mem_snapshot htable), htouches⟩

/-- The directory holds what was exported to it. -/
theorem holds (hapart : Apart t' dir) : HoldsExport t' dir s (manifestKeys x.previous s) := by
  obtain ⟨hgood, hmade, htabled, htables, hmanifest⟩ := x.grows ht
  obtain ⟨place, hsites⟩ := hapart.sites hgood
  obtain ⟨hentry, htouches⟩ := writeChanged_places htabled x.manifests hgood
    (x.result ▸ .refl _) (hsites.leads _ manifest_mem)
  rw [← x.result] at hentry htouches
  refine ⟨hgood, (makeDirectories_spec ht x.makes).2.2 t' hgood (htables.trans hmanifest), ?_, ?_⟩
  · intro table htable
    refine (readText_eq_ok_iff hgood).mpr ⟨_, hsites.leads _ (fileName_mem htable), ?_⟩
    rw [htouches.entry, (x.places ht hsites).1 table htable]
    intro hmem
    apply hsites.manifest_not_mem
    rw [← List.mem_singleton.mp hmem]
    exact List.mem_map_of_mem (f := fun table => place table.fileName) htable
  · exact (readText_eq_ok_iff hgood).mpr ⟨_, hsites.leads _ manifest_mem, hentry⟩

/-- The manifest that was read is the one that the directory had before. -/
theorem previous_eq (hapart : Apart t' dir) : manifestText x.made dir = .ok x.previous := by
  obtain ⟨hgood, hmade, htabled, htables, hmanifest⟩ := x.grows ht
  obtain ⟨place, hsites⟩ := hapart.sites hgood
  have htouches := (x.places ht hsites).2
  have hleads := hsites.leads _ manifest_mem
  have hreads := x.reads
  unfold manifestText at hreads ⊢
  dsimp only at hreads ⊢
  split at hreads
  · obtain ⟨text, hread, rfl⟩ : ∃ text, x.tabled.readText [] (dir ++ "/" ++ Manifest.fileName) =
        .ok text ∧ text = x.previous := by
      cases hread : x.tabled.readText [] (dir ++ "/" ++ Manifest.fileName) with
      | error f => simp [hread, Except.mapError] at hreads
      | ok text =>
        rw [hread] at hreads
        exact ⟨text, rfl, Except.ok.inj hreads⟩
    obtain ⟨l, htabledLeads, hentry⟩ := (readText_eq_ok_iff htabled).mp hread
    obtain rfl := (htabledLeads.grow hmanifest).unique hleads
    have hmadeLeads := htouches.leads _ _ hsites.manifest_not_mem htabledLeads
    rw [htouches.entry _ hsites.manifest_not_mem] at hentry
    rw [if_pos (hmadeLeads.pathExists hmade),
      (readText_eq_ok_iff hmade).mpr ⟨_, hmadeLeads, hentry⟩]
    rfl
  · next hmissing =>
    rw [if_neg, hreads]
    intro hpath
    have hold := hleads.of_pathExists hmade hgood (htables.trans hmanifest) hpath
    exact hmissing ((hold.grow htables).pathExists htabled)

end ExportStages

end CodeIndex.Sync
