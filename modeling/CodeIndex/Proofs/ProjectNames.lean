import CodeIndex.Proofs.Neighbours
import CodeIndex.Proofs.Sync.EdgeKeys
import CodeIndex.Proofs.Sync.Tables

/-!
The names of projects. Creation trims a name and refuses one of which nothing is left, and this is
the only check that a name meets: an import stores what a directory records, and the other
operations look a project up by the very text that they are given. So a stored name is usable or
comes from an import, a project answers to its stored name, and the text that it was created under
names it only as far as trimming leaves that text as it is.
-/
namespace CodeIndex.Text.Blank

variable {cs : List Char} {c : Char} {name : String}

/-- A name that is not empty and has no white space at either end. -/
structure Usable (name : String) : Prop where
  ne_empty : name ≠ ""
  first : ∀ c, name.toList.head? = some c → isBlank c = false
  last : ∀ c, name.toList.getLast? = some c → isBlank c = false

theorem head?_trimStartChars (h : (trimStartChars cs).head? = some c) : isBlank c = false := by
  unfold trimStartChars at h
  have hhead := List.head?_dropWhile_not isBlank cs
  rw [h] at hhead
  exact hhead

theorem getLast?_trimEndChars (h : (trimEndChars cs).getLast? = some c) : isBlank c = false := by
  unfold trimEndChars at h
  rw [List.getLast?_reverse] at h
  exact head?_trimStartChars h

theorem trimEndChars_prefix (cs : List Char) : trimEndChars cs <+: cs := by
  have hsuffix : cs.reverse.dropWhile isBlank <:+ cs.reverse := List.dropWhile_suffix _
  have hprefix := List.reverse_prefix.mpr hsuffix
  rwa [List.reverse_reverse] at hprefix

/-- What trimming leaves is usable, if it leaves anything. -/
theorem usable_trim (h : trim name ≠ "") : Usable (trim name) := by
  have htext : (trim name).toList = trimChars name.toList := String.toList_ofList
  refine ⟨h, fun c hc => ?_, fun c hc => ?_⟩
  · rw [htext, trimChars] at hc
    obtain ⟨rest, hrest⟩ := trimEndChars_prefix (trimStartChars name.toList)
    refine @head?_trimStartChars name.toList c ?_
    rw [← hrest, List.head?_append, hc, Option.some_or]
  · rw [htext] at hc
    exact getLast?_trimEndChars hc

theorem trimStartChars_eq_self (h : ∀ c, cs.head? = some c → isBlank c = false) :
    trimStartChars cs = cs := by
  cases cs with
  | nil => rfl
  | cons c cs => exact List.dropWhile_cons_of_neg (by simp [h c rfl])

theorem Usable.trim_eq (h : Usable name) : trim name = name := by
  have hstart : trimStartChars name.toList = name.toList := trimStartChars_eq_self h.first
  have hend : trimStartChars name.toList.reverse = name.toList.reverse := by
    refine trimStartChars_eq_self fun c hc => h.last c ?_
    rwa [List.head?_reverse] at hc
  unfold trimStartChars at hend
  rw [trim, trimChars, hstart, trimEndChars, hend, List.reverse_reverse, String.ofList_toList]

end CodeIndex.Text.Blank

namespace CodeIndex.Sync

open Text.Blank (Usable trim)

variable {s s' : Store} {A N : String → Prop}

/-- An export directory holds a record of a project with this name. -/
def RecordsProject (t : Files.Tree) (dir name : String) : Prop :=
  ∃ text n line y, t.readText [] (dir ++ "/projects.jsonl") = .ok text ∧
    (n, line) ∈ recordLines text ∧ projectCodec.decode line = .ok y ∧ y.name = name

/-- All projects have names with a property. -/
def NamesIn (A : String → Prop) (s : Store) : Prop := ∀ q ∈ s.projects, A q.name

/-! Imports -/

theorem put_projects {x : Record} (hok : x.put s = .ok s') :
    s'.projects = s.projects ∨ ∃ y, x = .project y ∧ upsertProject s y = .ok s' := by
  cases x with
  | repository r =>
    obtain ⟨rows, n, rfl, -⟩ := upsertRepository_puts hok
    exact .inl rfl
  | file f =>
    obtain ⟨-, r, -, rows, n, rfl, -⟩ := upsertFile_puts hok
    exact .inl rfl
  | symbol x =>
    obtain ⟨f, -, rows, n, rfl, -⟩ := upsertSymbol_puts hok
    exact .inl rfl
  | reference x =>
    obtain ⟨f, -, rows, rfl, -⟩ := upsertReference_puts hok
    exact .inl rfl
  | edge e =>
    obtain ⟨r, ends, -, -, rows, rfl, -⟩ := upsertEdge_puts hok
    exact .inl rfl
  | project y => exact .inr ⟨y, rfl, hok⟩
  | membership m =>
    obtain ⟨p, r, -, -, rfl⟩ := upsertMembership_cases hok
    obtain ⟨rows, heq, -⟩ := addMembership_puts s p.id r.id
    exact .inl (by rw [heq])

theorem NamesIn.put (h : NamesIn A s) {x : Record} (hx : ∀ y, x = .project y → A y.name)
    (hok : x.put s = .ok s') : NamesIn A s' := by
  rcases put_projects hok with heq | ⟨y, rfl, hok⟩
  · intro q hq
    exact h q (heq ▸ hq)
  · obtain ⟨rows, n, rfl, hputs⟩ := upsertProject_puts hok
    exact hputs.forall_mem h (fun _ hrow => hrow) (hx y rfl)

/-- A line that holds the record of a project stands in the table of projects. -/
theorem decode_project {table : Table} {line : String} {y : ProjectRecord}
    (htable : table ∈ Table.all) (h : Record.decode table.name line = .ok (.project y)) :
    table.fileName = "projects.jsonl" ∧ projectCodec.decode line = .ok y := by
  simp only [Table.all, List.mem_cons, List.not_mem_nil, or_false] at htable
  rcases htable with rfl | rfl | rfl | rfl | rfl | rfl | rfl
  all_goals
    obtain ⟨a, ha, hrecord⟩ := Store.map_eq_ok.mp h
    cases hrecord
  exact ⟨rfl, ha⟩

theorem NamesIn.importFrom (h : NamesIn A s) {t : Files.Tree} {dir : String}
    {summary : ImportSummary} (hrecords : ∀ name, RecordsProject t dir name → A name)
    (hok : importFrom s t dir = .ok (summary, s')) : NamesIn A s' := by
  refine importFrom_keeps_of_forall
    (Q := fun table line => ∀ y, Record.decode table.name line = .ok (.project y) → A y.name)
    ?_ ?_ ?_ hok
  · intro u u' table line htable hline hu happly
    rw [table.apply_eq htable] at happly
    split at happly
    · next r hr => exact hu.put (fun y hy => hline y (hy ▸ hr)) happly
    · cases happly
  · rintro table htable text htext ⟨n, line⟩ hmem y hy
    obtain ⟨hfile, hdecode⟩ := decode_project htable hy
    have hpath : dir ++ "/" ++ table.fileName = dir ++ "/projects.jsonl" := by
      rw [hfile, String.append_assoc]
      rfl
    exact hrecords y.name ⟨text, n, line, y, hpath ▸ htext, hmem, hdecode, rfl⟩
  · exact fun keys q hq => h q ((shrinks_applyDeletions s keys).projects hq)

end CodeIndex.Sync

namespace CodeIndex.Store

open Text.Blank (Usable trim usable_trim)

variable {s s' : Store} {name : String} {q : ProjectRow}

/-! What the operations on projects do under a name -/

/-- Under this name, the operations on projects act on this project. -/
structure ActsOn (s : Store) (name : String) (q : ProjectRow) : Prop where
  adds : ∀ r ∈ s.repositories, ∃ s', s.addToProject name r.fullName = .ok s' ∧
    ∀ m, m ∈ s'.memberships ↔ m ∈ s.memberships ∨ m = ⟨q.id, r.id⟩
  removes : ∀ r ∈ s.repositories, ∃ found s', s.removeFromProject name r.fullName = .ok (found, s') ∧
    (found = true ↔ (⟨q.id, r.id⟩ : MembershipRow) ∈ s.memberships) ∧
    ∀ m, m ∈ s'.memberships ↔ m ∈ s.memberships ∧ m ≠ ⟨q.id, r.id⟩
  deletes : (s.deleteProject name).1 = true ∧
    ∀ p, p ∈ (s.deleteProject name).2.projects ↔ p ∈ s.projects ∧ p ≠ q

/-- Under this name, the operations on projects find no project and change nothing. -/
structure Unknown (s : Store) (name : String) : Prop where
  adds : ∀ fullName,
    s.addToProject name fullName = .error (.invalidArgument (.unknownProject name))
  removes : ∀ fullName,
    s.removeFromProject name fullName = .error (.invalidArgument (.unknownProject name))
  deletes : s.deleteProject name = (false, s)

theorem mem_addMembership {projectId repositoryId : Id} {m : MembershipRow} :
    m ∈ (s.addMembership projectId repositoryId).memberships ↔
      m ∈ s.memberships ∨ m = ⟨projectId, repositoryId⟩ := by
  unfold addMembership
  split
  · next hmember =>
    have hmem := List.contains_iff_mem.mp hmember
    exact ⟨.inl, fun h => h.elim id fun heq => heq ▸ hmem⟩
  · simp

theorem Sound.actsOn (h : s.Sound) (hq : q ∈ s.projects) : ActsOn s q.name q := by
  have hfound : s.project? q.name = some q := h.project?_eq_some.mpr ⟨hq, rfl⟩
  have hends : ∀ r ∈ s.repositories, s.membershipEnds q.name r.fullName = .ok (q, r) :=
    fun r hr => membershipEnds_eq_ok.mpr ⟨hfound, h.repository?_eq_some.mpr ⟨hr, rfl⟩⟩
  refine ⟨fun r hr => ?_, fun r hr => ?_, ?_⟩
  · exact ⟨_, by rw [Store.addToProject, hends r hr]; rfl, fun m => mem_addMembership⟩
  · by_cases hmember : (⟨q.id, r.id⟩ : MembershipRow) ∈ s.memberships
    · have hremove : s.removeFromProject q.name r.fullName = .ok (true, ({ s with
          memberships := s.memberships.filter fun m => m != ⟨q.id, r.id⟩ } : Store).enqueue
            (.membership q.name r.fullName)) := by
        rw [Store.removeFromProject, hends r hr]
        exact if_pos (List.contains_iff_mem.mpr hmember)
      exact ⟨true, _, hremove, by simp [hmember], fun m => by simp [enqueue]⟩
    · refine ⟨false, s, ?_, by simp [hmember], fun m => ?_⟩
      · rw [Store.removeFromProject, hends r hr]
        exact if_neg (List.contains_iff_mem.not.mpr hmember)
      · exact ⟨fun hm => ⟨hm, fun heq => hmember (heq ▸ hm)⟩, And.left⟩
  · have hdelete : s.deleteProject q.name =
        (true, (s.removeProject q.name).enqueue (.project q.name)) := by
      rw [Store.deleteProject, hfound]
    refine ⟨by rw [hdelete], fun p => ?_⟩
    rw [hdelete]
    have hsame : p ∈ s.projects → (p.name = q.name ↔ p = q) := fun hp =>
      ⟨fun heq => eq_of_key h.project_names hp hq heq, fun heq => heq ▸ rfl⟩
    simp only [enqueue, Store.removeProject, hfound, List.mem_filter, bne_iff_ne]
    exact and_congr_right fun hp => not_congr (hsame hp)

theorem unknown_of_forall (hnone : ∀ q ∈ s.projects, q.name ≠ name) : Unknown s name := by
  have hfound : s.project? name = none := List.find?_eq_none.mpr (by simpa using hnone)
  refine ⟨fun fullName => ?_, fun fullName => ?_, ?_⟩
  · rw [addToProject, membershipEnds, hfound]
    rfl
  · rw [removeFromProject, membershipEnds, hfound]
    rfl
  · rw [deleteProject, hfound]

/-- A project is created under the trimmed name, as a row of its own. -/
theorem createProject_row {n : String} {description : Option String} {now : Int} {p : Project}
    (hok : s.createProject n description now = .ok (p, s')) :
    p.name = trim n ∧ p.name ≠ "" ∧ ∃ row : ProjectRow, row.id = p.id ∧ row.name = p.name ∧
      s'.projects = s.projects ++ [row] := by
  unfold createProject at hok
  dsimp only at hok
  split at hok
  · cases hok
  · next hne =>
    split at hok
    · cases hok
    · obtain ⟨rfl, rfl⟩ := Prod.mk.inj (Except.ok.inj hok)
      exact ⟨rfl, by simpa using hne, ⟨_, trim n, description, now⟩, rfl, rfl, rfl⟩

end CodeIndex.Store

namespace CodeIndex

open Store Text.Blank
open Sync (NamesIn RecordsProject)

variable {s s' : Store} {N : String → Prop}

namespace Operation

/-- Imports read directories whose projects have names with a property. -/
def ImportsNames (N : String → Prop) : Operation → Prop
  | importFrom t dir => ∀ name, RecordsProject t dir name → N name
  | _ => True

/-- An operation stores names that it trims or that it imports. -/
theorem namesIn_run {op : Operation} (h : s.Sound)
    (hnames : NamesIn (fun name => Usable name ∨ N name) s) (hallowed : op.Allowed s)
    (himports : op.ImportsNames N) (hok : op.run s = .ok s') :
    NamesIn (fun name => Usable name ∨ N name) s' := by
  have hsame : s'.projects = s.projects → NamesIn (fun name => Usable name ∨ N name) s' :=
    fun heq q hq => hnames q (heq ▸ hq)
  cases op with
  | storeRun repositoryId now run =>
    obtain ⟨⟨counts, t⟩, hrun, rfl⟩ := map_eq_ok.mp hok
    obtain ⟨o⟩ := h.storeRun_outcome hrun
    exact hsame o.projects_eq
  | storeRepository d id now run =>
    exact hsame (leavesOthers_run h hallowed rfl hok).1.projects
  | index t config d listed now =>
    exact hsame (leavesOthers_run h hallowed rfl hok).1.projects
  | upsertRepository d => exact hsame (leavesOthers_run h hallowed rfl hok).1.projects
  | deleteRepository fullName => exact hsame (leavesOthers_run h hallowed rfl hok).1.projects
  | importFrom t dir =>
    obtain ⟨⟨summary, u⟩, hrun, rfl⟩ := map_eq_ok.mp hok
    exact hnames.importFrom (fun name hname => .inr (himports name hname)) hrun
  | exportTo t dir force =>
    obtain ⟨⟨done, u⟩, hrun, rfl⟩ := map_eq_ok.mp hok
    rw [exportTo_store hrun] at hsame ⊢
    refine hsame ?_
    unfold Sync.Snapshot.clear
    split <;> rfl
  | createProject name description now =>
    obtain ⟨p, hrun⟩ := createProject_of_run hok
    obtain ⟨hname, hne, row, -, hrow, hprojects⟩ := createProject_row hrun
    intro q hq
    rw [hprojects] at hq
    rcases List.mem_append.mp hq with hq | hq
    · exact hnames q hq
    · rw [List.mem_singleton.mp hq, hrow, hname]
      exact .inl (usable_trim (hname ▸ hne))
  | addToProject project fullName =>
    obtain ⟨rows, rfl, -⟩ := addToProject_eq_ok hok
    exact hsame rfl
  | removeFromProject project fullName =>
    obtain ⟨⟨found, u⟩, hrun, rfl⟩ := map_eq_ok.mp hok
    rcases removeFromProject_eq_ok hrun with rfl | ⟨p, r, -, -, rfl⟩
    · exact hnames
    · exact hsame rfl
  | deleteProject name =>
    obtain rfl := Except.ok.inj hok
    unfold Store.deleteProject
    split
    · exact hnames
    · exact fun q hq => hnames q ((Sync.shrinks_removeProject s name).projects hq)

end Operation

/-- The names of projects after any history. A stored name is usable or comes from a directory that
was imported. The operations on projects act on a project under its stored name, and under a name
that is not stored they find none. A project that is created has the trimmed name, which is usable,
so they act on it under the text it was created with if trimming leaves that text as it is, and find
nothing under it if it does not and no import brought it in. -/
theorem project_names (h : ReachableBy (Operation.ImportsNames N) s) :
    (∀ q ∈ s.projects, Usable q.name ∨ N q.name) ∧ (∀ q ∈ s.projects, ActsOn s q.name q) ∧
      (∀ name, (∀ q ∈ s.projects, q.name ≠ name) → Unknown s name) ∧
      ∀ n description now p s', s.createProject n description now = .ok (p, s') →
        p.name = trim n ∧ Usable p.name ∧
          (∃ q ∈ s'.projects, q ∉ s.projects ∧ q.id = p.id ∧ ActsOn s' p.name q) ∧
          (n ≠ trim n → ¬ N n → Unknown s' n) := by
  have hnames : NamesIn (fun name => Usable name ∨ N name) s := by
    induction h with
    | empty origin => exact fun q hq => absurd hq List.not_mem_nil
    | step op hs hallowed himports hok ih =>
      exact op.namesIn_run hs.reachable.sound ih hallowed himports hok
  have hsound := h.reachable.sound
  refine ⟨hnames, fun q hq => hsound.actsOn hq, fun name => unknown_of_forall, ?_⟩
  intro n description now p s' hok
  have hsound' := hsound.createProject hok
  obtain ⟨hname, hne, row, hid, hrow, hprojects⟩ := createProject_row hok
  have husable : Usable p.name := hname ▸ usable_trim (hname ▸ hne)
  have hmem : row ∈ s'.projects := hprojects ▸ List.mem_append_right _ List.mem_cons_self
  refine ⟨hname, husable, ⟨row, hmem, ?_, hid, hrow ▸ hsound'.actsOn hmem⟩, fun hother hnot => ?_⟩
  · intro hold
    have hnodup : s'.projects.Nodup := List.Nodup.of_map _ hsound'.project_ids
    rw [hprojects] at hnodup
    exact (List.nodup_append.mp hnodup).2.2 row hold row List.mem_cons_self rfl
  · refine unknown_of_forall fun q hq heq => ?_
    rw [hprojects] at hq
    rcases List.mem_append.mp hq with hq | hq
    · rcases hnames q hq with hgood | hin
      · exact hother (heq ▸ hgood.trim_eq).symm
      · exact hnot (heq ▸ hin)
    · rw [List.mem_singleton.mp hq, hrow, hname] at heq
      exact hother heq.symm

/-- A store with one repository and no projects. -/
def unprojected : Store where
  origin := 0
  nextSerial := 1
  repositories := [⟨.made 0 0, "r", "r", none, "main", none⟩]

theorem reachable_unprojected : ReachableBy (Operation.ImportsNames fun _ => False) unprojected :=
  .step (.upsertRepository (.ofFullName "r" "")) (.empty 0) trivial trivial rfl

theorem createProject_unprojected :
    ∃ p s', unprojected.createProject "  platform " none 0 = .ok (p, s') ∧
      s'.repositories = unprojected.repositories ∧
      s'.projects.map ProjectRow.name = ["platform"] := by
  have hcreated : (unprojected.createProject "  platform " none 0).toOption.map (fun done =>
      (done.2.repositories, done.2.projects.map ProjectRow.name)) =
        some (unprojected.repositories, ["platform"]) := by
    decide +kernel
  obtain ⟨⟨p, s'⟩, hdone, hrows⟩ := Option.map_eq_some_iff.mp hcreated
  obtain ⟨hrepositories, hprojects⟩ := Prod.mk.inj hrows
  exact ⟨p, s', toOption_eq_some.mp hdone, hrepositories, hprojects⟩

theorem project_names_platform : ∃ s p s', ReachableBy (Operation.ImportsNames fun _ => False) s ∧
    s.repositories.length = 1 ∧ s.createProject "  platform " none 0 = .ok (p, s') ∧
    p.name = "platform" ∧ (∃ q ∈ s'.projects, ActsOn s' "platform" q) ∧
    Unknown s' "  platform " := by
  obtain ⟨p, s', hok, -, -⟩ := createProject_unprojected
  obtain ⟨-, -, -, hcreated⟩ := project_names reachable_unprojected
  obtain ⟨hname, -, ⟨q, hq, -, -, hacts⟩, hunknown⟩ := hcreated _ _ _ p s' hok
  have hplatform : p.name = "platform" := hname.trans (by decide)
  exact ⟨unprojected, p, s', reachable_unprojected, rfl, hok, hplatform,
    ⟨q, hq, hplatform ▸ hacts⟩, hunknown (by decide) (fun hnone => hnone)⟩

/-- A directory that records a project with a blank name. -/
def blankTree : Files.Tree where
  base := "/w"
  entries := [(["projects.jsonl"], .file (.text (Sync.Manifest.linesText
    [Sync.projectCodec.encode ⟨" ", none, 0⟩])))]

/-- A project does not answer to the text that it was created with, and an import stores a blank
name. -/
theorem project_names_as_given :
    (∃ s p s' r, Reachable s ∧ s.createProject "  platform " none 0 = .ok (p, s') ∧
      r ∈ s'.repositories ∧ s'.addToProject "  platform " r.fullName =
        .error (.invalidArgument (.unknownProject "  platform "))) ∧
    ∃ s q, Reachable s ∧ q ∈ s.projects ∧ q.name = " " ∧ ¬ Usable q.name := by
  obtain ⟨p, s', hcreated, hrepositories, hprojects⟩ := createProject_unprojected
  have hunknown : Unknown s' "  platform " := unknown_of_forall fun q hq heq => by
    have hname := List.mem_map_of_mem (f := ProjectRow.name) hq
    rw [hprojects, heq, List.mem_singleton] at hname
    exact absurd hname (by decide)
  have himport : (Sync.importFrom (.empty 0) blankTree "/w").toOption.map (fun done =>
      done.2.projects.map ProjectRow.name) = some [" "] := by
    decide +kernel
  obtain ⟨⟨done, s⟩, hdone, hnames⟩ := Option.map_eq_some_iff.mp himport
  have hok := toOption_eq_some.mp hdone
  have hrun : (Operation.importFrom blankTree "/w").run (.empty 0) = .ok s := by
    rw [Operation.run, hok, Except.map]
  have hs : Reachable s := .step (.importFrom blankTree "/w") (.empty 0) trivial hrun
  obtain ⟨q, hq, hname⟩ := List.map_eq_singleton_iff.mp hnames
  obtain ⟨r, hr⟩ : ∃ r, r ∈ s'.repositories := by
    rw [hrepositories]
    exact ⟨_, List.mem_cons_self⟩
  refine ⟨⟨unprojected, p, s', r, reachable_unprojected.reachable, hcreated, hr,
    hunknown.adds r.fullName⟩, s, q, hs, ?_, hname, fun husable => ?_⟩
  · rw [hq]
    exact List.mem_cons_self
  · have hfirst := husable.first ' ' (by rw [hname]; decide)
    cases hfirst

end CodeIndex
