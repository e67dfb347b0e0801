import CodeIndex.Proofs.Indexing
import CodeIndex.Proofs.Sync.Stored

/-!
Stores that can be exported: their hashes and edge keys are in order and their numbers in range.
Every store that the operations lead to is one of them, as long as the numbers that the operations
are given are in range themselves.
-/
namespace CodeIndex

open Sync (FitsI64)

/-- The lines and columns of every text of a tree can be counted in 32 bits. -/
def Files.Tree.Countable (t : Files.Tree) : Prop :=
  ∀ l text, t.entry? l = some (.file (.text text)) → text.utf8ByteSize + 1 < 2 ^ 32

theorem Files.Tree.countable_of_entries {t : Files.Tree}
    (h : ∀ e ∈ t.entries, ∀ text, e.2 = .file (.text text) → text.utf8ByteSize + 1 < 2 ^ 32) :
    t.Countable := by
  intro l text hentry
  unfold entry? at hentry
  split at hentry
  · simp at hentry
  · obtain ⟨e, he, heq⟩ := Option.map_eq_some_iff.mp hentry
    exact h e (List.mem_of_find?_eq_some he) text heq

theorem Files.Tree.Countable.size_lt {t : Files.Tree} (h : t.Countable) {start : Files.Location}
    {path text : String} (hread : t.readText start path = .ok text) :
    text.utf8ByteSize + 1 < 2 ^ 32 := by
  obtain ⟨c, hcontent, hread⟩ := Store.bind_eq_ok.mp hread
  obtain ⟨l, -, hcontent⟩ := Store.bind_eq_ok.mp hcontent
  cases c with
  | text s =>
    obtain rfl : s = text := Except.ok.inj hread
    split at hcontent
    · next hentry =>
      rw [Except.ok.inj hcontent] at hentry
      exact h l s hentry
    · simp [throw, throwThe, MonadExceptOf.throw] at hcontent
    · simp [throw, throwThe, MonadExceptOf.throw] at hcontent
  | _ => simp [throw, throwThe, MonadExceptOf.throw] at hread

/-! What an index run stores -/

namespace Pipeline

variable {sources : List SourceFile} {aliases : Resolve.Aliases} {repositoryId : String}
  {cycleDepth : Nat}

/-- Linking leaves the place of a reference alone, and what is known of it. -/
theorem exists_extracted {r : Reference}
    (h : r ∈ (buildOf sources aliases repositoryId).references) :
    ∃ g ∈ good sources, ∃ found ∈ g.2.references,
      r.line = found.line ∧ r.column = found.column ∧ r.metadata = found.metadata := by
  rw [buildOf, Graph.build_references] at h
  obtain ⟨resolved, hresolved, rfl⟩ := List.mem_map.mp h
  obtain ⟨found, hfound, rfl⟩ := List.mem_map.mp hresolved
  obtain ⟨g, hg, hmem⟩ := List.mem_flatMap.mp hfound
  refine ⟨g, hg, found, hmem, ?_⟩
  rw [Resolve.resolveReference_eq]
  unfold Graph.setTarget
  split <;> exact ⟨rfl, rfl, rfl⟩

/-- A run over files that can be counted is in order. -/
theorem run_fits {now : Int} (hnow : FitsI64 now)
    (hsources : ∀ f ∈ sources, ∃ path text, f = .of path text now ∧
      text.utf8ByteSize + 1 < 2 ^ 32) :
    Sync.Run.Fits (run sources aliases repositoryId cycleDepth).stored := by
  have hgood : ∀ g ∈ good sources, ∃ path text, g.1 = .of path text now ∧
      text.utf8ByteSize + 1 < 2 ^ 32 ∧ g.2.Within text.utf8ByteSize := by
    intro g hg
    obtain ⟨hmem, hextracted⟩ := mem_good.mp hg
    obtain ⟨path, text, hfile, hsize⟩ := hsources g.1 hmem
    rw [hfile] at hextracted
    exact ⟨path, text, hfile, hsize, Extract.extractFile_within hextracted⟩
  have hfiles : ∀ f ∈ (good sources).map Prod.fst, ∃ path text, f = .of path text now ∧
      text.utf8ByteSize + 1 < 2 ^ 32 := by
    intro f hf
    obtain ⟨g, hg, rfl⟩ := List.mem_map.mp hf
    obtain ⟨path, text, hfile, hsize, -⟩ := hgood g hg
    exact ⟨path, text, hfile, hsize⟩
  rw [run_stored]
  refine ⟨?_, ?_, ?_, ?_, ?_⟩
  · intro f hf
    obtain ⟨path, text, rfl, -⟩ := hfiles f hf
    rfl
  · intro f hf
    obtain ⟨path, text, rfl, hsize⟩ := hfiles f hf
    have hlarge : text.utf8ByteSize < 2 ^ 64 := by omega
    exact ⟨hlarge, hnow⟩
  · intro x hx
    obtain ⟨g, hg, hmem⟩ := List.mem_flatMap.mp hx
    obtain ⟨path, text, -, hsize, hwithin⟩ := hgood g hg
    have hlines := hwithin.symbols x hmem
    exact ⟨by omega, by omega⟩
  · intro r hr
    obtain ⟨g, hg, found, hmem, hline, hcolumn, hmetadata⟩ := exists_extracted hr
    obtain ⟨path, text, -, hsize, hwithin⟩ := hgood g hg
    have hplace := hwithin.references found hmem
    refine ⟨by omega, by omega, ?_⟩
    rw [hmetadata]
    intro e he
    have hle := hplace.2.2 e he
    omega
  · intro e he key hkey
    obtain ⟨x, hx, rfl⟩ := (edge_of_run he).2.2 key hkey
    exact List.mem_map_of_mem hx

end Pipeline

/-- The files of an index run are texts of the tree. -/
theorem Indexing.mem_sourcesOf {t : Files.Tree} (ht : t.Countable) {root : Files.Location}
    {paths : List String} {now : Int} :
    ∀ f ∈ sourcesOf t root paths now, ∃ path text, f = .of path text now ∧
      text.utf8ByteSize + 1 < 2 ^ 32 := by
  induction paths with
  | nil => simp [sourcesOf, readSources]
  | cons path rest ih =>
    rw [sourcesOf_cons]
    split
    · next text hread =>
      intro f hf
      rcases List.mem_cons.mp hf with rfl | hf
      · exact ⟨path, text, rfl, ht.size_lt hread⟩
      · exact ih f hf
    · exact ih

/-- Putting a repository by its descriptor changes it in what does not identify it. -/
theorem Store.upsertRepositoryAs_eq_ok {s s' : Store} (h : s.Sound) {id : Id} {d : Descriptor}
    {row : RepositoryRow} (hok : s.upsertRepositoryAs id d = .ok (row, s')) :
    ∃ rows, s' = { s with repositories := rows } ∧
      s.repositories.map Sync.repositoryMark ⊆ rows.map Sync.repositoryMark ∧
      ∀ r ∈ rows, ∀ t ∈ r.lastIndexedAt, ∃ old ∈ s.repositories, t ∈ old.lastIndexedAt := by
  unfold Store.upsertRepositoryAs at hok
  split at hok
  · next old hold =>
    obtain ⟨-, rfl⟩ := Prod.mk.inj (Except.ok.inj hok)
    obtain ⟨hmem, hname⟩ := h.repository?_eq_some.mp hold
    refine ⟨_, rfl, ?_, ?_⟩
    · rw [map_key_map]
      · exact List.Subset.refl _
      · intro r hr
        split
        · next heq =>
          have hsame : r = old :=
            eq_of_key h.repository_names hr hmem ((beq_iff_eq.mp heq).trans hname.symm)
          rw [hsame]
          rfl
        · rfl
    · apply forall_mem_map
      intro r hr
      split
      · exact fun t ht => ⟨old, hmem, ht⟩
      · exact fun t ht => ⟨r, hr, ht⟩
  · split at hok
    · simp at hok
    · obtain ⟨-, rfl⟩ := Prod.mk.inj (Except.ok.inj hok)
      refine ⟨_, rfl, ?_, ?_⟩
      · rw [List.map_append]
        exact List.subset_append_left _ _
      · exact forall_mem_append_one (fun r hr t ht => ⟨r, hr, ht⟩) (by simp)

/-! The shapes of the operations -/

namespace Store

variable {s s' : Store}

/-- An index run puts the repository and stores what the pipeline made. -/
theorem index_stages {t : Files.Tree} {config : IndexConfig} {d : Descriptor}
    {listed : Option (List String)} {now : Int} {stats : IndexStats}
    (hok : s.index t config d listed now = .ok (stats, s')) :
    ∃ root row s1 counts, (Indexing.repositoryId s d.fullName).2.upsertRepositoryAs
        (Indexing.repositoryId s d.fullName).1 d = .ok (row, s1) ∧
      s1.storeRun row.id now (Indexing.runOf s t config d root listed now).stored =
        .ok (counts, s') := by
  obtain ⟨root, out, -, hstore, rfl⟩ := index_eq_ok hok
  obtain ⟨⟨row, s1⟩, hupsert, hstore⟩ := bind_eq_ok.mp hstore
  obtain ⟨⟨counts, s2⟩, hrun, hstore⟩ := bind_eq_ok.mp hstore
  obtain rfl := Except.ok.inj hstore
  exact ⟨root, row, s1, counts, hupsert, hrun⟩

theorem createProject_eq_ok {name : String} {description : Option String} {now : Int} {p : Project}
    (hok : s.createProject name description now = .ok (p, s')) :
    ∃ row : ProjectRow, row.createdAt = now ∧
      s' = { s.freshId.2 with projects := s.projects ++ [row] } := by
  unfold createProject at hok
  dsimp only at hok
  split at hok
  · simp at hok
  · split at hok
    · simp at hok
    · exact ⟨_, rfl, (Prod.mk.inj (Except.ok.inj hok)).2.symm⟩

theorem addToProject_eq_ok {project fullName : String}
    (hok : s.addToProject project fullName = .ok s') :
    ∃ rows, s' = { s with memberships := rows } ∧ s.memberships ⊆ rows := by
  unfold addToProject at hok
  obtain ⟨⟨p, r⟩, -, hok⟩ := bind_eq_ok.mp hok
  obtain rfl := Except.ok.inj hok
  unfold addMembership
  split
  · exact ⟨_, rfl, List.Subset.refl _⟩
  · exact ⟨_, rfl, List.subset_append_left _ _⟩

theorem removeFromProject_eq_ok {project fullName : String} {found : Bool}
    (hok : s.removeFromProject project fullName = .ok (found, s')) :
    s' = s ∨ ∃ p r, s.project? project = some p ∧ s.repository? fullName = some r ∧
      s' = ({ s with memberships := s.memberships.filter fun m =>
        m != (⟨p.id, r.id⟩ : MembershipRow) } : Store).enqueue (.membership project fullName) := by
  unfold removeFromProject at hok
  obtain ⟨⟨p, r⟩, hends, hok⟩ := bind_eq_ok.mp hok
  obtain ⟨hp, hr⟩ := membershipEnds_eq_ok.mp hends
  dsimp only at hok
  split at hok
  · exact .inr ⟨p, r, hp, hr, (Prod.mk.inj (Except.ok.inj hok)).2.symm⟩
  · exact .inl (Prod.mk.inj (Except.ok.inj hok)).2.symm

end Store

namespace Sync

open Store (map_eq_ok bind_eq_ok)

variable {s s' : Store}

theorem shrinks_filterMemberships (s : Store) (test : MembershipRow → Bool) :
    Shrinks s { s with memberships := s.memberships.filter test } :=
  { Shrinks.refl s with memberships := List.filter_subset_self _ }

/-! Operations that stay in range -/

namespace InRange

theorem withPending (h : InRange s) {pending : List Pending} (next : Nat)
    (hpending : ∀ p ∈ pending, p.key.Fits) :
    InRange { s with pending := pending, nextPending := next } :=
  { h with pending := hpending }

theorem freshId (h : InRange s) : InRange s.freshId.2 := { h with }

theorem upsertRepositoryAs (h : InRange s) (hs : s.Sound) {id : Id} {d : Descriptor}
    {row : RepositoryRow} (hok : s.upsertRepositoryAs id d = .ok (row, s')) : InRange s' := by
  obtain ⟨rows, rfl, -, htimes⟩ := Store.upsertRepositoryAs_eq_ok hs hok
  refine { h with repositories := ?_ }
  intro r hr t ht
  obtain ⟨old, hold, ht⟩ := htimes r hr t ht
  exact h.repositories old hold t ht

theorem repositoryId (h : InRange s) (fullName : String) :
    InRange (Indexing.repositoryId s fullName).2 := by
  unfold Indexing.repositoryId
  split
  · exact h
  · exact h.freshId

theorem index (h : InRange s) (hs : s.Sound) {t : Files.Tree} {config : IndexConfig}
    {d : Descriptor} {listed : Option (List String)} {now : Int} {stats : IndexStats}
    (hnow : FitsI64 now) (ht : t.Countable)
    (hok : s.index t config d listed now = .ok (stats, s')) : InRange s' := by
  obtain ⟨root, row, s1, counts, hupsert, hrun⟩ := Store.index_stages hok
  obtain ⟨hfresh, hold⟩ := hs.repositoryId d.fullName
  have hfits : Run.Fits (Indexing.runOf s t config d root listed now).stored :=
    Pipeline.run_fits hnow (Indexing.mem_sourcesOf ht)
  exact ((h.repositoryId d.fullName).upsertRepositoryAs hfresh hupsert).storeRun
    (hfresh.upsertRepositoryAs hold hupsert) hnow hfits.inRange hrun

theorem deleteRepository (h : InRange s) (fullName : String) :
    InRange (s.deleteRepository fullName).2 := by
  unfold Store.deleteRepository
  split
  · exact h
  · exact (h.shrinks (shrinks_removeRepository s fullName)).enqueue trivial

theorem deleteProject (h : InRange s) (name : String) : InRange (s.deleteProject name).2 := by
  unfold Store.deleteProject
  split
  · exact h
  · exact (h.shrinks (shrinks_removeProject s name)).enqueue trivial

theorem createProject (h : InRange s) {name : String} {description : Option String} {now : Int}
    {p : Store.Project} (hnow : FitsI64 now)
    (hok : s.createProject name description now = .ok (p, s')) : InRange s' := by
  obtain ⟨row, htime, rfl⟩ := Store.createProject_eq_ok hok
  exact { h with projects := Store.forall_mem_append_one h.projects (htime ▸ hnow) }

theorem addToProject (h : InRange s) {project fullName : String}
    (hok : s.addToProject project fullName = .ok s') : InRange s' := by
  obtain ⟨rows, rfl, -⟩ := Store.addToProject_eq_ok hok
  exact { h with }

theorem removeFromProject (h : InRange s) {project fullName : String} {found : Bool}
    (hok : s.removeFromProject project fullName = .ok (found, s')) : InRange s' := by
  rcases Store.removeFromProject_eq_ok hok with rfl | ⟨p, r, -, -, rfl⟩
  · exact h
  · exact (h.shrinks (shrinks_filterMemberships s _)).enqueue trivial

theorem importFrom (h : InRange s) {t : Files.Tree} {dir : String} {summary : ImportSummary}
    (hok : importFrom s t dir = .ok (summary, s')) : InRange s' := by
  refine importFrom_keeps ?_ ?_ hok
  · intro u u' table line htable hu hline
    obtain ⟨x, hx, hput⟩ := exists_record htable hline
    exact hu.put hx hput
  · intro keys
    exact h.shrinks (shrinks_applyDeletions s keys)

end InRange

/-- A store that can be exported without loss. -/
structure Exportable (s : Store) : Prop where
  faithful : Faithful s
  inRange : InRange s

theorem exportable_empty (origin : Nat) : Exportable (.empty origin) :=
  ⟨faithful_empty origin, inRange_empty origin⟩

namespace Exportable

theorem sound (h : Exportable s) : s.Sound := h.faithful.toSound

/-- Rows that stand for themselves may be added and changed. -/
theorem of_agrees (h : Exportable s) (h' : s'.Sound) (ha : Agrees s s')
    (hfiles : s'.files = s.files) (hedges : s'.edges = s.edges) (hrange : InRange s') :
    Exportable s' :=
  ⟨h.faithful.of_agrees ha h' hedges (hfiles ▸ h.faithful.hashes), hrange⟩

theorem freshId (h : Exportable s) : Exportable s.freshId.2 :=
  h.of_agrees h.sound.freshId { Agrees.refl s with } rfl rfl h.inRange.freshId

theorem withPending (h : Exportable s) {pending : List Pending} (next : Nat)
    (hpending : ∀ p ∈ pending, p.key.Fits) :
    Exportable { s with pending := pending, nextPending := next } :=
  h.of_agrees (h.sound.withPending _ _) { Agrees.refl s with } rfl rfl
    (h.inRange.withPending next hpending)

theorem enqueue (h : Exportable s) {k : Deletion} (hk : k.Fits) : Exportable (s.enqueue k) :=
  h.withPending _ (h.inRange.enqueue hk).pending

theorem shrinks (h : Exportable s) (hs : Shrinks s s') (h' : s'.Sound) : Exportable s' :=
  ⟨hs.faithful h.faithful h', h.inRange.shrinks hs⟩

/-! The operations -/

theorem upsertRepositoryAs (h : Exportable s) {id : Id} {d : Descriptor} {row : RepositoryRow}
    (hold : s.Old id) (hok : s.upsertRepositoryAs id d = .ok (row, s')) : Exportable s' := by
  have h' := h.sound.upsertRepositoryAs hold hok
  have hrange := h.inRange.upsertRepositoryAs h.sound hok
  obtain ⟨rows, rfl, hmarks, -⟩ := Store.upsertRepositoryAs_eq_ok h.sound hok
  exact h.of_agrees h' { Agrees.refl s with repositories := hmarks } rfl rfl hrange

theorem repositoryId (h : Exportable s) (fullName : String) :
    Exportable (Indexing.repositoryId s fullName).2 := by
  unfold Indexing.repositoryId
  split
  · exact h
  · exact h.freshId

theorem index (h : Exportable s) {t : Files.Tree} {config : IndexConfig} {d : Descriptor}
    {listed : Option (List String)} {now : Int} {stats : IndexStats} (hnow : FitsI64 now)
    (ht : t.Countable) (hok : s.index t config d listed now = .ok (stats, s')) : Exportable s' := by
  have hrange := h.inRange.index h.sound hnow ht hok
  obtain ⟨root, row, s1, counts, hupsert, hrun⟩ := Store.index_stages hok
  have hold := (h.sound.repositoryId d.fullName).2
  have h1 := (h.repositoryId d.fullName).upsertRepositoryAs hold hupsert
  have hfits : Run.Fits (Indexing.runOf s t config d root listed now).stored :=
    Pipeline.run_fits hnow (Indexing.mem_sourcesOf ht)
  exact ⟨h1.faithful.storeRun hfits hrun, hrange⟩

theorem deleteRepository (h : Exportable s) (fullName : String) :
    Exportable (s.deleteRepository fullName).2 := by
  unfold Store.deleteRepository
  split
  · exact h
  · have hremoved := h.shrinks (shrinks_removeRepository s fullName) (h.sound.removeRepository _)
    exact hremoved.enqueue trivial

theorem deleteProject (h : Exportable s) (name : String) : Exportable (s.deleteProject name).2 := by
  unfold Store.deleteProject
  split
  · exact h
  · have hremoved := h.shrinks (shrinks_removeProject s name) (h.sound.removeProject _)
    exact hremoved.enqueue trivial

theorem createProject (h : Exportable s) {name : String} {description : Option String} {now : Int}
    {p : Store.Project} (hnow : FitsI64 now)
    (hok : s.createProject name description now = .ok (p, s')) : Exportable s' := by
  have h' := h.sound.createProject hok
  have hrange := h.inRange.createProject hnow hok
  obtain ⟨row, -, rfl⟩ := Store.createProject_eq_ok hok
  refine h.of_agrees h' { Agrees.refl s with projects := ?_ } rfl rfl hrange
  rw [List.map_append]
  exact List.subset_append_left _ _

theorem addToProject (h : Exportable s) {project fullName : String}
    (hok : s.addToProject project fullName = .ok s') : Exportable s' := by
  have h' := h.sound.addToProject hok
  have hrange := h.inRange.addToProject hok
  obtain ⟨rows, rfl, -⟩ := Store.addToProject_eq_ok hok
  exact h.of_agrees h' { Agrees.refl s with } rfl rfl hrange

theorem removeFromProject (h : Exportable s) {project fullName : String} {found : Bool}
    (hok : s.removeFromProject project fullName = .ok (found, s')) : Exportable s' := by
  rcases Store.removeFromProject_eq_ok hok with rfl | ⟨p, r, -, -, rfl⟩
  · exact h
  · refine Exportable.enqueue ?_ trivial
    exact h.shrinks (shrinks_filterMemberships s _) (h.sound.filterMemberships _)

theorem importFrom (h : Exportable s) {t : Files.Tree} {dir : String} {summary : ImportSummary}
    (hok : importFrom s t dir = .ok (summary, s')) : Exportable s' := by
  have hfaithful : Faithful s' := by
    refine importFrom_keeps ?_ ?_ hok
    · intro u u' table line htable hu hline
      obtain ⟨x, -, hput⟩ := exists_record htable hline
      exact (merged_put hu hput).faithful
    · intro keys
      exact (shrinks_applyDeletions s keys).faithful h.faithful (Sound.applyDeletions h.sound keys)
  exact ⟨hfaithful, h.inRange.importFrom hok⟩

theorem clear (h : Exportable s) (x : Snapshot) : Exportable (x.clear s) := by
  have hpending := (h.inRange.clear x).pending
  unfold Snapshot.clear at hpending ⊢
  split
  · exact h
  · next last hlast =>
    rw [hlast] at hpending
    exact h.withPending _ hpending

end Exportable

end Sync

/-! Histories -/

namespace Operation

/-- The operations that change a store by itself, with numbers that are in range. -/
def Local : Operation → Prop
  | index t _ _ _ now => FitsI64 now ∧ t.Countable
  | createProject _ _ now => FitsI64 now
  | upsertRepository _ | deleteRepository _ | addToProject .. | removeFromProject ..
  | deleteProject _ => True
  | storeRun .. | storeRepository .. | importFrom .. | exportTo .. => False

/-- The operations that carry a store to a directory or back. -/
def Carries : Operation → Prop
  | importFrom .. | exportTo .. => True
  | _ => False

/-- An operation that succeeds leads from an exportable store to another one. -/
theorem exportable_run {s s' : Store} {op : Operation} (h : Sync.Exportable s)
    (hop : op.Local ∨ op.Carries) (hok : op.run s = .ok s') : Sync.Exportable s' := by
  cases op with
  | storeRun => simp [Local, Carries] at hop
  | storeRepository => simp [Local, Carries] at hop
  | index t config d listed now =>
    obtain ⟨hnow, ht⟩ := hop.resolve_right id
    obtain ⟨⟨stats, t⟩, hrun, rfl⟩ := Store.map_eq_ok.mp hok
    exact h.index hnow ht hrun
  | importFrom t dir =>
    obtain ⟨⟨summary, t⟩, hrun, rfl⟩ := Store.map_eq_ok.mp hok
    exact h.importFrom hrun
  | exportTo t dir force =>
    obtain ⟨⟨done, t⟩, hrun, rfl⟩ := Store.map_eq_ok.mp hok
    rw [Store.exportTo_store hrun]
    exact h.clear _
  | upsertRepository d =>
    obtain ⟨⟨row, t⟩, hrun, rfl⟩ := Store.map_eq_ok.mp hok
    exact h.freshId.upsertRepositoryAs (Store.old_freshId s) hrun
  | deleteRepository fullName =>
    obtain rfl := Except.ok.inj hok
    exact h.deleteRepository fullName
  | createProject name description now =>
    obtain ⟨p, hrun⟩ := Store.createProject_of_run hok
    exact h.createProject (hop.resolve_right id) hrun
  | addToProject project fullName => exact h.addToProject hok
  | removeFromProject project fullName =>
    obtain ⟨⟨found, t⟩, hrun, rfl⟩ := Store.map_eq_ok.mp hok
    exact h.removeFromProject hrun
  | deleteProject name =>
    obtain rfl := Except.ok.inj hok
    exact h.deleteProject name

end Operation

/-- The stores that indexing, imports and exports, and the operations on repositories and projects
lead to from an empty store. -/
inductive Reached : Store → Prop where
  | empty (origin : Nat) : Reached (.empty origin)
  | step {s s' : Store} (op : Operation) : Reached s → op.Local ∨ op.Carries → op.run s = .ok s' →
      Reached s'

theorem Reached.exportable {s : Store} (h : Reached s) : Sync.Exportable s := by
  induction h with
  | empty origin => exact Sync.exportable_empty origin
  | step op _ hop hok ih => exact op.exportable_run ih hop hok

end CodeIndex
