import CodeIndex.Indexing
import CodeIndex.Proofs.Store.Run
import CodeIndex.Proofs.Sync.Soundness

/-!
The operations that change a store, and the stores that they lead to from an empty one. The
invariant holds in all of them: it holds of an empty store, and each operation that succeeds keeps
it. An operation that fails leaves the store as it was.
-/
namespace CodeIndex

/-- An operation on a store with all that it is given. -/
inductive Operation where
  | storeRun (repositoryId : Id) (now : Int) (run : Store.Run)
  | storeRepository (d : Descriptor) (id : Id) (now : Int) (run : Store.Run)
  | index (t : Files.Tree) (config : IndexConfig) (d : Descriptor) (listed : Option (List String))
    (now : Int)
  | importFrom (t : Files.Tree) (dir : String)
  | exportTo (t : Files.Tree) (dir : String) (force : Bool)
  | upsertRepository (d : Descriptor)
  | deleteRepository (fullName : String)
  | createProject (name : String) (description : Option String) (now : Int)
  | addToProject (project fullName : String)
  | removeFromProject (project fullName : String)
  | deleteProject (name : String)

namespace Operation

/-- The store after an operation. -/
def run (s : Store) : Operation → Except Error Store
  | storeRun repositoryId now run => (s.storeRun repositoryId now run).map Prod.snd
  | storeRepository d id now run => (s.storeRepository d id now run).map fun out => out.2.2
  | index t config d listed now => (s.index t config d listed now).map Prod.snd
  | importFrom t dir => (Sync.importFrom s t dir).map Prod.snd
  | exportTo t dir force => (Sync.exportTo s t dir force).2.map Prod.snd
  | upsertRepository d => (s.upsertRepository d).map Prod.snd
  | deleteRepository fullName => .ok (s.deleteRepository fullName).2
  | createProject name description now => (s.createProject name description now).map Prod.snd
  | addToProject project fullName => s.addToProject project fullName
  | removeFromProject project fullName => (s.removeFromProject project fullName).map Prod.snd
  | deleteProject name => .ok (s.deleteProject name).2

/-- Ids are made at random: a caller who gives one does not know an id that is still to be made. -/
def Allowed (s : Store) : Operation → Prop
  | storeRepository _ id _ _ => s.Old id
  | _ => True

end Operation

/-- The stores that operations lead to from an empty store. -/
inductive Reachable : Store → Prop where
  | empty (origin : Nat) : Reachable (.empty origin)
  | step {s s' : Store} (op : Operation) : Reachable s → op.Allowed s → op.run s = .ok s' →
      Reachable s'

namespace Store

variable {s s' : Store}

theorem map_eq_ok {ε α β : Type} {x : Except ε α} {f : α → β} {b : β} :
    x.map f = .ok b ↔ ∃ a, x = .ok a ∧ f a = b := by
  cases x <;> simp [Except.map]

/-- The project that an operation has created. -/
theorem createProject_of_run {name : String} {description : Option String} {now : Int}
    (hok : (Operation.createProject name description now).run s = .ok s') :
    ∃ p, s.createProject name description now = .ok (p, s') := by
  rw [Operation.run] at hok
  obtain ⟨⟨p, t⟩, hrun, rfl⟩ := map_eq_ok.mp hok
  exact ⟨p, hrun⟩

theorem toOption_eq_some {ε α : Type} {x : Except ε α} {a : α} :
    x.toOption = some a ↔ x = .ok a := by
  cases x <;> simp [Except.toOption]

theorem Sound.upsertRepositoryAs (h : s.Sound) {id : Id} {d : Descriptor} {row : RepositoryRow}
    (hold : s.Old id) (hok : s.upsertRepositoryAs id d = .ok (row, s')) : s'.Sound := by
  unfold Store.upsertRepositoryAs at hok
  split at hok
  · next old hfound =>
    obtain ⟨-, rfl⟩ := Prod.mk.inj (Except.ok.inj hok)
    obtain ⟨hmem, hname⟩ := h.repository?_eq_some.mp hfound
    -- The row that is written has the id and the name of the one row it replaces.
    have hsame : ∀ r ∈ s.repositories, (r.fullName == d.fullName) = true → r = old :=
      fun r hr hd => eq_of_key h.repository_names hr hmem ((beq_iff_eq.mp hd).trans hname.symm)
    apply h.mapRepositories
    · intro r hr
      split
      · next hd => rw [hsame r hr hd]
      · rfl
    · intro r hr
      split
      · next hd => rw [hsame r hr hd]
      · rfl
  · next hnone =>
    split at hok
    · simp at hok
    · next hfree =>
      obtain ⟨-, rfl⟩ := Prod.mk.inj (Except.ok.inj hok)
      apply h.addRepository
      · intro r hr heq
        have hsome := h.repository?_eq_some.mpr ⟨hr, heq⟩
        rw [hnone] at hsome
        simp at hsome
      · intro r hr heq
        exact hfree (Option.isSome_iff_exists.mpr ⟨r, h.repositoryById?_eq_some.mpr ⟨hr, heq⟩⟩)
      · exact hold

theorem Sound.storeRepository (h : s.Sound) {d : Descriptor} {id : Id} {now : Int} {run : Run}
    {out : RepositoryRow × RunCounts × Store} (hold : s.Old id)
    (hok : s.storeRepository d id now run = .ok out) : out.2.2.Sound := by
  unfold Store.storeRepository at hok
  obtain ⟨⟨row, s1⟩, hupsert, hok⟩ := bind_eq_ok.mp hok
  obtain ⟨⟨counts, s2⟩, hrun, hok⟩ := bind_eq_ok.mp hok
  obtain rfl := Except.ok.inj hok
  exact (h.upsertRepositoryAs hold hupsert).storeRun hrun

/-- The id of a repository that is indexed is stored or new. -/
theorem Sound.repositoryId (h : s.Sound) (fullName : String) :
    (Indexing.repositoryId s fullName).2.Sound ∧
      (Indexing.repositoryId s fullName).2.Old (Indexing.repositoryId s fullName).1 := by
  unfold Indexing.repositoryId
  split
  · next r hr => exact ⟨h, h.repository_old r (h.repository?_eq_some.mp hr).1⟩
  · exact ⟨h.freshId, old_freshId s⟩

/-- What an index run stores. -/
theorem index_eq_ok {t : Files.Tree} {config : IndexConfig} {d : Descriptor}
    {listed : Option (List String)} {now : Int} {stats : IndexStats}
    (hok : s.index t config d listed now = .ok (stats, s')) :
    ∃ root out, t.resolve [] d.root = .ok root ∧
      let paths := listed.getD ((Files.walk t config root).map Files.Source.relative)
      let sources := (Indexing.readSources t root paths now).filterMap Except.toOption
      let run := Pipeline.run sources (Indexing.aliasesOf t root)
        (Indexing.repositoryId s d.fullName).1.text config.cycleDepth
      (Indexing.repositoryId s d.fullName).2.storeRepository d
        (Indexing.repositoryId s d.fullName).1 now
        ⟨run.files, run.symbols, run.references, run.build.edges⟩ = .ok out ∧ out.2.2 = s' := by
  unfold index at hok
  split at hok
  · next root hroot _ =>
    dsimp only at hok
    obtain ⟨out, hstore, hok⟩ := bind_eq_ok.mp hok
    exact ⟨root, out, hroot, hstore, congrArg Prod.snd (Except.ok.inj hok)⟩
  · simp at hok

theorem Sound.index (h : s.Sound) {t : Files.Tree} {config : IndexConfig} {d : Descriptor}
    {listed : Option (List String)} {now : Int} {stats : IndexStats}
    (hok : s.index t config d listed now = .ok (stats, s')) : s'.Sound := by
  obtain ⟨root, out, -, hstore, rfl⟩ := index_eq_ok hok
  obtain ⟨hs, hold⟩ := h.repositoryId d.fullName
  exact hs.storeRepository hold hstore

theorem Sound.deleteRepository (h : s.Sound) (fullName : String) :
    (s.deleteRepository fullName).2.Sound := by
  unfold Store.deleteRepository
  split
  · exact h
  · exact (h.removeRepository fullName).withPending _ _

theorem Sound.createProject (h : s.Sound) {name : String} {description : Option String} {now : Int}
    {p : Project} (hok : s.createProject name description now = .ok (p, s')) : s'.Sound := by
  unfold Store.createProject at hok
  dsimp only at hok
  split at hok
  · simp at hok
  · split at hok
    · simp at hok
    · next hfree =>
      obtain ⟨-, rfl⟩ := Prod.mk.inj (Except.ok.inj hok)
      apply h.freshId.addProject
      · intro row hrow heq
        exact hfree (Option.isSome_iff_exists.mpr ⟨row, h.project?_eq_some.mpr ⟨hrow, heq⟩⟩)
      · intro row hrow
        exact ne_freshId (h.project_old row hrow)
      · exact old_freshId s

/-- Both ends of a membership are stored. -/
theorem membershipEnds_eq_ok {project fullName : String} {p : ProjectRow} {r : RepositoryRow} :
    s.membershipEnds project fullName = .ok (p, r) ↔
      s.project? project = some p ∧ s.repository? fullName = some r := by
  unfold membershipEnds
  split
  · next hnone => simp [hnone, throw, throwThe, MonadExceptOf.throw]
  · next q hq =>
    unfold requireRepository
    split
    · next r' hr' => simp [hq, hr', bind, Except.bind, pure, Except.pure]
    · next hr' => simp [hr', bind, Except.bind]

theorem Sound.addToProject (h : s.Sound) {project fullName : String}
    (hok : s.addToProject project fullName = .ok s') : s'.Sound := by
  unfold Store.addToProject at hok
  obtain ⟨⟨p, r⟩, hends, hok⟩ := bind_eq_ok.mp hok
  obtain rfl := Except.ok.inj hok
  obtain ⟨hp, hr⟩ := membershipEnds_eq_ok.mp hends
  exact h.addMembership ⟨p, (h.project?_eq_some.mp hp).1, rfl⟩
    ⟨r, (h.repository?_eq_some.mp hr).1, rfl⟩

theorem Sound.removeFromProject (h : s.Sound) {project fullName : String} {found : Bool}
    (hok : s.removeFromProject project fullName = .ok (found, s')) : s'.Sound := by
  unfold Store.removeFromProject at hok
  obtain ⟨⟨p, r⟩, -, hok⟩ := bind_eq_ok.mp hok
  dsimp only at hok
  split at hok
  · obtain ⟨-, rfl⟩ := Prod.mk.inj (Except.ok.inj hok)
    exact (h.filterMemberships _).withPending _ _
  · obtain ⟨-, rfl⟩ := Prod.mk.inj (Except.ok.inj hok)
    exact h

theorem Sound.deleteProject (h : s.Sound) (name : String) : (s.deleteProject name).2.Sound := by
  unfold Store.deleteProject
  split
  · exact h
  · exact (h.removeProject name).withPending _ _

/-- An export makes the directory, writes a snapshot of the store and clears the queue. -/
theorem exportTo_eq_ok {t t' : Files.Tree} {dir : String} {force : Bool}
    {done : Sync.ExportSummary} (hok : Sync.exportTo s t dir force = (t', .ok (done, s'))) :
    ∃ made, t.makeDirectories [] dir = .ok made ∧
      (Sync.Snapshot.of s).write dir force made = (t', .ok done) ∧
      s' = (Sync.Snapshot.of s).clear s := by
  unfold Sync.exportTo at hok
  split at hok
  · simp at hok
  · next made hmakes =>
    dsimp only at hok
    split at hok
    · simp at hok
    · next written done' hwrite =>
      obtain ⟨rfl, hdone⟩ := Prod.mk.inj hok
      obtain ⟨rfl, rfl⟩ := Prod.mk.inj (Except.ok.inj hdone)
      exact ⟨made, hmakes, hwrite, rfl⟩

/-- An export takes deletions out of the queue and leaves the tables alone. -/
theorem exportTo_store {t : Files.Tree} {dir : String} {force : Bool}
    {done : Sync.ExportSummary} (hok : (Sync.exportTo s t dir force).2 = .ok (done, s')) :
    s' = (Sync.Snapshot.of s).clear s := by
  obtain ⟨made, -, -, hstore⟩ := exportTo_eq_ok (Prod.ext rfl hok)
  exact hstore

theorem Sound.clear (h : s.Sound) (x : Sync.Snapshot) : (x.clear s).Sound := by
  unfold Sync.Snapshot.clear
  split
  · exact h
  · exact h.withPending _ _

end Store

namespace Operation

open Store

/-- An operation that succeeds keeps the invariant. -/
theorem sound_run {s s' : Store} {op : Operation} (h : s.Sound) (hallowed : op.Allowed s)
    (hok : op.run s = .ok s') : s'.Sound := by
  cases op with
  | storeRun repositoryId now run =>
    obtain ⟨⟨counts, t⟩, hrun, rfl⟩ := map_eq_ok.mp hok
    exact h.storeRun hrun
  | storeRepository d id now run =>
    obtain ⟨out, hrun, rfl⟩ := map_eq_ok.mp hok
    exact h.storeRepository hallowed hrun
  | index t config d listed now =>
    obtain ⟨⟨stats, t⟩, hrun, rfl⟩ := map_eq_ok.mp hok
    exact h.index hrun
  | importFrom t dir =>
    obtain ⟨⟨summary, t⟩, hrun, rfl⟩ := map_eq_ok.mp hok
    exact Sync.Sound.importFrom h hrun
  | exportTo t dir force =>
    obtain ⟨⟨done, t⟩, hrun, rfl⟩ := map_eq_ok.mp hok
    rw [exportTo_store hrun]
    exact h.clear _
  | upsertRepository d =>
    obtain ⟨⟨row, t⟩, hrun, rfl⟩ := map_eq_ok.mp hok
    exact h.freshId.upsertRepositoryAs (old_freshId s) hrun
  | deleteRepository fullName =>
    obtain rfl := Except.ok.inj hok
    exact h.deleteRepository fullName
  | createProject name description now =>
    obtain ⟨p, hrun⟩ := createProject_of_run hok
    exact h.createProject hrun
  | addToProject project fullName => exact h.addToProject hok
  | removeFromProject project fullName =>
    obtain ⟨⟨found, t⟩, hrun, rfl⟩ := map_eq_ok.mp hok
    exact h.removeFromProject hrun
  | deleteProject name =>
    obtain rfl := Except.ok.inj hok
    exact h.deleteProject name

end Operation

theorem Reachable.sound {s : Store} (h : Reachable s) : s.Sound := by
  induction h with
  | empty origin => exact Store.sound_empty origin
  | step op _ hallowed hok ih => exact op.sound_run ih hallowed hok

/-- In every store that operations lead to, natural keys are unique and rows name rows of their own
repository. -/
theorem reachable_consistent {s : Store} (h : Reachable s) : s.Consistent :=
  h.sound.toConsistent

/-- A file that calls its own function. -/
def sampleRun : Store.Run where
  files := [⟨"a.ts", "f()", .typescript, 3, "", 0⟩]
  symbols := [⟨"a.ts", "f", .function, 1, 1, none, none, true⟩]
  references := [{ filePath := "a.ts", name := "f", kind := .call, line := 1, column := 0,
                   targetSymbol := some ⟨"a.ts", "f", 1⟩ }]
  edges := [.fileImport "" "a.ts" "a.ts",
    ⟨"", .symbolUsage, none, none, some ⟨"a.ts", "f", 1⟩, some ⟨"a.ts", "f", 1⟩⟩]

theorem reachable_consistent_sample : ∃ s : Store, Reachable s ∧ s.references.length = 1 ∧
    s.edges.length = 2 ∧ s.memberships.length = 1 ∧ s.Consistent := by
  have h : Reachable _ :=
    .step (.addToProject "p" "r") (.step (.createProject "p" none 0)
      (.step (.storeRepository (.ofFullName "r" "") (.given "1") 0 sampleRun) (.empty 0)
        (by intro n hn; cases hn) rfl) trivial rfl) trivial rfl
  exact ⟨_, h, rfl, rfl, rfl, reachable_consistent h⟩

end CodeIndex
