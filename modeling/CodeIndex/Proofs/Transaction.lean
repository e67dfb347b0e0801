import CodeIndex.Proofs.Operation
import CodeIndex.Proofs.Sync.Tables

/-!
The operations of a store as work that is done write by write. A failure may find such work half
done: files replaced and deletions queued before an edge turns out to be open, tables read before
a file that cannot be read. Work of several writes is a transaction, which gives back the store
that it began with; all other work checks before its only write. So an operation that fails changes
nothing. Write by write an operation comes to the same end as it does in one piece.
-/
namespace CodeIndex

open Sync (ImportSummary ExportSummary Table)

/-- Work on a store. What was written before a failure is there after it. -/
abbrev Work := EStateM Error Store

namespace Work

variable {α β ρ : Type}

/-- What work gives and leaves, unless it fails. -/
def outcome (w : Work α) (s : Store) : Except Error (α × Store) :=
  match w s with
  | .ok a s' => .ok (a, s')
  | .error e _ => .error e

/-- One write, which is done as a whole or not at all. -/
def write (f : Store → Except Error (α × Store)) : Work α := fun s =>
  match f s with
  | .ok (a, s') => .ok a s'
  | .error e => .error e s

/-- A look at the store that may end the work. -/
def look (f : Store → Except Error α) : Work α := write fun s => (f s).map fun a => (a, s)

/-- The writes of a list of records, one after the other. -/
def each (f : Store → β → List ρ → Except Error (Store × β)) (b : β) (rs : List ρ) : Work β :=
  rs.foldlM (fun b r => write fun s => (f s b [r]).map Prod.swap) b

/-- Work of which nothing is left when it fails. -/
def transaction (w : Work α) : Work α := fun s =>
  match w s with
  | .ok a s' => .ok a s'
  | .error e _ => .error e s

/-! What work comes to -/

theorem ok_bind {ε : Type} (a : α) (f : α → Except ε β) : (Except.ok a >>= f) = f a := rfl

theorem map_bind {ε γ : Type} (x : Except ε α) (g : α → β) (f : β → Except ε γ) :
    (x.map g >>= f) = x >>= fun a => f (g a) := by
  cases x <;> rfl

@[simp] theorem outcome_pure (a : α) (s : Store) : outcome (pure a) s = .ok (a, s) := rfl

@[simp] theorem outcome_get (s : Store) : outcome get s = .ok (s, s) := rfl

@[simp] theorem outcome_modify (f : Store → Store) (s : Store) :
    outcome (modify f) s = .ok ((), f s) := rfl

@[simp] theorem outcome_bind (w : Work α) (k : α → Work β) (s : Store) :
    outcome (w >>= k) s = outcome w s >>= fun out => outcome (k out.1) out.2 := by
  simp only [outcome, bind, EStateM.bind]
  cases w s <;> rfl

@[simp] theorem outcome_write (f : Store → Except Error (α × Store)) (s : Store) :
    outcome (write f) s = f s := by
  rw [outcome, write]
  cases f s <;> rfl

@[simp] theorem outcome_look (f : Store → Except Error α) (s : Store) :
    outcome (look f) s = (f s).map fun a => (a, s) := outcome_write _ s

@[simp] theorem outcome_transaction (w : Work α) (s : Store) :
    outcome (transaction w) s = outcome w s := by
  rw [outcome, transaction, outcome]
  cases w s <;> rfl

/-- What is done one after the other is done. -/
theorem outcome_foldlM {k : β → ρ → Work β} {f : Store → β → List ρ → Except Error (Store × β)}
    (hstep : ∀ s b r, outcome (k b r) s = (f s b [r]).map Prod.swap)
    (hnil : ∀ s b, f s b [] = .ok (s, b))
    (hcons : ∀ s b r rest, f s b (r :: rest) = f s b [r] >>= fun out => f out.1 out.2 rest)
    (s : Store) (b : β) (rs : List ρ) :
    outcome (rs.foldlM k b) s = (f s b rs).map Prod.swap := by
  induction rs generalizing s b with
  | nil => rw [hnil]; rfl
  | cons r rest ih =>
    rw [List.foldlM_cons, outcome_bind, hstep, hcons s b r rest]
    cases f s b [r] with
    | error e => rfl
    | ok out => exact ih out.1 out.2

theorem outcome_each {f : Store → β → List ρ → Except Error (Store × β)}
    (hnil : ∀ s b, f s b [] = .ok (s, b))
    (hcons : ∀ s b r rest, f s b (r :: rest) = f s b [r] >>= fun out => f out.1 out.2 rest)
    (s : Store) (b : β) (rs : List ρ) : outcome (each f b rs) s = (f s b rs).map Prod.swap :=
  outcome_foldlM (fun _ _ _ => outcome_write _ _) hnil hcons s b rs

/-! Work that leaves nothing when it fails -/

/-- Work that gives back the store when it fails. -/
def Restores (w : Work α) : Prop := ∀ s e s', w s = .error e s' → s' = s

theorem restores_write (f : Store → Except Error (α × Store)) : Restores (write f) := by
  intro s e s' h
  rw [write] at h
  split at h
  · simp at h
  · exact (EStateM.Result.error.inj h).2.symm

theorem restores_transaction (w : Work α) : Restores (transaction w) := by
  intro s e s' h
  rw [transaction] at h
  split at h
  · simp at h
  · exact (EStateM.Result.error.inj h).2.symm

theorem restores_throw (e : Error) : Restores (throw e : Work α) := by
  intro s e' s' h
  exact (EStateM.Result.error.inj h).2.symm

theorem restores_modify (f : Store → Store) : Restores (modify f) := by
  intro s e s' h
  have hok : EStateM.Result.ok () (f s) = .error e s' := h
  cases hok

/-- Work that has looked at the store has not changed it. -/
theorem restores_look {f : Store → Except Error α} {k : α → Work β} (h : ∀ a, Restores (k a)) :
    Restores (look f >>= k) := by
  intro s e s' hfail
  simp only [bind, EStateM.bind, look, write] at hfail
  cases hlook : f s with
  | error e' =>
    rw [hlook] at hfail
    exact (EStateM.Result.error.inj hfail).2.symm
  | ok a =>
    rw [hlook] at hfail
    exact h a s e s' hfail

theorem restores_get {k : Store → Work α} (h : ∀ s, Restores (k s)) : Restores (get >>= k) :=
  fun s e s' hfail => h s s e s' hfail

theorem Restores.map {w : Work α} (h : Restores w) (k : α → β) :
    Restores (w >>= fun a => pure (k a)) := by
  intro s e s' hfail
  simp only [bind, EStateM.bind] at hfail
  split at hfail
  · simp [pure, EStateM.pure] at hfail
  · next hw =>
    obtain ⟨rfl, rfl⟩ := EStateM.Result.error.inj hfail
    exact h s _ _ hw

end Work

open Work

/-! Work on runs -/

section Runs

/-- A run is stored: its files, symbols, references and edges are written one by one. -/
def runWork (repositoryId : Id) (now : Int) (run : Store.Run) : Work Store.RunCounts := do
  let s ← get
  match s.repositoryById? repositoryId with
  | none => throw (.repositoryNotFound repositoryId.text)
  | some repository =>
    let previous := s.derivedKeys repository
    let existing : Store.FileIds :=
      (s.files.filter fun f => f.repositoryId == repositoryId).map fun f => (f.path, f.id)
    modify fun s => s.removeDerived repositoryId
    let files ← each (fun s ids fs => .ok (s.putFiles repositoryId existing ids fs)) [] run.files
    let gone := existing.filter fun e => (Store.fileId? files e.1).isNone
    modify fun s => s.removeFiles fun f => (gone.map Prod.snd).contains f.id
    modify fun s => s.enqueueAll (gone.map fun e => .file repository.fullName e.1)
    let symbols ← each (Store.putSymbols repositoryId files) [] run.symbols
    let referencesStored ← each (Store.putReferences repositoryId files symbols) 0 run.references
    let edgesStored ← each (Store.putEdges repositoryId files symbols) 0 run.edges
    let current := (← get).derivedKeys repository
    modify fun s => s.enqueueAll (previous.filter fun k => !current.contains k)
    modify fun s =>
      { s with
        repositories := s.repositories.map fun r =>
          if r.id == repositoryId then { r with lastIndexedAt := some now } else r }
    return { filesStored := files.length, filesRemoved := gone.length,
             symbolsStored := symbols.length, referencesStored, edgesStored }

theorem outcome_putFiles (repositoryId : Id) (existing ids : Store.FileIds) (fs : List SourceFile)
    (s : Store) :
    outcome (each (fun s ids fs => .ok (s.putFiles repositoryId existing ids fs)) ids fs) s =
      .ok (s.putFiles repositoryId existing ids fs).swap := by
  rw [outcome_each]
  · rfl
  · intro s ids
    rfl
  · intro s ids f rest
    simp only [Store.putFiles]
    rfl

theorem outcome_putSymbols (repositoryId : Id) (files : Store.FileIds) (ids : Store.SymbolIds)
    (xs : List Symbol) (s : Store) :
    outcome (each (Store.putSymbols repositoryId files) ids xs) s =
      (s.putSymbols repositoryId files ids xs).map Prod.swap := by
  refine outcome_each (fun _ _ => rfl) (fun s ids x rest => ?_) s ids xs
  simp only [Store.putSymbols]
  cases Store.requireFile files x.filePath with
  | error e => rfl
  | ok fileId =>
    simp only [ok_bind]
    split
    · rfl
    · cases s.checkFile fileId <;> rfl

theorem outcome_putReferences (repositoryId : Id) (files : Store.FileIds)
    (symbols : Store.SymbolIds) (n : Nat) (xs : List Reference) (s : Store) :
    outcome (each (Store.putReferences repositoryId files symbols) n xs) s =
      (s.putReferences repositoryId files symbols n xs).map Prod.swap := by
  refine outcome_each (fun _ _ => rfl) (fun s n x rest => ?_) s n xs
  simp only [Store.putReferences]
  cases Store.requireFile files x.filePath with
  | error e => rfl
  | ok fileId =>
    simp only [ok_bind]
    split
    · rfl
    · cases s.checkFile fileId <;> rfl

theorem outcome_putEdges (repositoryId : Id) (files : Store.FileIds)
    (symbols : Store.SymbolIds) (n : Nat) (xs : List Edge) (s : Store) :
    outcome (each (Store.putEdges repositoryId files symbols) n xs) s =
      (s.putEdges repositoryId files symbols n xs).map Prod.swap := by
  refine outcome_each (fun _ _ => rfl) (fun s n x rest => ?_) s n xs
  simp only [Store.putEdges]
  split
  · rfl
  · cases Store.requireFile? files x.fromFile with
    | error e => rfl
    | ok fromFileId =>
      cases Store.requireFile? files x.toFile with
      | error e => rfl
      | ok toFileId =>
        simp only [ok_bind]
        split
        · rfl
        · split
          · rfl
          · cases Store.checkFile? s fromFileId with
            | error e => rfl
            | ok _ => cases Store.checkFile? s toFileId <;> rfl

theorem outcome_runWork (repositoryId : Id) (now : Int) (run : Store.Run) (s : Store) :
    outcome (runWork repositoryId now run) s = s.storeRun repositoryId now run := by
  rw [runWork, outcome_bind, outcome_get, Store.storeRun]
  simp only [ok_bind]
  cases s.repositoryById? repositoryId with
  | none => rfl
  | some repository =>
    simp only [outcome_bind, outcome_modify, outcome_putFiles, outcome_putSymbols,
      outcome_putReferences, outcome_putEdges, outcome_get, outcome_pure, ok_bind, map_bind,
      Prod.fst_swap, Prod.snd_swap]
    rfl

end Runs

/-! Work on directories -/

section Imports

variable (t : Files.Tree) (dir : String)

/-- The deletions of a manifest are applied one by one, and the rows they remove are counted. -/
def deletionWork (keys : List Sync.Deletion) : Work Nat :=
  keys.foldlM (fun n key => write fun s => .ok (n + (key.apply s).2, (key.apply s).1)) 0

/-- A table is read, and its lines are taken one by one. -/
def tableWork (done : ImportSummary) (table : Table) : Work ImportSummary := do
  match ← look fun _ => Sync.tableLines t dir table with
  | none => return done
  | some lines =>
    let done ← each (fun s done lines => .ok (Sync.applyLines table lines s done)) done lines
    return done.withTable table.name

/-- The deletions of a manifest are applied, and then the tables are read. -/
def directoryWork (manifest : String) : Work ImportSummary := do
  let deleted ← deletionWork (Sync.Manifest.ofText manifest).1
  Table.all.foldlM (tableWork t dir) { deleted, skipped := (Sync.Manifest.ofText manifest).2 }

/-- A directory is imported. The manifest is read before anything is written. -/
def importWork : Work ImportSummary := do
  if t.isDirectory [] dir then
    let manifest ← look fun _ => Sync.manifestText t dir
    transaction (directoryWork t dir manifest)
  else throw (.invalidArgument (.notDirectory dir))

/-- A store is exported. Its only write takes keys out of the queue after all files are written. -/
def exportWork (force : Bool) : Work ExportSummary := do
  match t.makeDirectories [] dir with
  | .error f => throw (.io f)
  | .ok t =>
    let snapshot := Sync.Snapshot.of (← get)
    let done ← look fun _ => (snapshot.write dir force t).2
    modify snapshot.clear
    return done

theorem outcome_deletionWork (keys : List Sync.Deletion) (s : Store) :
    outcome (deletionWork keys) s = .ok (Sync.applyDeletions s keys).swap := by
  rw [deletionWork, Sync.applyDeletions]
  generalize 0 = n
  induction keys generalizing s n with
  | nil => rfl
  | cons key rest ih =>
    rw [List.foldlM_cons, outcome_bind, outcome_write, List.foldl_cons]
    exact ih (key.apply s).1 (n + (key.apply s).2)

theorem outcome_applyLines (table : Table) (done : ImportSummary) (lines : List (Nat × String))
    (s : Store) :
    outcome (each (fun s done lines => .ok (Sync.applyLines table lines s done)) done lines) s =
      .ok (Sync.applyLines table lines s done).swap := by
  rw [outcome_each]
  · rfl
  · intro s done
    rfl
  · intro s done l rest
    obtain ⟨n, line⟩ := l
    simp only [Sync.applyLines, ok_bind]
    cases table.apply s line <;> rfl

/-- The tables of a directory, as they are read one after the other. -/
def readOn (s : Store) (done : ImportSummary) (tables : List Table) :
    Except Error (Store × ImportSummary) :=
  Sync.readTables t dir tables s done

theorem readOn_cons (s : Store) (done : ImportSummary) (table : Table) (rest : List Table) :
    readOn t dir s done (table :: rest) =
      readOn t dir s done [table] >>= fun out => readOn t dir out.1 out.2 rest := by
  simp only [readOn, Sync.readTables_cons]
  cases Sync.tableLines t dir table with
  | error e => rfl
  | ok found => cases found <;> rfl

theorem outcome_tableWork (s : Store) (done : ImportSummary) (table : Table) :
    outcome (tableWork t dir done table) s = (readOn t dir s done [table]).map Prod.swap := by
  rw [tableWork, outcome_bind, outcome_look, readOn, Sync.readTables_cons]
  cases Sync.tableLines t dir table with
  | error e => rfl
  | ok found =>
    cases found with
    | none => rfl
    | some lines =>
      simp only [Except.map, ok_bind, outcome_bind, outcome_applyLines, outcome_pure]
      rfl

theorem outcome_importWork (s : Store) :
    outcome (importWork t dir) s = Sync.importFrom s t dir := by
  rw [importWork, Sync.importFrom_eq]
  split
  · rw [outcome_bind, outcome_look]
    cases Sync.manifestText t dir with
    | error e => rfl
    | ok text =>
      have htables := outcome_foldlM (outcome_tableWork t dir) (fun _ _ => rfl) (readOn_cons t dir)
      simp only [Except.map, ok_bind, outcome_transaction, directoryWork, outcome_bind,
        outcome_deletionWork, htables]
      rfl
  · rfl

theorem restores_importWork : Restores (importWork t dir) := by
  rw [importWork]
  split
  · exact restores_look fun _ => restores_transaction _
  · exact restores_throw _

theorem outcome_exportWork (force : Bool) (s : Store) :
    outcome (exportWork t dir force) s = (Sync.exportTo s t dir force).2 := by
  rw [exportWork, Sync.exportTo]
  cases t.makeDirectories [] dir with
  | error f => rfl
  | ok t =>
    simp only [outcome_bind, outcome_get, outcome_look, outcome_modify, outcome_pure, ok_bind]
    cases (Sync.Snapshot.of s).write dir force t with
    | mk t r => cases r <;> rfl

theorem restores_exportWork (force : Bool) : Restores (exportWork t dir force) := by
  rw [exportWork]
  split
  · exact restores_throw _
  · exact restores_get fun _ => restores_look fun _ => (restores_modify _).map _

end Imports

/-! All operations -/

namespace Operation

/-- A repository and a run for it are stored in one transaction. -/
def repositoryWork (d : Descriptor) (id : Id) (now : Int) (run : Store.Run) :
    Work Store.RunCounts := do
  let row ← write fun s => s.upsertRepositoryAs id d
  runWork row.id now run

/-- An operation write by write. -/
def perform : Operation → Work Unit
  | storeRun repositoryId now run => do
    let _ ← transaction (runWork repositoryId now run)
  | storeRepository d id now run => do
    let _ ← transaction (repositoryWork d id now run)
  | index t config d listed now =>
    match t.resolve [] d.root, t.isDirectory [] d.root with
    | .ok root, true => do
      let paths := listed.getD ((Files.walk t config root).map Files.Source.relative)
      let sources := (Indexing.readSources t root paths now).filterMap Except.toOption
      let _ ← transaction do
        let id ← write fun s => .ok (Indexing.repositoryId s d.fullName)
        let run := Pipeline.run sources (Indexing.aliasesOf t root) id.text config.cycleDepth
        repositoryWork d id now ⟨run.files, run.symbols, run.references, run.build.edges⟩
    | _, _ => throw (.invalidArgument (.notDirectory d.root))
  | importFrom t dir => do
    let _ ← importWork t dir
  | exportTo t dir force => do
    let _ ← exportWork t dir force
  | upsertRepository d => do
    let _ ← write fun s => s.upsertRepository d
  | deleteRepository fullName => transaction do
    if ((← get).repository? fullName).isSome then
      modify fun s => s.removeRepository fullName
      modify fun s => s.enqueue (.repository fullName)
  | createProject name description now => do
    let _ ← write fun s => s.createProject name description now
  | addToProject project fullName => do
    let (p, r) ← look fun s => s.membershipEnds project fullName
    modify fun s => s.addMembership p.id r.id
  | removeFromProject project fullName => do
    let (p, r) ← look fun s => s.membershipEnds project fullName
    transaction do
      if (← get).memberships.contains ⟨p.id, r.id⟩ then
        modify fun s =>
          let kept := s.memberships.filter fun m => m != (⟨p.id, r.id⟩ : MembershipRow)
          { s with memberships := kept }
        modify fun s => s.enqueue (.membership project fullName)
  | deleteProject name => transaction do
    if ((← get).project? name).isSome then
      modify fun s => s.removeProject name
      modify fun s => s.enqueue (.project name)

theorem outcome_repositoryWork (d : Descriptor) (id : Id) (now : Int) (run : Store.Run)
    (s : Store) : outcome (repositoryWork d id now run) s =
      (s.storeRepository d id now run).map fun out => (out.2.1, out.2.2) := by
  simp only [repositoryWork, outcome_bind, outcome_write, outcome_runWork, Store.storeRepository]
  cases s.upsertRepositoryAs id d with
  | error e => rfl
  | ok out =>
    simp only [ok_bind]
    cases out.2.storeRun out.1.id now run <;> rfl

/-- Write by write an operation comes to the same end as in one piece. -/
theorem outcome_perform (op : Operation) (s : Store) :
    outcome op.perform s = (op.run s).map fun s' => ((), s') := by
  cases op with
  | storeRun repositoryId now run =>
    simp only [perform, outcome_bind, outcome_transaction, outcome_runWork, outcome_pure,
      Operation.run]
    cases s.storeRun repositoryId now run <;> rfl
  | storeRepository d id now run =>
    simp only [perform, outcome_bind, outcome_transaction, outcome_repositoryWork, outcome_pure,
      Operation.run]
    cases s.storeRepository d id now run <;> rfl
  | index t config d listed now =>
    rw [perform, Operation.run, Store.index]
    cases t.resolve [] d.root with
    | error f => rfl
    | ok root =>
      cases t.isDirectory [] d.root with
      | false => rfl
      | true =>
        simp only [outcome_bind, outcome_transaction, outcome_write, outcome_repositoryWork,
          outcome_pure, ok_bind]
        generalize Store.storeRepository _ _ _ _ _ = stored
        cases stored <;> rfl
  | importFrom t dir =>
    simp only [perform, outcome_bind, outcome_importWork, outcome_pure, Operation.run]
    cases Sync.importFrom s t dir <;> rfl
  | exportTo t dir force =>
    simp only [perform, outcome_bind, outcome_exportWork, outcome_pure, Operation.run]
    cases (Sync.exportTo s t dir force).2 <;> rfl
  | upsertRepository d =>
    simp only [perform, outcome_bind, outcome_write, outcome_pure, Operation.run]
    cases s.upsertRepository d <;> rfl
  | deleteRepository fullName =>
    simp only [perform, outcome_transaction, outcome_bind, outcome_get, ok_bind, Operation.run,
      Store.deleteRepository]
    cases s.repository? fullName <;> rfl
  | createProject name description now =>
    simp only [perform, outcome_bind, outcome_write, outcome_pure, Operation.run]
    cases s.createProject name description now <;> rfl
  | addToProject project fullName =>
    simp only [perform, outcome_bind, outcome_look, outcome_modify, Operation.run,
      Store.addToProject]
    cases s.membershipEnds project fullName <;> rfl
  | removeFromProject project fullName =>
    simp only [perform, outcome_bind, outcome_look, Operation.run,
      Store.removeFromProject]
    cases s.membershipEnds project fullName with
    | error e => rfl
    | ok ends =>
      obtain ⟨p, r⟩ := ends
      simp only [Except.map, ok_bind, outcome_transaction, outcome_bind, outcome_get]
      split <;> rfl
  | deleteProject name =>
    simp only [perform, outcome_transaction, outcome_bind, outcome_get, ok_bind, Operation.run,
      Store.deleteProject]
    cases s.project? name <;> rfl

/-- An operation of several writes is a transaction, and all others check before their one write. -/
theorem restores_perform (op : Operation) : Restores op.perform := by
  cases op with
  | storeRun repositoryId now run => exact (restores_transaction _).map _
  | storeRepository d id now run => exact (restores_transaction _).map _
  | index t config d listed now =>
    rw [perform]
    split
    · exact (restores_transaction _).map _
    · exact restores_throw _
  | importFrom t dir => exact (restores_importWork t dir).map _
  | exportTo t dir force => exact (restores_exportWork t dir force).map _
  | upsertRepository d => exact (restores_write _).map _
  | deleteRepository fullName => exact restores_transaction _
  | createProject name description now => exact (restores_write _).map _
  | addToProject project fullName => exact restores_look fun _ => restores_modify _
  | removeFromProject project fullName => exact restores_look fun _ => restores_transaction _
  | deleteProject name => exact restores_transaction _

theorem perform_eq (op : Operation) (s : Store) :
    op.perform s = match op.run s with
      | .ok s' => .ok () s'
      | .error e => .error e s := by
  have houtcome := outcome_perform op s
  rw [outcome] at houtcome
  cases hperform : op.perform s with
  | ok a left =>
    rw [hperform] at houtcome
    obtain ⟨s', hrun, heq⟩ := Store.map_eq_ok.mp houtcome.symm
    obtain ⟨-, rfl⟩ := Prod.mk.inj heq
    rw [hrun]
  | error e left =>
    obtain rfl := restores_perform op s e left hperform
    rw [hperform] at houtcome
    cases hrun : op.run left with
    | ok s' => simp [hrun, Except.map] at houtcome
    | error e' =>
      rw [hrun] at houtcome
      rw [Except.error.inj houtcome]

/-- An operation that fails changes nothing: after it every table and the queue of deletions are
what they were before, although it may have failed after some of its writes. It fails as it does in
one piece, and when it does not fail it leaves the same store. -/
theorem failed_perform (s : Store) (op : Operation) :
    (∀ e s', op.perform s = .error e s' → s' = s ∧ op.run s = .error e) ∧
      ∀ s', op.perform s = .ok () s' ↔ op.run s = .ok s' := by
  rw [perform_eq]
  cases op.run s with
  | ok left => simp
  | error e => simp [eq_comm]

/-- A store with one file and its symbol. -/
def smallStore : Store where
  origin := 0
  nextSerial := 2
  repositories := [⟨.given "1", "r", "r", none, "main", some 0⟩]
  files := [⟨.made 0 0, .given "1", "a.ts", "f()", .typescript, 3, "", 0⟩]
  symbols := [⟨.made 0 1, .made 0 0, .given "1", "f", .function, 1, 1, none, none, true⟩]

theorem reachable_smallStore : Reachable smallStore :=
  .step (.storeRepository (.ofFullName "r" "") (.given "1") 0
    ⟨[⟨"a.ts", "f()", .typescript, 3, "", 0⟩],
      [⟨"a.ts", "f", .function, 1, 1, none, none, true⟩], [], []⟩) (.empty 0)
    (by intro n hn; cases hn) rfl

/-- A run of which one edge names a file that the run has not. -/
def brokenRun : Store.Run where
  files := [⟨"b.ts", "g()", .typescript, 3, "", 0⟩]
  symbols := [⟨"b.ts", "g", .function, 1, 1, none, none, true⟩]
  references := []
  edges := [.fileImport "" "b.ts" "b.ts", .fileImport "" "b.ts" "c.ts"]

/-- A directory of which one table can be read and the next one cannot. -/
def brokenTree : Files.Tree where
  base := "/w"
  entries :=
    [(["projects.jsonl"], .file (.text (Sync.Manifest.linesText
        [Sync.projectCodec.encode ⟨"p", none, 1⟩]))),
      (["project_repositories.jsonl"], .file (.bytes [255]))]

theorem perform_storeRun_error {s left : Store} {e : Error} {id : Id} {now : Int}
    {run : Store.Run} (h : runWork id now run s = .error e left) :
    (Operation.storeRun id now run).perform s = .error e s := by
  simp only [perform, bind, EStateM.bind, transaction, h]

theorem perform_importFrom_error {s left : Store} {e : Error} {t : Files.Tree}
    {dir manifest : String} (hdir : t.isDirectory [] dir = true)
    (htext : Sync.manifestText t dir = .ok manifest)
    (h : directoryWork t dir manifest s = .error e left) :
    (Operation.importFrom t dir).perform s = .error e s := by
  simp only [perform, importWork, hdir, htext, if_true, look, write, bind, EStateM.bind,
    Except.map, transaction, h]

theorem failed_perform_midway :
    (∃ e left, Reachable smallStore ∧ runWork (.given "1") 1 brokenRun smallStore = .error e left ∧
      left.files ≠ smallStore.files ∧ left.symbols ≠ smallStore.symbols ∧
      left.pending ≠ smallStore.pending ∧
      (Operation.storeRun (.given "1") 1 brokenRun).perform smallStore = .error e smallStore ∧
      (Operation.storeRun (.given "1") 1 brokenRun).run smallStore = .error e) ∧
    ∃ e left, directoryWork brokenTree "/w" "" (.empty 0) = .error e left ∧ left.projects ≠ [] ∧
      (Operation.importFrom brokenTree "/w").perform (.empty 0) = .error e (.empty 0) ∧
      (Operation.importFrom brokenTree "/w").run (.empty 0) = .error e := by
  constructor
  · have hleft : (match runWork (.given "1") 1 brokenRun smallStore with
        | .ok _ _ => false
        | .error _ left => decide (left.files ≠ smallStore.files ∧
            left.symbols ≠ smallStore.symbols ∧ left.pending ≠ smallStore.pending)) = true := by
      decide +kernel
    revert hleft
    generalize hwork : runWork (.given "1") 1 brokenRun smallStore = result
    intro hleft
    cases result with
    | ok a left => exact absurd hleft Bool.false_ne_true
    | error e left =>
      obtain ⟨hfiles, hsymbols, hpending⟩ := of_decide_eq_true hleft
      have hfail := perform_storeRun_error hwork
      exact ⟨e, left, reachable_smallStore, rfl, hfiles, hsymbols, hpending, hfail,
        ((failed_perform smallStore _).1 e _ hfail).2⟩
  · have hdir : brokenTree.isDirectory [] "/w" = true := by decide +kernel
    have hmissing : brokenTree.pathExists [] ("/w" ++ "/" ++ Sync.Manifest.fileName) = false := by
      decide +kernel
    have htext : Sync.manifestText brokenTree "/w" = .ok "" := by
      rw [Sync.manifestText, hmissing]
      rfl
    have hleft : (match directoryWork brokenTree "/w" "" (.empty 0) with
        | .ok _ _ => false
        | .error _ left => decide (left.projects ≠ [])) = true := by
      decide +kernel
    revert hleft
    generalize hwork : directoryWork brokenTree "/w" "" (.empty 0) = result
    intro hleft
    cases result with
    | ok a left => exact absurd hleft Bool.false_ne_true
    | error e left =>
      have hfail := perform_importFrom_error hdir htext hwork
      exact ⟨e, left, rfl, of_decide_eq_true hleft, hfail, ((failed_perform _ _).1 e _ hfail).2⟩

end Operation

end CodeIndex
