import CodeIndex.Proofs.Sync.Keys

/-!
Why a record is passed over. A record may be flawed by itself; otherwise the store must hold the
rows that it names, a target of a reference apart, and the first one that is missing is the reason.
Only the content of a store decides, and nothing else can stop a record.
-/
namespace CodeIndex.Sync

open Store (bind_eq_ok)

namespace Record

/-- What is wrong with a record by itself. -/
def flaw? : Record → Option Rejection
  | file f =>
    if Digest.Sha256.hex f.content = f.contentHash then none else some (.hashMismatch f.path)
  | edge e => if e.edge.isWellFormed then none else some .openEdge
  | _ => none

def needsFile (repository path : String) : Deletion × Rejection :=
  (.file repository path, .noFile path)

def needsSymbol (repository : String) (k : SymbolKey) : Deletion × Rejection :=
  (symbolParent repository k, .noSymbol k)

/-- What a store must hold to take a record, in the order in which it is looked for. -/
def needs : Record → List (Deletion × Rejection)
  | repository _ | project _ => []
  | file f => [(.repository f.repository, .noRepository f.repository)]
  | symbol x => [needsFile x.repository x.filePath]
  | reference x => [needsFile x.repository x.filePath]
  | edge e =>
    (.repository e.repository, .noRepository e.repository) ::
      ((e.fromFile.toList ++ e.toFile.toList).map (needsFile e.repository) ++
        (e.fromSymbol.toList ++ e.toSymbol.toList).map (needsSymbol e.repository))
  | membership m =>
    [(.project m.project, .noProject m.project),
      (.repository m.repository, .noRepository m.repository)]

end Record

/-- The reason for the first need that is not met. -/
def Content.missing? (c : Content) (needs : List (Deletion × Rejection)) : Option Rejection :=
  (needs.find? fun n => (c n.1).isNone).map Prod.snd

/-- Why a record is passed over, if it is. -/
def Content.refusal? (c : Content) (r : Record) : Option Rejection :=
  r.flaw?.or (c.missing? r.needs)

namespace Content

variable (c : Content)

theorem missing?_cons (n : Deletion × Rejection) (rest : List (Deletion × Rejection)) :
    c.missing? (n :: rest) = if (c n.1).isNone then some n.2 else c.missing? rest := by
  simp only [missing?, List.find?_cons]
  cases (c n.1).isNone <;> rfl

theorem missing?_append (a b : List (Deletion × Rejection)) :
    c.missing? (a ++ b) = (c.missing? a).or (c.missing? b) := by
  simp only [missing?, List.find?_append]
  cases a.find? fun n => (c n.1).isNone <;> rfl

/-- Only whether the needs are held counts. -/
theorem missing?_congr {c c' : Content} {needs : List (Deletion × Rejection)}
    (h : ∀ n ∈ needs, (c n.1).isSome = (c' n.1).isSome) : c.missing? needs = c'.missing? needs := by
  induction needs with
  | nil => rfl
  | cons n rest ih =>
    have hn := h n List.mem_cons_self
    rw [missing?_cons, missing?_cons, ih fun m hm => h m (List.mem_cons_of_mem _ hm),
      ← Option.not_isSome, ← Option.not_isSome, hn]

end Content

variable {s : Store}

/-! Steps that fail for a known reason -/

/-- A step fails with the given reason, and is done when there is none. -/
def FailsFor {ε α : Type} (x : Except ε α) (reason : Option ε) : Prop :=
  ∀ e, x = .error e ↔ reason = some e

namespace FailsFor

variable {ε α β : Type}

theorem ok (a : α) : FailsFor (.ok a : Except ε α) none := by simp [FailsFor]

theorem error (e : ε) : FailsFor (.error e : Except ε α) (some e) := by simp [FailsFor]

theorem map {x : Except ε α} {reason : Option ε} (h : FailsFor x reason) (f : α → β) :
    FailsFor (x.map f) reason := by
  cases x <;> simpa [FailsFor, Except.map] using h

/-- Of two steps the first reason counts. -/
theorem bind {x : Except ε α} {f : α → Except ε β} {first second : Option ε}
    (hx : FailsFor x first) (hf : ∀ a, FailsFor (f a) second) :
    FailsFor (x >>= f) (first.or second) := by
  cases x with
  | error e =>
    rw [(hx e).mp rfl, Option.some_or]
    exact error e
  | ok a =>
    have hnone : first = none := Option.eq_none_iff_forall_ne_some.mpr fun e he => by
      simpa using (hx e).mpr he
    rw [hnone, Option.none_or]
    exact hf a

/-- What is always done gives no reason. -/
theorem bind_ok {x : Except ε α} {f : α → Except ε β} {reason : Option ε} (hx : FailsFor x reason)
    (hf : ∀ a, ∃ b, f a = .ok b) : FailsFor (x >>= f) reason := by
  rw [← Option.or_none (o := reason)]
  refine hx.bind fun a => ?_
  obtain ⟨b, hb⟩ := hf a
  exact hb ▸ ok b

/-- A step is done exactly when there is no reason against it. -/
theorem exists_ok_iff {x : Except ε α} {reason : Option ε} (h : FailsFor x reason) :
    (∃ a, x = .ok a) ↔ reason = none := by
  rw [Option.eq_none_iff_forall_ne_some]
  cases x with
  | error e => simpa using ⟨e, (h e).mp rfl⟩
  | ok a => simpa using fun e he => by simpa using (h e).mpr he

end FailsFor

/-! The needs of the parts of a record -/

theorem requireRepository_failsFor (s : Store) (name : String) :
    FailsFor (requireRepository s name)
      ((content s).missing? [(.repository name, .noRepository name)]) := by
  rw [Content.missing?_cons, ← Option.not_isSome, isSome_content_repository]
  unfold requireRepository
  cases s.repository? name with
  | none => exact .error _
  | some r => exact .ok r

section Parts

variable (h : s.Sound) (repository : String)
include h

theorem requireFile_failsFor (path : String) :
    FailsFor (requireFile s repository path)
      ((content s).missing? [Record.needsFile repository path]) := by
  rw [Content.missing?_cons, Record.needsFile, ← Option.not_isSome, isSome_content_file h]
  unfold requireFile
  cases file? s repository path with
  | none => exact .error _
  | some f => exact .ok f

theorem requireFile?_failsFor (path : Option String) :
    FailsFor (requireFile? s repository path)
      ((content s).missing? (path.toList.map (Record.needsFile repository))) := by
  cases path with
  | none => exact .ok none
  | some p => exact (requireFile_failsFor h repository p).map _

theorem requireSymbol?_failsFor (key : Option SymbolKey) :
    FailsFor (requireSymbol? s repository key)
      ((content s).missing? (key.toList.map (Record.needsSymbol repository))) := by
  rcases key with _ | ⟨path, name, line⟩
  · exact .ok none
  · rw [Option.toList_some, List.map_singleton, Content.missing?_cons, Record.needsSymbol,
      Record.symbolParent, ← Option.not_isSome, isSome_content_symbol h, requireSymbol?]
    cases symbol? s repository ⟨path, name, line⟩ with
    | none => exact .error _
    | some x => exact .ok _

end Parts

/-! Records -/

theorem upsertRepository_ok (s : Store) (r : RepositoryRecord) :
    ∃ s', upsertRepository s r = .ok s' := by
  unfold upsertRepository
  split
  · exact ⟨_, rfl⟩
  · exact ⟨_, rfl⟩

theorem upsertProject_ok (s : Store) (p : ProjectRecord) : ∃ s', upsertProject s p = .ok s' := by
  unfold upsertProject
  split
  · exact ⟨_, rfl⟩
  · exact ⟨_, rfl⟩

theorem upsertFile_failsFor (s : Store) (f : FileRecord) :
    FailsFor (upsertFile s f) ((content s).refusal? (.file f)) := by
  unfold upsertFile Content.refusal? Record.flaw? Record.needs
  by_cases hhash : Digest.Sha256.hex f.content = f.contentHash
  · simp only [hhash, bne_self_eq_false, Bool.false_eq_true, if_false, if_true, Option.none_or]
    refine (requireRepository_failsFor s f.repository).bind_ok fun r => ?_
    split
    · exact ⟨_, rfl⟩
    · exact ⟨_, rfl⟩
  · simp only [hhash, bne_iff_ne, ne_eq, not_false_eq_true, if_true, if_false, Option.some_or]
    exact .error _

section Named

variable (h : s.Sound)
include h

theorem upsertSymbol_failsFor (x : SymbolRecord) :
    FailsFor (upsertSymbol s x) ((content s).refusal? (.symbol x)) := by
  refine (requireFile_failsFor h x.repository x.filePath).bind_ok fun f => ?_
  split
  · exact ⟨_, rfl⟩
  · exact ⟨_, rfl⟩

theorem upsertReference_failsFor (x : ReferenceRecord) :
    FailsFor (upsertReference s x) ((content s).refusal? (.reference x)) := by
  refine (requireFile_failsFor h x.repository x.filePath).bind_ok fun f => ?_
  dsimp only
  split
  · exact ⟨_, rfl⟩
  · exact ⟨_, rfl⟩

theorem upsertEdge_failsFor (e : EdgeRecord) :
    FailsFor (upsertEdge s e) ((content s).refusal? (.edge e)) := by
  unfold upsertEdge Content.refusal? Record.flaw? Record.needs
  by_cases hformed : e.edge.isWellFormed = true
  · simp only [hformed, Bool.not_true, Bool.false_eq_true, if_true, if_false, Option.none_or]
    rw [← List.singleton_append]
    simp only [List.map_append, Content.missing?_append, Option.or_assoc]
    refine (requireRepository_failsFor s e.repository).bind fun r => ?_
    refine (requireFile?_failsFor h e.repository e.fromFile).bind fun fromFile => ?_
    refine (requireFile?_failsFor h e.repository e.toFile).bind fun toFile => ?_
    refine (requireSymbol?_failsFor h e.repository e.fromSymbol).bind fun fromSymbol => ?_
    refine (requireSymbol?_failsFor h e.repository e.toSymbol).bind_ok fun toSymbol => ?_
    split
    · exact ⟨_, rfl⟩
    · exact ⟨_, rfl⟩
  · simp only [hformed, Bool.not_false, Bool.false_eq_true, if_true, if_false, Option.some_or]
    exact .error _

omit h in
theorem upsertMembership_failsFor (s : Store) (m : MembershipRecord) :
    FailsFor (upsertMembership s m) ((content s).refusal? (.membership m)) := by
  unfold upsertMembership Content.refusal? Record.flaw? Record.needs
  rw [Option.none_or, Content.missing?_cons, ← Option.not_isSome, isSome_content_project]
  cases s.project? m.project with
  | none => exact .error _
  | some p => exact (requireRepository_failsFor s m.repository).map _

/-- A record is passed over for its own flaw or for the first row that it needs and the store does
not hold, and else it is taken. -/
theorem put_failsFor (r : Record) : FailsFor (r.put s) ((content s).refusal? r) := by
  cases r with
  | repository r =>
    obtain ⟨s', hok⟩ := upsertRepository_ok s r
    rw [Record.put, hok]
    exact .ok s'
  | project p =>
    obtain ⟨s', hok⟩ := upsertProject_ok s p
    rw [Record.put, hok]
    exact .ok s'
  | file f => exact upsertFile_failsFor s f
  | symbol x => exact upsertSymbol_failsFor h x
  | reference x => exact upsertReference_failsFor h x
  | edge e => exact upsertEdge_failsFor h e
  | membership m => exact upsertMembership_failsFor s m

end Named

theorem Record.flaw?_eq_none {r : Record} : r.flaw? = none ↔ r.Intact := by
  cases r <;> simp [Record.flaw?, Record.Intact]

/-- What is taken is intact, and its needs are held. -/
theorem Content.refusal?_eq_none {c : Content} {r : Record} :
    c.refusal? r = none ↔ r.Intact ∧ ∀ n ∈ r.needs, (c n.1).isSome = true := by
  rw [Content.refusal?, Option.or_eq_none_iff, Record.flaw?_eq_none]
  simp [Content.missing?, Option.isSome_iff_ne_none]

theorem Record.needs_subset_parents (r : Record) : r.needs.map Prod.fst ⊆ r.parents := by
  cases r <;> simp [Record.needs, Record.parents, needsFile, needsSymbol, Function.comp_def]

theorem Record.ne_edge_of_mem_parents {r : Record} {k : Deletion} (hk : k ∈ r.parents)
    (repo key : String) : k ≠ .edge repo key := by
  rintro rfl
  cases r <;> simp [Record.parents, Record.symbolParent] at hk

/-- An intact record whose parents are live can be put. -/
theorem put_ok (h : s.Sound) {r : Record} (hintact : r.Intact)
    (hlive : ∀ k ∈ r.parents, Live s k) : ∃ s', r.put s = .ok s' := by
  rw [(put_failsFor h r).exists_ok_iff, Content.refusal?_eq_none]
  refine ⟨hintact, fun n hn => ?_⟩
  have hparent := r.needs_subset_parents (List.mem_map_of_mem hn)
  rw [Option.isSome_iff_exists, ← live_iff_content h (r.ne_edge_of_mem_parents hparent)]
  exact hlive n.1 hparent

end CodeIndex.Sync
