import CodeIndex.Proofs.Json.Accepted
import CodeIndex.Proofs.Sync.Deletions
import CodeIndex.Proofs.Sync.Directory

/-!
The ranges of the numbers that a store holds. A line that is read gives a record in these ranges, a
record in them keeps the store in them, and the records of such a store can all be written.
-/
namespace CodeIndex.Sync

open Json (Value Schema Accepted)

variable {s s' : Store}

/-- The numbers of a record lie in their ranges. -/
def Record.Fits : Record → Prop
  | repository r => ∀ t ∈ r.lastIndexedAt, FitsI64 t
  | file f => f.size < 2 ^ 64 ∧ FitsI64 f.indexedAt
  | symbol x => x.lineStart < 2 ^ 32 ∧ x.lineEnd < 2 ^ 32
  | reference x =>
    x.line < 2 ^ 32 ∧ x.column < 2 ^ 32 ∧ ∀ e ∈ x.metadata.enclosing, e.line < 2 ^ 32
  | project p => FitsI64 p.createdAt
  | edge _ | membership _ => True

/-- The numbers of all rows and of all waiting keys lie in their ranges. -/
structure InRange (s : Store) : Prop where
  repositories : ∀ r ∈ s.repositories, ∀ t ∈ r.lastIndexedAt, FitsI64 t
  files : ∀ f ∈ s.files, f.size < 2 ^ 64 ∧ FitsI64 f.indexedAt
  symbols : ∀ x ∈ s.symbols, x.lineStart < 2 ^ 32 ∧ x.lineEnd < 2 ^ 32
  references : ∀ x ∈ s.references,
    x.line < 2 ^ 32 ∧ x.column < 2 ^ 32 ∧ ∀ e ∈ x.metadata.enclosing, e.line < 2 ^ 32
  projects : ∀ p ∈ s.projects, FitsI64 p.createdAt
  pending : ∀ p ∈ s.pending, p.key.Fits

theorem inRange_empty (origin : Nat) : InRange (.empty origin) := by
  constructor <;> simp [Store.empty]

/-! Records that are read -/

section Members

variable {title name : String} {fields : List (String × Json.Absence × Schema)} {v : Value}
  {α : Type} {f : Value → Option α} {a : α}

/-- A member that must be written was read as its field. -/
theorem accepted_of_member (schema : Schema) (h : Accepted (.record title fields) v)
    (hmember : member v name f = some a)
    (hfield : ∀ absence x, (name, absence, x) ∈ fields → absence = .fault ∧ x = schema) :
    ∃ w, Accepted schema w ∧ f w = some a := by
  obtain ⟨w, hget, hw⟩ := Option.bind_eq_some_iff.mp hmember
  obtain ⟨absence, x, hmem, hread⟩ := h.get? hget
  obtain ⟨rfl, rfl⟩ := hfield absence x hmem
  rcases hread with hread | hdefault | hnull
  · exact ⟨w, hread, hw⟩
  · simp at hdefault
  · simp at hnull

/-- A member that may be null was read as its field where it is not. -/
theorem accepted_of_memberOr (schema : Schema) {o : Option α}
    (h : Accepted (.record title fields) v)
    (hmember : memberOr v name f = some o) (ha : a ∈ o)
    (hfield : ∀ absence x, (name, absence, x) ∈ fields →
      absence = .default .null ∧ x = .optional schema) :
    ∃ w, Accepted schema w ∧ f w = some a := by
  obtain ⟨w, hget, hw⟩ := Option.bind_eq_some_iff.mp hmember
  obtain ⟨absence, x, hmem, hread⟩ := h.get? hget
  obtain ⟨rfl, rfl⟩ := hfield absence x hmem
  have hvalue : w ≠ .null ∧ f w = some a := by
    unfold Value.optional at hw
    split at hw
    · cases hw
      simp at ha
    · next hne =>
      obtain ⟨b, hb, rfl⟩ := Option.map_eq_some_iff.mp hw
      cases ha
      exact ⟨hne, hb⟩
  refine ⟨w, ?_, hvalue.2⟩
  rcases hread with hread | hdefault | hnull
  · exact hread.optional.resolve_left hvalue.1
  · exact absurd (Json.Absence.default.inj hdefault).symm hvalue.1
  · exact absurd hnull.2 hvalue.1

end Members

theorem nat_of_accepted {high : Int} {name : String} {v : Value} {n : Nat}
    (h : Accepted (.whole 0 high name) v) (hn : v.nat? = some n) : (n : Int) ≤ high := by
  obtain ⟨i, rfl, hlow, hhigh⟩ := h.whole
  simp only [Value.nat?, hlow, if_true, Option.some.injEq] at hn
  omega

theorem u32_of_accepted {v : Value} {n : Nat} (h : Accepted .u32 v) (hn : v.nat? = some n) :
    n < 2 ^ 32 := by
  have hle := nat_of_accepted h hn
  omega

theorem i64_of_accepted {v : Value} {i : Int} (h : Accepted .i64 v) (hi : v.int? = some i) :
    FitsI64 i := by
  obtain ⟨j, rfl, hlow, hhigh⟩ := h.whole
  cases hi
  exact ⟨hlow, by omega⟩

theorem Codec.decode_eq_ok {α : Type} {c : Codec α} {line : String} {a : α}
    (h : c.decode line = .ok a) : ∃ v, Accepted c.schema v ∧ c.ofValue v = some a := by
  unfold Codec.decode at h
  split at h
  · simp at h
  · next v hv =>
    split at h
    · next b hb =>
      cases h
      exact ⟨v, Json.accepted_of_decode hv, hb⟩
    · simp at h

theorem repository_fits {line : String} {r : RepositoryRecord}
    (h : repositoryCodec.decode line = .ok r) : (Record.repository r).Fits := by
  obtain ⟨v, hv, hread⟩ := Codec.decode_eq_ok h
  simp only [repositoryCodec, Option.bind_eq_bind, Option.bind_eq_some_iff, Option.pure_def,
    Option.some.injEq] at hread
  obtain ⟨fullName, -, name, -, url, -, branch, -, time, htime, rfl⟩ := hread
  intro t ht
  obtain ⟨w, hw, hint⟩ := accepted_of_memberOr .i64 hv htime ht (by simp [required, orNull])
  exact i64_of_accepted hw hint

theorem file_fits {line : String} {f : FileRecord} (h : fileCodec.decode line = .ok f) :
    (Record.file f).Fits := by
  obtain ⟨v, hv, hread⟩ := Codec.decode_eq_ok h
  simp only [fileCodec, Option.bind_eq_bind, Option.bind_eq_some_iff, Option.pure_def,
    Option.some.injEq] at hread
  obtain ⟨repository, -, path, -, language, -, size, hsize, hash, -, time, htime, content, -,
    rfl⟩ := hread
  obtain ⟨w, hw, hnat⟩ := accepted_of_member .u64 hv hsize (by simp [required])
  obtain ⟨w', hw', hint⟩ := accepted_of_member .i64 hv htime (by simp [required])
  have hle := nat_of_accepted hw hnat
  exact ⟨by dsimp only; omega, i64_of_accepted hw' hint⟩

theorem symbol_fits {line : String} {x : SymbolRecord} (h : symbolCodec.decode line = .ok x) :
    (Record.symbol x).Fits := by
  obtain ⟨v, hv, hread⟩ := Codec.decode_eq_ok h
  simp only [symbolCodec, Option.bind_eq_bind, Option.bind_eq_some_iff, Option.pure_def,
    Option.some.injEq] at hread
  obtain ⟨repository, -, path, -, name, -, kind, -, first, hfirst, last, hlast, signature, -,
    documentation, -, exported, -, rfl⟩ := hread
  obtain ⟨w, hw, hnat⟩ := accepted_of_member .u32 hv hfirst (by simp [required, orNull, orFalse])
  obtain ⟨w', hw', hnat'⟩ := accepted_of_member .u32 hv hlast (by simp [required, orNull, orFalse])
  exact ⟨u32_of_accepted hw hnat, u32_of_accepted hw' hnat'⟩

theorem project_fits {line : String} {p : ProjectRecord} (h : projectCodec.decode line = .ok p) :
    (Record.project p).Fits := by
  obtain ⟨v, hv, hread⟩ := Codec.decode_eq_ok h
  simp only [projectCodec, Option.bind_eq_bind, Option.bind_eq_some_iff, Option.pure_def,
    Option.some.injEq] at hread
  obtain ⟨name, -, description, -, time, htime, rfl⟩ := hread
  obtain ⟨w, hw, hint⟩ := accepted_of_member .i64 hv htime (by simp [required, orNull])
  exact i64_of_accepted hw hint

/-- The line around a reference is read as a number of 32 bits. -/
theorem enclosing_fits {v : Value} {m : Metadata} (h : Accepted metadataSchema v)
    (hread : metadataOf v = some m) : ∀ e ∈ m.enclosing, e.line < 2 ^ 32 := by
  intro e he
  simp only [metadataOf, Option.bind_eq_bind, Option.bind_eq_some_iff, Option.pure_def,
    Option.some.injEq] at hread
  obtain ⟨source, -, style, -, other, -, method, -, receiver, -, chain, -, new, -, dynamic, -,
    enclosing, henclosing, rfl⟩ := hread
  obtain ⟨w, hw, hof⟩ := accepted_of_memberOr enclosingSchema h henclosing he
    (by simp [orNull, orFalse])
  simp only [enclosingOf, Option.bind_eq_bind, Option.bind_eq_some_iff, Option.pure_def,
    Option.some.injEq] at hof
  obtain ⟨name, -, line, hline, rfl⟩ := hof
  obtain ⟨w', hw', hnat⟩ := accepted_of_member .u32 hw hline (by simp [required])
  exact u32_of_accepted hw' hnat

theorem reference_fits {line : String} {x : ReferenceRecord}
    (h : referenceCodec.decode line = .ok x) : (Record.reference x).Fits := by
  obtain ⟨v, hv, hread⟩ := Codec.decode_eq_ok h
  simp only [referenceCodec, Option.bind_eq_bind, Option.bind_eq_some_iff, Option.pure_def,
    Option.some.injEq] at hread
  obtain ⟨repository, -, path, -, row, hrow, column, hcolumn, kind, -, name, -, target, -, key, -,
    metadata, hmetadata, rfl⟩ := hread
  obtain ⟨w, hw, hnat⟩ := accepted_of_member .u32 hv hrow (by simp [required, orNull])
  obtain ⟨w', hw', hnat'⟩ := accepted_of_member .u32 hv hcolumn (by simp [required, orNull])
  refine ⟨u32_of_accepted hw hnat, u32_of_accepted hw' hnat', ?_⟩
  obtain ⟨m, hget, hm⟩ := Option.bind_eq_some_iff.mp hmetadata
  obtain ⟨absence, schema, hmem, hread⟩ := hv.get? hget
  have hfield : absence = .default (metadataRead {}) ∧ schema = metadataSchema := by
    simp [required, orNull] at hmem
    exact hmem
  obtain ⟨rfl, rfl⟩ := hfield
  rcases hread with hread | hdefault | hnull
  · exact enclosing_fits hread hm
  · have hm' : metadataRead {} = m := Json.Absence.default.inj hdefault
    rw [← hm', metadataOf_metadataRead] at hm
    cases hm
    simp
  · simp at hnull

/-- A line of a table holds a record in its ranges. -/
theorem exists_record {table : Table} {line : String} (htable : table ∈ Table.all)
    (hok : table.apply s line = .ok s') : ∃ x : Record, x.Fits ∧ x.put s = .ok s' := by
  simp only [Table.all, List.mem_cons, List.not_mem_nil, or_false] at htable
  rcases htable with rfl | rfl | rfl | rfl | rfl | rfl | rfl
  all_goals obtain ⟨a, hread, hok⟩ := Table.of_apply hok
  · exact ⟨.repository a, repository_fits hread, hok⟩
  · exact ⟨.file a, file_fits hread, hok⟩
  · exact ⟨.symbol a, symbol_fits hread, hok⟩
  · exact ⟨.reference a, reference_fits hread, hok⟩
  · exact ⟨.edge a, trivial, hok⟩
  · exact ⟨.project a, project_fits hread, hok⟩
  · exact ⟨.membership a, trivial, hok⟩

/-! Operations that stay in range -/

/-- What the rows have, and what the changed row and the new one get, all rows have. -/
theorem Puts.forall_mem {ρ : Type} {rows rows' : List ρ} {p : ρ → Bool} {g : ρ → ρ} {new : ρ}
    (h : Puts rows rows' p g new) {P : ρ → Prop} (hrows : ∀ row ∈ rows, P row)
    (hset : ∀ row, P row → P (g row)) (hnew : P new) : ∀ row ∈ rows', P row := by
  rcases h with ⟨-, rfl⟩ | ⟨-, rfl⟩
  · intro row' hrow'
    obtain ⟨row, hrow, rfl⟩ := List.mem_map.mp hrow'
    split
    · exact hset row (hrows row hrow)
    · exact hrows row hrow
  · intro row hrow
    rcases List.mem_append.mp hrow with hrow | hrow
    · exact hrows row hrow
    · rw [List.mem_singleton.mp hrow]
      exact hnew

namespace InRange

theorem put (h : InRange s) {x : Record} (hx : x.Fits) (hok : x.put s = .ok s') : InRange s' := by
  cases x with
  | repository r =>
    obtain ⟨rows, n, rfl, hputs⟩ := upsertRepository_puts hok
    exact { h with repositories := hputs.forall_mem h.repositories (fun _ _ => hx) hx }
  | file f =>
    obtain ⟨-, r, -, rows, n, rfl, hputs⟩ := upsertFile_puts hok
    exact { h with files := hputs.forall_mem h.files (fun _ _ => hx) hx }
  | symbol x =>
    obtain ⟨f, -, rows, n, rfl, hputs⟩ := upsertSymbol_puts hok
    exact { h with symbols := hputs.forall_mem h.symbols (fun _ hrow => ⟨hrow.1, hx.2⟩) hx }
  | reference x =>
    obtain ⟨f, -, rows, rfl, hputs⟩ := upsertReference_puts hok
    refine { h with references := hputs.forall_mem h.references ?_ hx }
    exact fun _ hrow => ⟨hrow.1, hrow.2.1, hx.2.2⟩
  | edge e =>
    obtain ⟨r, ends, -, -, rows, rfl, -⟩ := upsertEdge_puts hok
    exact { h with }
  | project p =>
    obtain ⟨rows, n, rfl, hputs⟩ := upsertProject_puts hok
    exact { h with projects := hputs.forall_mem h.projects (fun _ _ => hx) hx }
  | membership m =>
    obtain ⟨p, r, -, -, rfl⟩ := upsertMembership_cases hok
    obtain ⟨rows, heq, -⟩ := addMembership_puts s p.id r.id
    rw [heq]
    exact { h with }

theorem shrinks (h : InRange s) (hs : Shrinks s s') : InRange s' := by
  refine ⟨fun r hr => h.repositories r (hs.repositories hr), fun f hf => h.files f (hs.files hf),
    fun x hx => h.symbols x (hs.symbols hx), ?_, fun p hp => h.projects p (hs.projects hp), ?_⟩
  · intro r' hr'
    obtain ⟨r, hr, rfl | rfl⟩ := hs.references r' hr'
    · exact h.references _ hr
    · exact h.references r hr
  · rw [hs.pending]
    exact h.pending

theorem enqueue (h : InRange s) {k : Deletion} (hk : k.Fits) : InRange (s.enqueue k) := by
  refine { h with pending := ?_ }
  intro p hp
  rcases List.mem_append.mp hp with hp | hp
  · exact h.pending p hp
  · rw [List.mem_singleton.mp hp]
    exact hk

theorem clear (h : InRange s) (x : Snapshot) : InRange (x.clear s) := by
  unfold Snapshot.clear
  split
  · exact h
  · exact { h with pending := fun p hp => h.pending p (List.mem_filter.mp hp).1 }

end InRange

/-! Writing what is in range -/

theorem exists_symbol_of_symbolKey? {id : Option Id} {k : SymbolKey}
    (h : s.symbolKey? id = some k) : ∃ x ∈ s.symbols, x.lineStart = k.lineStart := by
  simp only [Store.symbolKey?, Option.bind_eq_bind, Option.bind_eq_some_iff, Option.pure_def,
    Option.some.injEq] at h
  obtain ⟨i, rfl, x, hx, f, -, rfl⟩ := h
  exact ⟨x, List.mem_of_find?_eq_some hx, rfl⟩

namespace InRange

variable (h : InRange s)
include h

theorem symbolKey? {id : Option Id} : ∀ k ∈ s.symbolKey? id, k.lineStart < 2 ^ 32 := by
  intro k hk
  obtain ⟨x, hx, hline⟩ := exists_symbol_of_symbolKey? hk
  rw [← hline]
  exact (h.symbols x hx).1

/-- All records of a store in range can be written and read back. -/
theorem written : Written s := by
  refine .cons (Table.carries_of _ Record.repository (fun _ => rfl) (fun _ _ => rfl) ?_)
    (.cons (Table.carries_of _ Record.file (fun _ => rfl) (fun _ _ => rfl) ?_)
    (.cons (Table.carries_of _ Record.symbol (fun _ => rfl) (fun _ _ => rfl) ?_)
    (.cons (Table.carries_of _ Record.reference (fun _ => rfl) (fun _ _ => rfl) ?_)
    (.cons (Table.carries_of _ Record.edge (fun _ => rfl) (fun _ _ => rfl) ?_)
    (.cons (Table.carries_of _ Record.project (fun _ => rfl) (fun _ _ => rfl) ?_)
    (.cons (Table.carries_of _ Record.membership (fun _ => rfl) (fun _ _ => rfl) ?_) .nil))))))
  · intro y hy
    obtain ⟨r, hr, rfl⟩ := List.mem_map.mp ((loadRepositories_perm s).mem_iff.mp hy)
    exact writes_repository (h.repositories r hr)
  · intro y hy
    obtain ⟨f, hf, hrecord⟩ := List.mem_filterMap.mp ((loadFiles_perm s).mem_iff.mp hy)
    obtain ⟨r, -, rfl⟩ := Option.map_eq_some_iff.mp hrecord
    exact writes_file (h.files f hf).1 (h.files f hf).2
  · intro y hy
    obtain ⟨x, hx, hrecord⟩ := List.mem_filterMap.mp ((loadSymbols_perm s).mem_iff.mp hy)
    obtain ⟨home, -, rfl⟩ := Option.map_eq_some_iff.mp hrecord
    exact writes_symbol (h.symbols x hx).1 (h.symbols x hx).2
  · intro y hy
    obtain ⟨x, hx, hrecord⟩ := List.mem_filterMap.mp ((loadReferences_perm s).mem_iff.mp hy)
    obtain ⟨home, -, rfl⟩ := Option.map_eq_some_iff.mp hrecord
    exact writes_reference (h.references x hx).1 (h.references x hx).2.1 h.symbolKey?
      (h.references x hx).2.2
  · intro y hy
    obtain ⟨e, he, hrecord⟩ := List.mem_filterMap.mp ((loadEdges_perm s).mem_iff.mp hy)
    obtain ⟨r, -, rfl⟩ := Option.map_eq_some_iff.mp hrecord
    exact writes_edge h.symbolKey? h.symbolKey?
  · intro y hy
    obtain ⟨p, hp, rfl⟩ := List.mem_map.mp ((loadProjects_perm s).mem_iff.mp hy)
    exact writes_project (h.projects p hp)
  · exact fun m _ => writes_membership m

end InRange

end CodeIndex.Sync
