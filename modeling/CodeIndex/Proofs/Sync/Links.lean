import CodeIndex.Proofs.Sync.Merge

/-!
The rows that references and edges are put into. The ends of an edge are read back as the names that
its record gave them.
-/
namespace CodeIndex.Sync

open Store (fileMark eq_of_key)

variable {s s' : Store}

/-! References -/

theorem upsertReference_puts {x : ReferenceRecord} (hok : upsertReference s x = .ok s') :
    ∃ f, file? s x.repository x.filePath = some f ∧
      ∃ rows, s' = { s with references := rows } ∧
        Puts s.references rows (atUse f.id x) (setReference (targetId? s x) x)
          (newReference (targetId? s x) f x) := by
  obtain ⟨f, hf, ⟨hsome, rfl⟩ | ⟨hnone, rfl⟩⟩ := upsertReference_cases hok
  · exact ⟨f, hf, _, rfl, .inl ⟨hsome, rfl⟩⟩
  · exact ⟨f, hf, _, rfl, .inr ⟨hnone, rfl⟩⟩

theorem ReferenceKind.name_inj {a b : ReferenceKind} : a.name = b.name ↔ a = b := by
  constructor
  · intro heq
    have hname := ReferenceKind.ofName?_name a
    rw [heq, ReferenceKind.ofName?_name] at hname
    exact (Option.some.inj hname).symm
  · rintro rfl
    rfl

/-! Edges -/

/-- The kind of an edge can be read from its key. -/
theorem edge_kind_of_key {a b : Edge} (h : a.key = b.key) : a.kind = b.kind := by
  have hhead : ∀ e : Edge, e.key.toList.head? = e.kind.name.toList.head? := by
    intro e
    cases hk : e.kind <;> simp [Edge.key, hk, EdgeKind.name, String.intercalate_cons_cons]
  have heq := hhead a
  rw [h, hhead b] at heq
  cases hka : a.kind <;> cases hkb : b.kind <;> simp_all [EdgeKind.name]

theorem FileEndIs.filePath? (h : s.Sound) {repository : String} {path : Option String}
    {id : Option Id} (hend : FileEndIs s repository path id) : s.filePath? id = path := by
  cases path with
  | none =>
    rw [FileEndIs] at hend
    rw [hend]
    rfl
  | some p =>
    obtain ⟨f, hf, rfl⟩ := hend
    exact filePath?_of_file? h hf

theorem SymbolEndIs.symbolKey? (h : s.Sound) {repository : String} {key : Option SymbolKey}
    {id : Option Id} (hend : SymbolEndIs s repository key id) : s.symbolKey? id = key := by
  cases key with
  | none =>
    rw [SymbolEndIs] at hend
    rw [hend]
    rfl
  | some k =>
    obtain ⟨x, hx, rfl⟩ := hend
    exact symbolKey?_of_symbol? h hx

/-- A row with the ends and the kind of a record is read back as its edge. -/
theorem EndsAre.edgeOf (h : s.Sound) {e : EdgeRecord} {ends : Ends} (hends : EndsAre s e ends)
    {row : EdgeRow} (hkind : row.kind = e.kind) : s.edgeOf "" (setEdge ends row) = e.edge := by
  simp only [Store.edgeOf, setEdge, EdgeRecord.edge, hkind, hends.fromFile.filePath? h,
    hends.toFile.filePath? h, hends.fromSymbol.symbolKey? h, hends.toSymbol.symbolKey? h]

theorem upsertEdge_puts {e : EdgeRecord} (hok : upsertEdge s e = .ok s') :
    ∃ r ends, s.repository? e.repository = some r ∧ EndsAre s e ends ∧
      ∃ rows, s' = { s with edges := rows } ∧
        Puts s.edges rows (fun row => row.repositoryId == r.id && row.key == e.edge.key)
          (setEdge ends) (newEdge r.id ends e) := by
  have hplace : ∀ (row : EdgeRow) (id : Id),
      (row.repositoryId == id && row.key == e.edge.key) = true ↔
        Store.edgePlace row = (id, e.edge.key) := by
    simp [Store.edgePlace]
  obtain ⟨-, r, ends, hr, hends, ⟨⟨row, hrow, hp⟩, rfl⟩ | ⟨hnone, rfl⟩⟩ := upsertEdge_cases hok
  · exact ⟨r, ends, hr, hends, _, rfl, .inl ⟨⟨row, hrow, (hplace row r.id).mpr hp⟩, rfl⟩⟩
  · refine ⟨r, ends, hr, hends, _, rfl, .inr ⟨fun row hrow => ?_, rfl⟩⟩
    exact Bool.eq_false_iff.mpr fun hp => hnone row hrow ((hplace row r.id).mp hp)

/-- The record of a row is its edge with the name of its repository. -/
theorem edgeRecord?_eq_some {row : EdgeRow} {x : EdgeRecord} :
    edgeRecord? s row = some x ↔
      ownerOf s row.repositoryId = some x.repository ∧ s.edgeOf "" row = x.edge := by
  unfold edgeRecord?
  rw [Option.map_eq_some_iff]
  constructor
  · rintro ⟨name, hname, rfl⟩
    exact ⟨hname, rfl⟩
  · rintro ⟨hname, hedge⟩
    simp only [Store.edgeOf, EdgeRecord.edge, Edge.mk.injEq, true_and] at hedge
    exact ⟨x.repository, hname,
      by rw [hedge.1, hedge.2.1, hedge.2.2.1, hedge.2.2.2.1, hedge.2.2.2.2]⟩

end CodeIndex.Sync
