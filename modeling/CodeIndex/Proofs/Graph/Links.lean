import CodeIndex.Graph.Build
import CodeIndex.Proofs.Store.RunRows

/-!
What a reference asks for. A name means the first exported symbol that its file declares under it,
or else the first; a name that its file does not declare means the only symbol of that name, if
there is just one. The links of a build are exact: its edges are those that the references require,
each key once, a reference is linked exactly to the symbol that it binds to, and every use in a
known file is linked, ambiguous or unmatched.
-/
namespace CodeIndex.Graph

open Store (firstsBy)

variable {known : List String} {symbols : List Symbol} {repositoryId : String} {r : Reference}

/-! What a name means -/

/-- The first entry with a property. -/
def IsFirst {α : Type} (P : α → Prop) (xs : List α) (x : α) : Prop :=
  ∃ before after, xs = before ++ x :: after ∧ P x ∧ ∀ y ∈ before, ¬P y

def Declares (file name : String) (s : Symbol) : Prop := s.filePath = file ∧ s.name = name

instance (file name : String) (s : Symbol) : Decidable (Declares file name s) :=
  inferInstanceAs (Decidable (_ ∧ _))

/-- The symbol that a name means in a file: the first exported one of that name or, where none is
exported, the first. -/
inductive Means (symbols : List Symbol) (file name : String) (s : Symbol) : Prop
  | exported (hfirst : IsFirst (fun x => Declares file name x ∧ x.isExported = true) symbols s)
  | internal (hnone : ∀ x ∈ symbols, Declares file name x → x.isExported = false)
      (hfirst : IsFirst (Declares file name) symbols s)

/-- The only symbol of a name. -/
structure IsOnly (symbols : List Symbol) (name : String) (s : Symbol) : Prop where
  mem : s ∈ symbols
  name_eq : s.name = name
  count : symbols.countP (fun x => x.name == name) = 1

theorem find?_eq_some_iff_isFirst {α : Type} {P : α → Prop} {p : α → Bool}
    (h : ∀ x, p x = true ↔ P x) {xs : List α} {x : α} : xs.find? p = some x ↔ IsFirst P xs x := by
  rw [List.find?_eq_some_iff_append]
  constructor
  · rintro ⟨hx, before, after, hsplit, hbefore⟩
    refine ⟨before, after, hsplit, (h x).mp hx, fun y hy hP => ?_⟩
    simpa [(h y).mpr hP] using hbefore y hy
  · rintro ⟨before, after, hsplit, hx, hbefore⟩
    refine ⟨(h x).mpr hx, before, after, hsplit, fun y hy => ?_⟩
    simpa [← h] using hbefore y hy

theorem inFile?_eq_find? (symbols : List Symbol) (file name : String) :
    inFile? symbols file name =
      (symbols.find? fun s => (s.filePath == file && s.name == name) && s.isExported).or
        (symbols.find? fun s => s.filePath == file && s.name == name) := by
  simp only [inFile?, List.find?_filter, List.head?_filter, Bool.decide_and, Bool.decide_eq_true]

theorem inFile?_eq_some {file name : String} {s : Symbol} :
    inFile? symbols file name = some s ↔ Means symbols file name s := by
  have hdeclares : ∀ x : Symbol, (x.filePath == file && x.name == name) = true ↔
      Declares file name x := by
    intro x
    simp [Declares]
  have hexported : ∀ x : Symbol,
      ((x.filePath == file && x.name == name) && x.isExported) = true ↔
        Declares file name x ∧ x.isExported = true := by
    intro x
    rw [Bool.and_eq_true, hdeclares]
  rw [inFile?_eq_find?, Option.or_eq_some_iff, find?_eq_some_iff_isFirst hexported,
    find?_eq_some_iff_isFirst hdeclares, List.find?_eq_none]
  simp only [hexported, not_and, Bool.not_eq_true]
  constructor
  · rintro (hfirst | ⟨hnone, hfirst⟩)
    · exact .exported hfirst
    · exact .internal hnone hfirst
  · rintro (hfirst | ⟨hnone, hfirst⟩)
    · exact .inl hfirst
    · exact .inr ⟨hnone, hfirst⟩

theorem inFile?_eq_none {file name : String} :
    inFile? symbols file name = none ↔ ∀ x ∈ symbols, ¬Declares file name x := by
  rw [inFile?_eq_find?, Option.or_eq_none_iff, List.find?_eq_none, List.find?_eq_none]
  simp only [Bool.and_eq_true, beq_iff_eq, Declares]
  exact ⟨fun h => h.2, fun h => ⟨fun x hx hboth => h x hx hboth.1, h⟩⟩

theorem Means.declares {file name : String} {s : Symbol} (h : Means symbols file name s) :
    s ∈ symbols ∧ Declares file name s := by
  rcases h with ⟨before, after, rfl, ⟨hs, -⟩, -⟩ | ⟨-, before, after, rfl, hs, -⟩
  · exact ⟨by simp, hs⟩
  · exact ⟨by simp, hs⟩

theorem isOnly_iff {name : String} {s : Symbol} :
    symbols.filter (fun x => x.name == name) = [s] ↔ IsOnly symbols name s := by
  constructor
  · intro h
    have hs : s ∈ symbols.filter fun x => x.name == name := h ▸ List.mem_singleton_self s
    obtain ⟨hmem, hname⟩ := List.mem_filter.mp hs
    refine ⟨hmem, by simpa using hname, ?_⟩
    rw [List.countP_eq_length_filter, h, List.length_singleton]
  · rintro ⟨hmem, hname, hcount⟩
    rw [List.countP_eq_length_filter] at hcount
    obtain ⟨x, hx⟩ := List.length_eq_one_iff.mp hcount
    have hs : s ∈ symbols.filter fun x => x.name == name :=
      List.mem_filter.mpr ⟨hmem, by simpa using hname⟩
    rw [hx, List.mem_singleton] at hs
    rw [hx, hs]

theorem lookup_eq_unique {name file : String} {s : Symbol} :
    lookup symbols name file = .unique s ↔ Means symbols file name s ∨
      (∀ x ∈ symbols, ¬Declares file name x) ∧ IsOnly symbols name s := by
  rw [← inFile?_eq_some, ← inFile?_eq_none, ← isOnly_iff]
  unfold lookup
  cases inFile? symbols file name with
  | some x => simp
  | none =>
    dsimp only
    generalize (symbols.filter fun x => x.name == name) = named
    match named with
    | [] => simp
    | [x] => simp
    | x :: y :: rest => simp

theorem lookup_eq_ambiguous {name file : String} {n : Nat} :
    lookup symbols name file = .ambiguous n ↔ (∀ x ∈ symbols, ¬Declares file name x) ∧
      symbols.countP (fun x => x.name == name) = n ∧ 2 ≤ n := by
  rw [← inFile?_eq_none, List.countP_eq_length_filter]
  unfold lookup
  cases inFile? symbols file name with
  | some x => simp
  | none =>
    dsimp only
    generalize (symbols.filter fun x => x.name == name) = named
    match named with
    | [] => simp; omega
    | [x] => simp; omega
    | x :: y :: rest => simp; omega

theorem lookup_eq_missing {name file : String} :
    lookup symbols name file = .missing ↔ ∀ x ∈ symbols, x.name ≠ name := by
  have hnamed : (∀ x ∈ symbols, x.name ≠ name) ↔
      (symbols.filter fun x => x.name == name) = [] := by
    simp [List.filter_eq_nil_iff]
  have hnone : (∀ x ∈ symbols, x.name ≠ name) → inFile? symbols file name = none := by
    rw [inFile?_eq_none]
    exact fun h x hx hx' => h x hx hx'.2
  unfold lookup
  cases hfile : inFile? symbols file name with
  | some x =>
    simp only [reduceCtorEq, false_iff]
    intro h
    simp [hnone h] at hfile
  | none =>
    dsimp only
    rw [hnamed]
    generalize (symbols.filter fun x => x.name == name) = named
    match named with
    | [] => simp
    | [x] => simp
    | x :: y :: rest => simp

/-! What a reference asks for -/

/-- A call, a property access or a type in a known file. -/
def IsUse (known : List String) (r : Reference) : Prop :=
  r.filePath ∈ known ∧
    (r.kind = .call ∨ r.kind = .propertyAccess ∨ r.kind = .typeReference)

instance (known : List String) (r : Reference) : Decidable (IsUse known r) :=
  inferInstanceAs (Decidable (_ ∧ _))

/-- The symbol that a use stands for: what the name means in its file or, where the file does not
declare it, the only symbol of the name. -/
inductive Uses (known : List String) (symbols : List Symbol) (r : Reference) (s : Symbol) : Prop
  | own (huse : IsUse known r) (hmeans : Means symbols r.filePath r.name s)
  | foreign (huse : IsUse known r) (hnone : ∀ x ∈ symbols, ¬Declares r.filePath r.name x)
      (honly : IsOnly symbols r.name s)

/-- An import of a known file in a known file. -/
structure Imports (known : List String) (r : Reference) (target : String) : Prop where
  file : r.filePath ∈ known
  kind : r.kind = .import
  resolved : r.targetFilePath = some target
  target_mem : target ∈ known

/-- The edges that a reference requires. -/
inductive Requires (known : List String) (symbols : List Symbol) (repositoryId : String)
    (r : Reference) : Edge → Prop
  | fileImport {target : String} (himports : Imports known r target) :
      Requires known symbols repositoryId r (.fileImport repositoryId r.filePath target)
  | symbolUsage {s : Symbol} (huses : Uses known symbols r s) :
      Requires known symbols repositoryId r (symbolUsage repositoryId r s.key)

/-- The symbol that a reference is linked to: the one that a use stands for, or the one that a
named import means in the imported file. -/
inductive Binds (known : List String) (symbols : List Symbol) (r : Reference) : SymbolKey → Prop
  | use {s : Symbol} (huses : Uses known symbols r s) : Binds known symbols r s.key
  | named {target : String} {s : Symbol} (himports : Imports known r target)
      (hstyle : r.metadata.importStyle = some .named ∨ r.metadata.importStyle = some .aliased)
      (hmeans : Means symbols target r.name s) : Binds known symbols r s.key

/-- A use with a name that several symbols have, all of them in other files. -/
def Ambiguous (known : List String) (symbols : List Symbol) (r : Reference) : Prop :=
  IsUse known r ∧ (∀ x ∈ symbols, ¬Declares r.filePath r.name x) ∧
    2 ≤ symbols.countP fun x => x.name == r.name

/-- A use with a name that no symbol has. -/
def Unmatched (known : List String) (symbols : List Symbol) (r : Reference) : Prop :=
  IsUse known r ∧ ∀ x ∈ symbols, x.name ≠ r.name

instance (known : List String) (symbols : List Symbol) (r : Reference) :
    Decidable (Ambiguous known symbols r) := inferInstanceAs (Decidable (_ ∧ _))

instance (known : List String) (symbols : List Symbol) (r : Reference) :
    Decidable (Unmatched known symbols r) := inferInstanceAs (Decidable (_ ∧ _))

theorem linksSymbols_iff {k : ReferenceKind} :
    k.linksSymbols = true ↔ k = .call ∨ k = .propertyAccess ∨ k = .typeReference := by
  cases k <;> simp [ReferenceKind.linksSymbols]

theorem IsUse.not_import (h : IsUse known r) : r.kind ≠ .import := by
  rcases h.2 with hkind | hkind | hkind <;> simp [hkind]

theorem uses_iff {s : Symbol} :
    Uses known symbols r s ↔ IsUse known r ∧ lookup symbols r.name r.filePath = .unique s := by
  rw [lookup_eq_unique]
  constructor
  · rintro (⟨huse, hmeans⟩ | ⟨huse, hnone, honly⟩)
    · exact ⟨huse, .inl hmeans⟩
    · exact ⟨huse, .inr ⟨hnone, honly⟩⟩
  · rintro ⟨huse, hmeans | ⟨hnone, honly⟩⟩
    · exact .own huse hmeans
    · exact .foreign huse hnone honly

theorem Uses.isUse {s : Symbol} (h : Uses known symbols r s) : IsUse known r := (uses_iff.mp h).1

theorem Uses.mem {s : Symbol} (h : Uses known symbols r s) : s ∈ symbols := by
  rcases h with ⟨-, hmeans⟩ | ⟨-, -, honly⟩
  · exact hmeans.declares.1
  · exact honly.mem

theorem bindsName_iff :
    bindsName r = true ↔
      r.metadata.importStyle = some .named ∨ r.metadata.importStyle = some .aliased := by
  unfold bindsName
  split <;> simp_all

theorem linkOf_import {target : String} (h : Imports known r target) :
    linkOf known symbols repositoryId r =
      .fileImport (.fileImport repositoryId r.filePath target)
        (if bindsName r then (inFile? symbols target r.name).map Symbol.key else none) := by
  simp [linkOf, h.file, h.kind, h.resolved, h.target_mem]

theorem linkOf_use (h : IsUse known r) :
    linkOf known symbols repositoryId r =
      match lookup symbols r.name r.filePath with
      | .unique s => .usage (symbolUsage repositoryId r s.key) s.key
      | .ambiguous _ => .ambiguous
      | .missing => .unmatched := by
  have hlinks : r.kind.linksSymbols = true := linksSymbols_iff.mpr h.2
  unfold linkOf
  cases lookup symbols r.name r.filePath <;> simp [h.1, h.not_import, hlinks]

theorem linkOf_eq_none (huse : ¬IsUse known r) (himport : ∀ target, ¬Imports known r target) :
    linkOf known symbols repositoryId r = .none := by
  unfold linkOf
  split
  · rfl
  · next hknown =>
    have hfile : r.filePath ∈ known := by simpa using hknown
    split
    · next hkind =>
      split
      · rfl
      · next target hresolved =>
        rw [if_pos]
        simpa using fun hmem => himport target ⟨hfile, hkind, hresolved, hmem⟩
    · rw [if_neg]
      exact fun hlinks => huse ⟨hfile, linksSymbols_iff.mp hlinks⟩

/-- What a reference contributes: one case for each kind of link. -/
inductive Contributes (known : List String) (symbols : List Symbol) (repositoryId : String)
    (r : Reference) : Link → Prop
  | usage {s : Symbol} (huses : Uses known symbols r s) :
      Contributes known symbols repositoryId r (.usage (symbolUsage repositoryId r s.key) s.key)
  | ambiguous (h : Ambiguous known symbols r) :
      Contributes known symbols repositoryId r .ambiguous
  | unmatched (h : Unmatched known symbols r) :
      Contributes known symbols repositoryId r .unmatched
  | fileImport {target : String} (himports : Imports known r target) :
      Contributes known symbols repositoryId r
        (.fileImport (.fileImport repositoryId r.filePath target)
          (if bindsName r then (inFile? symbols target r.name).map Symbol.key else none))
  | nothing (huse : ¬IsUse known r) (himport : ∀ target, ¬Imports known r target) :
      Contributes known symbols repositoryId r .none

theorem contributes_linkOf (known : List String) (symbols : List Symbol) (repositoryId : String)
    (r : Reference) :
    Contributes known symbols repositoryId r (linkOf known symbols repositoryId r) := by
  by_cases huse : IsUse known r
  · rw [linkOf_use huse]
    cases hlookup : lookup symbols r.name r.filePath with
    | unique s => exact .usage (uses_iff.mpr ⟨huse, hlookup⟩)
    | ambiguous n =>
      obtain ⟨hnone, rfl, hcount⟩ := lookup_eq_ambiguous.mp hlookup
      exact .ambiguous ⟨huse, hnone, hcount⟩
    | missing => exact .unmatched ⟨huse, lookup_eq_missing.mp hlookup⟩
  · by_cases himports : ∃ target, Imports known r target
    · obtain ⟨target, himports⟩ := himports
      rw [linkOf_import himports]
      exact .fileImport himports
    · have himport : ∀ target, ¬Imports known r target := not_exists.mp himports
      rw [linkOf_eq_none huse himport]
      exact .nothing huse himport

theorem Uses.linkOf_eq {s : Symbol} (h : Uses known symbols r s) :
    linkOf known symbols repositoryId r = .usage (symbolUsage repositoryId r s.key) s.key := by
  obtain ⟨huse, hlookup⟩ := uses_iff.mp h
  rw [linkOf_use huse, hlookup]

/-- The edge of a link is the one that the reference requires. -/
theorem edge?_linkOf {e : Edge} :
    (linkOf known symbols repositoryId r).edge? = some e ↔
      Requires known symbols repositoryId r e := by
  constructor
  · intro h
    have hlink := contributes_linkOf known symbols repositoryId r
    generalize linkOf known symbols repositoryId r = link at h hlink
    cases hlink with
    | usage huses => exact Option.some.inj h ▸ .symbolUsage huses
    | fileImport himports => exact Option.some.inj h ▸ .fileImport himports
    | ambiguous | unmatched | nothing => simp [Link.edge?] at h
  · rintro (himports | huses)
    · rw [linkOf_import himports]
      rfl
    · rw [huses.linkOf_eq]
      rfl

/-- The target of a link is the symbol that the reference binds to. -/
theorem target?_linkOf {key : SymbolKey} :
    (linkOf known symbols repositoryId r).target? = some key ↔ Binds known symbols r key := by
  constructor
  · intro h
    have hlink := contributes_linkOf known symbols repositoryId r
    generalize linkOf known symbols repositoryId r = link at h hlink
    cases hlink with
    | usage huses => exact Option.some.inj h ▸ .use huses
    | fileImport himports =>
      rw [Link.target?] at h
      split at h
      · next hstyle =>
        obtain ⟨s, hs, rfl⟩ := Option.map_eq_some_iff.mp h
        exact .named himports (bindsName_iff.mp hstyle) (inFile?_eq_some.mp hs)
      · simp at h
    | ambiguous | unmatched | nothing => simp [Link.target?] at h
  · rintro (huses | ⟨himports, hstyle, hmeans⟩)
    · rw [huses.linkOf_eq]
      rfl
    · rw [linkOf_import himports, if_pos (bindsName_iff.mpr hstyle), inFile?_eq_some.mpr hmeans]
      rfl

theorem linkOf_eq_ambiguous :
    linkOf known symbols repositoryId r = .ambiguous ↔ Ambiguous known symbols r := by
  constructor
  · intro h
    have hlink := contributes_linkOf known symbols repositoryId r
    rw [h] at hlink
    cases hlink with
    | ambiguous hambiguous => exact hambiguous
  · rintro ⟨huse, hnone, hcount⟩
    rw [linkOf_use huse, lookup_eq_ambiguous.mpr ⟨hnone, rfl, hcount⟩]

theorem linkOf_eq_unmatched :
    linkOf known symbols repositoryId r = .unmatched ↔ Unmatched known symbols r := by
  constructor
  · intro h
    have hlink := contributes_linkOf known symbols repositoryId r
    rw [h] at hlink
    cases hlink with
    | unmatched hunmatched => exact hunmatched
  · rintro ⟨huse, hnone⟩
    rw [linkOf_use huse, lookup_eq_missing.mpr hnone]

/-- An edge leads from the file of its reference to a known file, or to a symbol of the run. -/
theorem edge_of_link {e : Edge} (h : (linkOf known symbols repositoryId r).edge? = some e) :
    r.filePath ∈ known ∧ ((∃ target ∈ known, e = .fileImport repositoryId r.filePath target) ∨
      ∃ s ∈ symbols, e = symbolUsage repositoryId r s.key) := by
  rcases edge?_linkOf.mp h with himports | huses
  · exact ⟨himports.file, .inl ⟨_, himports.target_mem, rfl⟩⟩
  · exact ⟨huses.isUse.1, .inr ⟨_, huses.mem, rfl⟩⟩

/-- The target of a link is a symbol of the run. -/
theorem target_of_link {key : SymbolKey}
    (h : (linkOf known symbols repositoryId r).target? = some key) :
    ∃ s ∈ symbols, s.key = key := by
  rcases target?_linkOf.mp h with huses | ⟨-, -, hmeans⟩
  · exact ⟨_, huses.mem, rfl⟩
  · exact ⟨_, hmeans.declares.1, rfl⟩

/-! The links of a run -/

theorem distinctEdges_eq_firstsBy {seen seen' : List String} {edges : List Edge}
    (h : ∀ k, k ∈ seen ↔ k ∈ seen') : distinctEdges seen edges = firstsBy Edge.key seen' edges := by
  induction edges generalizing seen seen' with
  | nil => rfl
  | cons e rest ih =>
    rw [distinctEdges, firstsBy]
    have hcontains : seen.contains e.key = true ↔ e.key ∈ seen' := by
      rw [List.contains_iff_mem, h]
    by_cases hseen : e.key ∈ seen'
    · rw [if_pos (hcontains.mpr hseen), if_pos hseen, ih h]
    · rw [if_neg (hcontains.not.mpr hseen), if_neg hseen, ih]
      intro k
      simp [h, or_comm]

variable {references : List Reference}

/-- The edges that the references ask for, before repeated ones are dropped. -/
def edgesOf (known : List String) (symbols : List Symbol) (repositoryId : String)
    (references : List Reference) : List Edge :=
  references.filterMap fun r => (linkOf known symbols repositoryId r).edge?

theorem mem_edgesOf {e : Edge} :
    e ∈ edgesOf known symbols repositoryId references ↔
      ∃ r ∈ references, Requires known symbols repositoryId r e := by
  simp only [edgesOf, List.mem_filterMap, edge?_linkOf]

theorem build_edges :
    (build known symbols references repositoryId).edges =
      firstsBy Edge.key [] (edgesOf known symbols repositoryId references) := by
  rw [build, distinctEdges_eq_firstsBy fun _ => Iff.rfl, edgesOf, List.filterMap_map]
  rfl

theorem build_references :
    (build known symbols references repositoryId).references =
      references.map fun r => setTarget r (linkOf known symbols repositoryId r) := by
  rw [build, List.zipWith_map_right, List.zipWith_self]

theorem nodup_build_edges :
    ((build known symbols references repositoryId).edges.map Edge.key).Nodup := by
  rw [build_edges]
  exact (Store.nodup_firstsBy [] _).mpr List.nodup_nil

theorem exists_link_of_mem_edges {e : Edge}
    (h : e ∈ (build known symbols references repositoryId).edges) :
    ∃ r ∈ references, (linkOf known symbols repositoryId r).edge? = some e := by
  rw [build_edges] at h
  exact List.mem_filterMap.mp (Store.mem_of_mem_firstsBy h)

theorem setTarget_filePath (r : Reference) (link : Link) :
    (setTarget r link).filePath = r.filePath := by
  unfold setTarget
  split <;> rfl

theorem setTarget_targetSymbol (r : Reference) (link : Link) :
    (setTarget r link).targetSymbol = link.target?.or r.targetSymbol := by
  unfold setTarget
  split <;> simp_all

theorem setTarget_eq (r : Reference) (link : Link) :
    setTarget r link = { r with targetSymbol := (setTarget r link).targetSymbol } := by
  unfold setTarget
  split <;> rfl

/-! Exactness -/

/-- A use that stands for some symbol. -/
def Linked (known : List String) (symbols : List Symbol) (r : Reference) : Prop :=
  ∃ s, Uses known symbols r s

theorem Ambiguous.not_unmatched (h : Ambiguous known symbols r) : ¬Unmatched known symbols r := by
  rintro ⟨-, hnone⟩
  have hzero : symbols.countP (fun x => x.name == r.name) = 0 :=
    List.countP_eq_zero.mpr fun x hx => by simpa using hnone x hx
  have := h.2.2
  omega

/-- A use that is neither ambiguous nor unmatched stands for a symbol. -/
theorem linked_iff : Linked known symbols r ↔
    IsUse known r ∧ ¬Ambiguous known symbols r ∧ ¬Unmatched known symbols r := by
  constructor
  · rintro ⟨s, huses⟩
    obtain ⟨huse, hlookup⟩ := uses_iff.mp huses
    refine ⟨huse, ?_, ?_⟩
    · rintro ⟨-, hnone, hcount⟩
      simp [lookup_eq_ambiguous.mpr ⟨hnone, rfl, hcount⟩] at hlookup
    · rintro ⟨-, hnone⟩
      simp [lookup_eq_missing.mpr hnone] at hlookup
  · rintro ⟨huse, hambiguous, hunmatched⟩
    cases hlookup : lookup symbols r.name r.filePath with
    | unique s => exact ⟨s, uses_iff.mpr ⟨huse, hlookup⟩⟩
    | ambiguous n =>
      obtain ⟨hnone, rfl, hcount⟩ := lookup_eq_ambiguous.mp hlookup
      exact absurd ⟨huse, hnone, hcount⟩ hambiguous
    | missing => exact absurd ⟨huse, lookup_eq_missing.mp hlookup⟩ hunmatched

instance (known : List String) (symbols : List Symbol) (r : Reference) :
    Decidable (Linked known symbols r) := decidable_of_iff _ linked_iff.symm

theorem count_uses (known : List String) (symbols : List Symbol) (references : List Reference) :
    references.countP (fun r => decide (Linked known symbols r)) +
        references.countP (fun r => decide (Ambiguous known symbols r)) +
        references.countP (fun r => decide (Unmatched known symbols r)) =
      references.countP fun r => decide (IsUse known r) := by
  induction references with
  | nil => rfl
  | cons r rest ih =>
    simp only [List.countP_cons, decide_eq_true_iff, linked_iff (r := r)]
    by_cases huse : IsUse known r
    · by_cases hambiguous : Ambiguous known symbols r
      · simp only [huse, hambiguous, hambiguous.not_unmatched, not_true, false_and, and_false,
          if_true, if_false]
        omega
      · by_cases hunmatched : Unmatched known symbols r
        · simp only [huse, hambiguous, hunmatched, not_true, and_false, if_true, if_false]
          omega
        · simp only [huse, hambiguous, hunmatched, not_false_iff, true_and, if_true, if_false]
          omega
    · have hambiguous : ¬Ambiguous known symbols r := fun h => huse h.1
      have hunmatched : ¬Unmatched known symbols r := fun h => huse h.1
      simp only [huse, hambiguous, hunmatched, false_and, if_false]
      omega

theorem length_filter_links {link : Link} {P : Reference → Prop} [DecidablePred P]
    (h : ∀ r, linkOf known symbols repositoryId r = link ↔ P r) :
    ((references.map (linkOf known symbols repositoryId)).filter (· = link)).length =
      references.countP fun r => decide (P r) := by
  rw [← List.countP_eq_length_filter, List.countP_map]
  exact List.countP_congr fun r _ => by simp [h]

theorem build_ambiguous :
    (build known symbols references repositoryId).ambiguous =
      references.countP fun r => decide (Ambiguous known symbols r) :=
  length_filter_links fun _ => linkOf_eq_ambiguous

theorem build_unmatched :
    (build known symbols references repositoryId).unmatched =
      references.countP fun r => decide (Unmatched known symbols r) :=
  length_filter_links fun _ => linkOf_eq_unmatched

theorem mem_build_keys {key : String} :
    key ∈ (build known symbols references repositoryId).edges.map Edge.key ↔
      ∃ r ∈ references, ∃ e, Requires known symbols repositoryId r e ∧ e.key = key := by
  rw [build_edges, Store.mem_map_firstsBy]
  simp only [List.mem_map, mem_edgesOf]
  constructor
  · rintro ⟨e, ⟨r, hr, hrequires⟩, hkey⟩
    exact ⟨r, hr, e, hrequires, hkey⟩
  · rintro ⟨r, hr, e, hrequires, hkey⟩
    exact ⟨e, ⟨r, hr, hrequires⟩, hkey⟩

theorem Requires.isWellFormed {e : Edge} (h : Requires known symbols repositoryId r e) :
    e.isWellFormed = true := by
  rcases h with himports | huses
  · rfl
  · rfl

/-- A reference before and after a build. It is linked to the symbol that it binds to, if any, and
nothing else of it changes. -/
structure LinkedTo (known : List String) (symbols : List Symbol) (r r' : Reference) : Prop where
  same : r' = { r with targetSymbol := r'.targetSymbol }
  bound : ∀ key, Binds known symbols r key → r'.targetSymbol = some key
  unbound : (∀ key, ¬Binds known symbols r key) → r'.targetSymbol = r.targetSymbol

theorem linkedTo_setTarget (known : List String) (symbols : List Symbol) (repositoryId : String)
    (r : Reference) :
    LinkedTo known symbols r (setTarget r (linkOf known symbols repositoryId r)) := by
  refine ⟨setTarget_eq r _, fun key hkey => ?_, fun hnone => ?_⟩
  · rw [setTarget_targetSymbol, target?_linkOf.mpr hkey, Option.some_or]
  · have htarget : (linkOf known symbols repositoryId r).target? = none :=
      Option.eq_none_iff_forall_ne_some.mpr fun key hkey => hnone key (target?_linkOf.mp hkey)
    rw [setTarget_targetSymbol, htarget, Option.none_or]

/-- A build is exact. No two edges have the same key, and the keys are those of the edges that the
references require; every edge has both ends and is a required one. Each reference is linked to the
symbol that it binds to, if any, and is otherwise unchanged. The uses of known files are counted
as linked, ambiguous or unmatched, each of them once. -/
theorem build_exact (known : List String) (symbols : List Symbol) (references : List Reference)
    (repositoryId : String) :
    let built := build known symbols references repositoryId
    (built.edges.map Edge.key).Nodup ∧
      (∀ key, key ∈ built.edges.map Edge.key ↔
        ∃ r ∈ references, ∃ e, Requires known symbols repositoryId r e ∧ e.key = key) ∧
      (∀ e ∈ built.edges, e.isWellFormed = true ∧
        ∃ r ∈ references, Requires known symbols repositoryId r e) ∧
      List.Forall₂ (LinkedTo known symbols) references built.references ∧
      built.ambiguous = references.countP (fun r => decide (Ambiguous known symbols r)) ∧
      built.unmatched = references.countP (fun r => decide (Unmatched known symbols r)) ∧
      references.countP (fun r => decide (Linked known symbols r)) + built.ambiguous +
          built.unmatched =
        references.countP fun r => decide (IsUse known r) := by
  intro built
  refine ⟨nodup_build_edges, fun key => mem_build_keys, fun e he => ?_, ?_, build_ambiguous,
    build_unmatched, ?_⟩
  · obtain ⟨r, hr, hlink⟩ := exists_link_of_mem_edges he
    have hrequires := edge?_linkOf.mp hlink
    exact ⟨hrequires.isWellFormed, r, hr, hrequires⟩
  · rw [show built.references = _ from build_references, List.forall₂_map_right_iff,
      List.forall₂_same]
    exact fun r _ => linkedTo_setTarget known symbols repositoryId r
  · rw [show built.ambiguous = _ from build_ambiguous,
      show built.unmatched = _ from build_unmatched, count_uses]

end CodeIndex.Graph
