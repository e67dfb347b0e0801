import CodeIndex.Proofs.Extract.Traversal
import Mathlib.Data.String.Basic

/-!
Where the symbols and references of a file stand. Each is made from a node of the tree: it has the
path of the file, and its lines and columns are those of positions of the text.
-/
namespace CodeIndex.Extract

open Source Documentation

/-! Lines and columns are bounded by the text -/

theorem placesFrom_le {p q : Place} {cs : List Char} (h : q ∈ Input.placesFrom p cs) :
    q.line ≤ p.line + String.utf8Len cs ∧ q.column ≤ p.column + String.utf8Len cs := by
  induction cs generalizing p with
  | nil =>
    rw [List.mem_singleton.mp h]
    simp
  | cons c cs ih =>
    have hsize := c.utf8Size_pos
    rw [String.utf8Len_cons]
    rcases List.mem_cons.mp h with rfl | h
    · omega
    · have hnext := ih h
      unfold Place.step at hnext
      split at hnext
      · dsimp only at hnext
        omega
      · dsimp only at hnext
        omega

theorem place_le (s : String) (i : Nat) :
    ((Input.ofString s).place i).line ≤ s.utf8ByteSize + 1 ∧
      ((Input.ofString s).place i).column ≤ s.utf8ByteSize := by
  have hsize : s.utf8ByteSize = String.utf8Len s.toList := by
    rw [← String.utf8ByteSize_ofList, String.ofList_toList]
  have hmem : (Input.ofString s).place i = Place.start ∨
      (Input.ofString s).place i ∈ Input.placesFrom Place.start s.toList := by
    unfold Input.place Input.ofString
    rw [Array.getD_eq_getD_getElem?, List.getElem?_toArray]
    cases hi : (Input.placesFrom Place.start s.toList)[i]? with
    | none => exact .inl rfl
    | some q => exact .inr (List.mem_of_getElem? hi)
  rw [hsize]
  rcases hmem with hstart | hmem
  · rw [hstart]
    simp [Place.start]
  · have hle := placesFrom_le hmem
    simp only [Place.start] at hle
    omega

/-- A line of a position of the text. -/
def IsLineOf (p : Parsed) (line : Nat) : Prop := ∃ i, line = (p.input.place i).line

/-- A symbol that stands in a file. -/
structure Symbols.StandsIn (f : Symbols.File) (s : Symbol) : Prop where
  path : s.filePath = f.path
  first : IsLineOf f.parsed s.lineStart
  last : IsLineOf f.parsed s.lineEnd

namespace Symbols

variable {f : File}

theorem DeclaredAt.standsIn {s : Symbol} {n : Node} (h : DeclaredAt f s n) : StandsIn f s := by
  obtain ⟨ctx, a, kind, hs⟩ := h.exists_declare
  obtain ⟨name, -, rfl⟩ := Option.map_eq_some_iff.mp hs
  exact ⟨rfl, ⟨_, rfl⟩, ⟨_, rfl⟩⟩

theorem StandsIn.markExported {s : Symbol} (h : StandsIn f s) (names : List String) :
    StandsIn f (markExported names s) := by
  unfold Symbols.markExported
  split
  · exact ⟨h.path, h.first, h.last⟩
  · exact h

/-- The symbols of a file stand in it. -/
theorem standsIn_extract {path : String} {p : Parsed} {s : Symbol} (h : s ∈ extract path p) :
    StandsIn ⟨path, p, p.comments⟩ s := by
  obtain ⟨n, x, names, hx, rfl⟩ := exists_declaredBy h
  exact hx.standsIn.markExported names

end Symbols

/-- A reference that stands in a file and has not been linked to a symbol. -/
structure References.StandsIn (f : References.File) (r : Reference) : Prop where
  path : r.filePath = f.path
  unlinked : r.targetSymbol = none
  place : ∃ i, r.line = (f.parsed.input.place i).line ∧ r.column = (f.parsed.input.place i).column

namespace References

variable {f : File}

def AllStandIn (f : File) (rs : List Reference) : Prop := ∀ r ∈ rs, StandsIn f r

theorem allStandIn_nil : AllStandIn f [] := fun _ hr => absurd hr List.not_mem_nil

theorem AllStandIn.append {xs ys : List Reference} (hxs : AllStandIn f xs)
    (hys : AllStandIn f ys) : AllStandIn f (xs ++ ys) := by
  intro r hr
  rcases List.mem_append.mp hr with hr | hr
  · exact hxs r hr
  · exact hys r hr

theorem AllStandIn.flatMap {α : Type} {xs : List α} {g : α → List Reference}
    (h : ∀ x, AllStandIn f (g x)) : AllStandIn f (xs.flatMap g) := by
  intro r hr
  obtain ⟨x, -, hx⟩ := List.mem_flatMap.mp hr
  exact h x r hx

theorem standsIn_reference (n : Node) (name : String) (kind : ReferenceKind)
    (metadata : Metadata) : StandsIn f (reference f n name kind metadata) :=
  ⟨rfl, rfl, n.start, rfl, rfl⟩

theorem allStandIn_one (n : Node) (name : String) (kind : ReferenceKind) (metadata : Metadata) :
    AllStandIn f [reference f n name kind metadata] := by
  intro r hr
  rw [List.mem_singleton.mp hr]
  exact standsIn_reference ..

theorem allStandIn_toList {α : Type} {o : Option α} {node : α → Node} {name : α → String}
    {kind : ReferenceKind} {metadata : α → Metadata} :
    AllStandIn f (o.map fun a => reference f (node a) (name a) kind (metadata a)).toList := by
  intro r hr
  obtain ⟨a, -, rfl⟩ := Option.map_eq_some_iff.mp (Option.mem_toList.mp hr)
  exact standsIn_reference ..

theorem allStandIn_memberCall (n : Node) (metadata : Metadata) :
    AllStandIn f (memberCall f n metadata) := by
  unfold memberCall
  split
  · exact allStandIn_one _ _ _ _
  · exact allStandIn_nil

theorem allStandIn_specifiers (base : Metadata) (list : Node) :
    AllStandIn f (specifiers f base list) := by
  intro r hr
  obtain ⟨spec, -, hspec⟩ := List.mem_filterMap.mp hr
  obtain ⟨name, -, rfl⟩ := Option.map_eq_some_iff.mp hspec
  exact standsIn_reference ..

theorem allStandIn_importPart (base : Metadata) (part : Node) :
    AllStandIn f (importPart f base part) := by
  unfold importPart
  split
  · exact allStandIn_one _ _ _ _
  · exact allStandIn_one _ _ _ _
  · exact allStandIn_specifiers _ _
  · exact allStandIn_nil

theorem allStandIn_requireClause (clause : Node) : AllStandIn f (requireClause f clause) := by
  unfold requireClause
  split
  · exact allStandIn_one _ _ _ _
  · exact allStandIn_nil

theorem allStandIn_importStatement (n : Node) : AllStandIn f (importStatement f n) := by
  unfold importStatement
  split
  · exact .flatMap allStandIn_requireClause
  · dsimp only
    split
    · exact allStandIn_one _ _ _ _
    · exact .flatMap (allStandIn_importPart _)

theorem allStandIn_reexport (n source : Node) : AllStandIn f (reexport f n source) := by
  unfold reexport
  dsimp only
  split
  · exact allStandIn_one _ _ _ _
  · refine .flatMap fun c => ?_
    split
    · exact allStandIn_specifiers _ _
    · exact allStandIn_one _ _ _ _

mutual

theorem allStandIn_visit (f : File) (use : Use) (parent : Kind) (n : Node) :
    AllStandIn f (visit f use parent n) := by
  cases n with
  | mk k r s e cs =>
    unfold visit
    dsimp only
    split
    · exact allStandIn_one _ _ _ _
    · exact (allStandIn_memberCall _ _).append (allStandIn_visitAll f _ _ cs)
    · exact allStandIn_one _ _ _ _
    · exact (allStandIn_memberCall _ _).append (allStandIn_visitAll f _ _ cs)
    · exact allStandIn_visitArguments f _ cs
    · exact allStandIn_visitFirst f _ cs
    · exact allStandIn_one _ _ _ _
    · exact allStandIn_one _ _ _ _
    · exact allStandIn_toList
    · exact allStandIn_toList
    · exact allStandIn_visitAll f _ _ cs
    · exact allStandIn_importStatement _
    · split
      · exact allStandIn_reexport _ _
      · exact allStandIn_visitAll f _ _ cs
    · split
      · exact allStandIn_one _ _ _ _
      · exact allStandIn_visitAll f _ _ cs
    · exact allStandIn_visitAll f _ _ cs
    · exact allStandIn_toList.append (allStandIn_visitAll f _ _ cs)
    · split
      · exact allStandIn_nil
      · exact allStandIn_one _ _ _ _
    · exact allStandIn_visitAll f _ _ cs
    · exact (allStandIn_visitAll f _ _ cs).append (allStandIn_visitAll f _ _ cs)
    · exact allStandIn_visitAll f _ _ cs
    · exact allStandIn_visitAll f _ _ cs
    · exact allStandIn_nil
    · exact allStandIn_visitAll f _ _ cs

theorem allStandIn_visitAll (f : File) (use : Node → Option Use) (parent : Kind)
    (cs : List Node) : AllStandIn f (visitAll f use parent cs) := by
  cases cs with
  | nil =>
    unfold visitAll
    exact allStandIn_nil
  | cons c cs =>
    unfold visitAll
    refine AllStandIn.append ?_ (allStandIn_visitAll f use parent cs)
    split
    · exact allStandIn_visit f _ _ c
    · exact allStandIn_nil

theorem allStandIn_visitArguments (f : File) (parent : Kind) (cs : List Node) :
    AllStandIn f (visitArguments f parent cs) := by
  cases cs with
  | nil =>
    unfold visitArguments
    exact allStandIn_nil
  | cons c cs =>
    unfold visitArguments
    refine AllStandIn.append ?_ (allStandIn_visitArguments f parent cs)
    split
    · exact allStandIn_nil
    · split
      · exact allStandIn_one _ _ _ _
      · exact allStandIn_visit f _ _ c

theorem allStandIn_visitFirst (f : File) (parent : Kind) (cs : List Node) :
    AllStandIn f (visitFirst f parent cs) := by
  cases cs with
  | nil =>
    unfold visitFirst
    exact allStandIn_nil
  | cons c cs =>
    unfold visitFirst
    split
    · exact allStandIn_visitFirst f parent cs
    · exact allStandIn_visit f _ _ c

end

/-- The references of a file stand in it. -/
theorem standsIn_extract {path : String} {p : Parsed} {r : Reference} (h : r ∈ extract path p) :
    StandsIn ⟨path, p⟩ r :=
  allStandIn_visit _ _ _ _ r h

end References

end CodeIndex.Extract
