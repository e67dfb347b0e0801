import CodeIndex.Proofs.Extract.Extraction
import CodeIndex.Proofs.Extract.Nesting

/-!
No two references of a file stand at the same place. Every reference that a visit of a node yields
starts inside the node's range; a node that yields a reference of its own and goes on visiting does
so in children that do not hold the place of that reference.
-/
namespace CodeIndex.Extract

open Source

namespace References

/-- The place of a reference in its file. -/
def site (r : Reference) : Nat × Nat := (r.line, r.column)

/-- References that stand at positions of a set, no two of them at the same place. -/
structure Spread (f : File) (P : Nat → Prop) (rs : List Reference) : Prop where
  inside : ∀ r ∈ rs, ∃ i, P i ∧ i ≤ f.parsed.input.size ∧
    r.line = (f.parsed.input.place i).line ∧ r.column = (f.parsed.input.place i).column
  distinct : (rs.map site).Nodup

variable {f : File} {P Q : Nat → Prop} {xs ys : List Reference}

theorem spread_nil (f : File) (P : Nat → Prop) : Spread f P [] := ⟨by simp, by simp⟩

theorem Spread.mono (h : Spread f P xs) (hPQ : ∀ i, P i → Q i) : Spread f Q xs :=
  ⟨fun r hr => by
    obtain ⟨i, hi, hplace⟩ := h.inside r hr
    exact ⟨i, hPQ i hi, hplace⟩, h.distinct⟩

theorem spread_one {n : Node} (hrange : n.start < n.stop) (hbound : n.stop ≤ f.parsed.input.size)
    (name : String) (kind : ReferenceKind) (metadata : Metadata) :
    Spread f n.Covers [reference f n name kind metadata] := by
  refine ⟨?_, by simp⟩
  intro r hr
  rw [List.mem_singleton.mp hr]
  exact ⟨n.start, ⟨Nat.le_refl _, hrange⟩, by omega, rfl, rfl⟩

section Separates

variable (hplaces : f.parsed.input.Separates)
include hplaces

/-- References at disjoint sets of positions are spread together. -/
theorem Spread.append (hx : Spread f P xs) (hy : Spread f Q ys) (hapart : ∀ i, P i → ¬ Q i) :
    Spread f (fun i => P i ∨ Q i) (xs ++ ys) := by
  refine ⟨?_, ?_⟩
  · intro r hr
    rcases List.mem_append.mp hr with hr | hr
    · obtain ⟨i, hi, hplace⟩ := hx.inside r hr
      exact ⟨i, .inl hi, hplace⟩
    · obtain ⟨i, hi, hplace⟩ := hy.inside r hr
      exact ⟨i, .inr hi, hplace⟩
  · rw [List.map_append, List.nodup_append]
    refine ⟨hx.distinct, hy.distinct, ?_⟩
    rintro _ hax _ hby rfl
    obtain ⟨a, ha, hasite⟩ := List.mem_map.mp hax
    obtain ⟨b, hb, hbsite⟩ := List.mem_map.mp hby
    obtain ⟨i, hi, hisize, hiline, hicolumn⟩ := hx.inside a ha
    obtain ⟨j, hj, hjsize, hjline, hjcolumn⟩ := hy.inside b hb
    obtain ⟨hline, hcolumn⟩ := Prod.mk.inj (hasite.trans hbsite.symm)
    have hsame := hplaces i j hisize hjsize (by rw [← hiline, hline, hjline])
      (by rw [← hicolumn, hcolumn, hjcolumn])
    exact hapart i hi (hsame ▸ hj)

/-- The positions of the nodes of a list that pass a test. -/
def CoveredBy (test : Node → Prop) (cs : List Node) (i : Nat) : Prop :=
  ∃ c ∈ cs, test c ∧ c.Covers i

omit hplaces in
theorem CoveredBy.within {low high : Nat} {cs : List Node} (hrow : Node.Row low high cs)
    {test : Node → Prop} {i : Nat} (h : CoveredBy test cs i) : low ≤ i ∧ i < high := by
  obtain ⟨c, hc, -, hi⟩ := h
  exact hrow.covers hc hi

/-- What each node of a row yields in its own range is spread over the row. -/
theorem spread_flatMap {low high : Nat} {cs : List Node} (hrow : Node.Row low high cs)
    (test : Node → Prop) {g : Node → List Reference}
    (hspread : ∀ c ∈ cs, Spread f (fun i => test c ∧ c.Covers i) (g c)) :
    Spread f (CoveredBy test cs) (cs.flatMap g) := by
  induction cs generalizing low with
  | nil => exact spread_nil f _
  | cons c cs ih =>
    have htail := ih hrow.tail fun d hd => hspread d (List.mem_cons_of_mem _ hd)
    rw [List.flatMap_cons]
    refine ((hspread c List.mem_cons_self).append hplaces htail ?_).mono ?_
    · rintro i ⟨-, hi⟩ hlater
      have hstop := hlater.within hrow.tail
      unfold Node.Covers at hi
      omega
    · rintro i (⟨htest, hi⟩ | ⟨d, hd, htest, hi⟩)
      · exact ⟨c, List.mem_cons_self, htest, hi⟩
      · exact ⟨d, List.mem_cons_of_mem _ hd, htest, hi⟩

end Separates

/-! What single nodes yield -/

/-- A node of a tree over the text of a file. -/
structure Placed (f : File) (n : Node) : Prop where
  nests : n.nests = true
  bound : n.stop ≤ f.parsed.input.size

namespace Placed

variable {n c : Node}

theorem row (h : Placed f n) : Node.Row n.start n.stop n.children := Node.row_of_nests h.nests

theorem child (h : Placed f n) (hc : c ∈ n.children) : Placed f c :=
  ⟨h.row.nests c hc, by have := (h.row.inside c hc).2; have := h.bound; omega⟩

theorem covers_child (h : Placed f n) (hc : c ∈ n.children) {i : Nat} (hi : c.Covers i) :
    n.Covers i :=
  h.row.covers hc hi

theorem range (h : Placed f n) (hkind : n.kind ≠ .token) : n.start < n.stop :=
  Node.start_lt_stop h.nests (.inl hkind)

/-- A reference at the start of a named node. -/
theorem spread (h : Placed f n) (hkind : n.kind ≠ .token) (name : String) (kind : ReferenceKind)
    (metadata : Metadata) : Spread f n.Covers [reference f n name kind metadata] :=
  spread_one (h.range hkind) h.bound name kind metadata

/-- A reference at the start of a child with a role. -/
theorem spread_child (h : Placed f n) {role : Role} (hchild : n.child? role = some c)
    (name : String) (kind : ReferenceKind) (metadata : Metadata) :
    Spread f c.Covers [reference f c name kind metadata] := by
  obtain ⟨hc, hrole⟩ := Node.role_of_child? hchild
  have hplaced := h.child hc
  exact spread_one (Node.start_lt_stop hplaced.nests (.inr (by simp [hrole]))) hplaced.bound ..

end Placed

theorem named_sublist (n : Node) : n.named.Sublist n.children := List.filter_sublist

theorem kind_of_mem_named {n c : Node} (h : c ∈ n.named) : c.kind ≠ .token := by
  simpa [Node.isNamed] using (List.mem_filter.mp h).2

section Parts

variable (hplaces : f.parsed.input.Separates)
include hplaces

/-- A flat map over some of the children of a node. -/
theorem Placed.spread_children {n : Node} (h : Placed f n) {cs : List Node}
    (hcs : cs.Sublist n.children) {g : Node → List Reference}
    (hspread : ∀ c ∈ cs, Placed f c → Spread f c.Covers (g c)) :
    Spread f n.Covers (cs.flatMap g) := by
  refine (spread_flatMap hplaces (h.row.sublist hcs) (fun _ => True) ?_).mono ?_
  · intro c hc
    exact (hspread c hc (h.child (hcs.subset hc))).mono fun i hi => ⟨trivial, hi⟩
  · rintro i ⟨c, hc, -, hi⟩
    exact h.covers_child (hcs.subset hc) hi

theorem spread_specifiers {list : Node} (h : Placed f list) (base : Metadata) :
    Spread f list.Covers (specifiers f base list) := by
  unfold specifiers
  rw [List.filterMap_eq_flatMap_toList]
  apply h.spread_children hplaces (named_sublist list)
  intro spec hspec hplaced
  cases spec.child? .name with
  | none => exact spread_nil f _
  | some name => exact hplaced.spread (kind_of_mem_named hspec) ..

theorem spread_importPart {part : Node} (h : Placed f part) (base : Metadata) :
    Spread f part.Covers (importPart f base part) := by
  unfold importPart
  split
  · next hkind => exact h.spread (by simp [hkind]) ..
  · next hkind => exact h.spread (by simp [hkind]) ..
  · exact spread_specifiers hplaces h base
  · exact spread_nil f _

omit hplaces in
theorem spread_requireClause {clause : Node} (h : Placed f clause) :
    Spread f clause.Covers (requireClause f clause) := by
  unfold requireClause
  split
  · next localName _ hfound =>
    have hmem := List.mem_of_find?_eq_some hfound
    have hchild := (named_sublist clause).subset hmem
    exact ((h.child hchild).spread (kind_of_mem_named hmem) ..).mono
      fun i hi => h.covers_child hchild hi
  · exact spread_nil f _

theorem spread_importStatement {n : Node} (h : Placed f n) (hkind : n.kind ≠ .token) :
    Spread f n.Covers (importStatement f n) := by
  unfold importStatement
  split
  · apply h.spread_children hplaces (List.filter_sublist.trans (named_sublist n))
    exact fun clause _ hclause => spread_requireClause hclause
  · dsimp only
    split
    · exact h.spread hkind ..
    · next clause hfound =>
      have hchild := (named_sublist n).subset (List.mem_of_find?_eq_some hfound)
      refine (((h.child hchild).spread_children hplaces (named_sublist clause) ?_)).mono
        fun i hi => h.covers_child hchild hi
      exact fun part _ hpart => spread_importPart hplaces hpart _

theorem spread_reexport {n : Node} (h : Placed f n) (hkind : n.kind ≠ .token) (source : Node) :
    Spread f n.Covers (reexport f n source) := by
  unfold reexport
  dsimp only
  split
  · exact h.spread hkind ..
  · apply h.spread_children hplaces (List.filter_sublist.trans (named_sublist n))
    intro c hc hplaced
    split
    · exact spread_specifiers hplaces hplaced _
    · exact hplaced.spread (kind_of_mem_named (List.mem_of_mem_filter hc)) ..

/-- A reference to the property of a member expression, and what the object of it yields. -/
theorem Placed.spread_member {n : Node} (h : Placed f n) {xs ys : List Reference}
    (hxs : xs = [] ∨ ∃ property, n.child? .property = some property ∧ Spread f property.Covers xs)
    (hys : Spread f (CoveredBy (fun c => c.role = some .object) n.children) ys) :
    Spread f n.Covers (xs ++ ys) := by
  have hobject : ∀ i, CoveredBy (fun c => c.role = some .object) n.children i → n.Covers i :=
    fun i hi => hi.within h.row
  rcases hxs with rfl | ⟨property, hproperty, hxs⟩
  · exact hys.mono hobject
  · obtain ⟨hmem, hrole⟩ := Node.role_of_child? hproperty
    refine (hxs.append hplaces hys ?_).mono ?_
    · rintro i hi ⟨c, hc, hcrole, hci⟩
      refine h.row.disjoint hmem hc ?_ hi hci
      rintro rfl
      simp [hrole] at hcrole
    · rintro i (hi | hi)
      · exact h.covers_child hmem hi
      · exact hobject i hi

end Parts

theorem Placed.memberCall_cases {n : Node} (h : Placed f n) (metadata : Metadata) :
    memberCall f n metadata = [] ∨ ∃ property, n.child? .property = some property ∧
      Spread f property.Covers (memberCall f n metadata) := by
  unfold memberCall
  split
  · next property hproperty => exact .inr ⟨property, hproperty, h.spread_child hproperty ..⟩
  · exact .inl rfl

/-- A reference to a child with a role, where there is one. -/
theorem Placed.roleChild_cases {n : Node} (h : Placed f n) (role : Role) (name : Node → String)
    (kind : ReferenceKind) (metadata : Node → Metadata) :
    ((n.child? role).map fun c => reference f c (name c) kind (metadata c)).toList = [] ∨
      ∃ c, n.child? role = some c ∧ Spread f c.Covers
        ((n.child? role).map fun c => reference f c (name c) kind (metadata c)).toList := by
  cases hchild : n.child? role with
  | none => exact .inl rfl
  | some c => exact .inr ⟨c, rfl, h.spread_child hchild ..⟩

theorem Placed.spread_roleChild {n : Node} (h : Placed f n) (role : Role) (name : Node → String)
    (kind : ReferenceKind) (metadata : Node → Metadata) :
    Spread f n.Covers
      ((n.child? role).map fun c => reference f c (name c) kind (metadata c)).toList := by
  rcases h.roleChild_cases role name kind metadata with hnone | ⟨c, hchild, hspread⟩
  · rw [hnone]
    exact spread_nil f _
  · exact hspread.mono fun i hi => h.covers_child (Node.role_of_child? hchild).1 hi

/-! The visit -/

/-- The nodes of a list that a visit has a use for. -/
def Uses (use : Node → Option Use) (c : Node) : Prop := (use c).isSome = true

theorem role_of_onlyRole {role : Role} {use : Use} {c : Node} (h : Uses (onlyRole role use) c) :
    c.role = some role := by
  unfold Uses onlyRole at h
  split at h
  · next hrole => simpa using hrole
  · simp at h

mutual

theorem spread_visit (hplaces : f.parsed.input.Separates) (use : Use) (parent : Kind) (n : Node)
    (h : Placed f n) : Spread f n.Covers (visit f use parent n) := by
  cases n with
  | mk k r s e cs =>
    have hall : ∀ use : Node → Option Use, Spread f (Node.mk k r s e cs).Covers
        (visitAll f use k cs) := fun use =>
      (spread_visitAll hplaces use k cs s e h.row h.bound).mono fun i hi => hi.within h.row
    have hobject : Spread f (CoveredBy (fun c => c.role = some .object) cs)
        (visitAll f (onlyRole .object .plain) k cs) :=
      (spread_visitAll hplaces _ k cs s e h.row h.bound).mono
        fun i ⟨c, hc, huse, hi⟩ => ⟨c, hc, role_of_onlyRole huse, hi⟩
    unfold visit
    dsimp only
    split
    · exact h.spread (by simp [Node.kind]) ..
    · exact h.spread_member hplaces (h.memberCall_cases _) hobject
    · exact h.spread (by simp [Node.kind]) ..
    · exact h.spread_member hplaces (h.memberCall_cases _) hobject
    · exact (spread_visitArguments hplaces k cs s e h.row h.bound).mono
        fun i hi => hi.within h.row
    · exact (spread_visitFirst hplaces k cs s e h.row h.bound).mono fun i hi => hi.within h.row
    · exact h.spread (by simp [Node.kind]) ..
    · exact h.spread (by simp [Node.kind]) ..
    · exact h.spread_roleChild ..
    · exact h.spread_roleChild ..
    · exact hall _
    · exact spread_importStatement hplaces h (by simp [Node.kind])
    · split
      · exact spread_reexport hplaces h (by simp [Node.kind]) _
      · exact hall _
    · split
      · exact h.spread (by simp [Node.kind]) ..
      · exact hall _
    · exact hall _
    · exact h.spread_member hplaces (h.roleChild_cases ..) hobject
    · split
      · exact spread_nil f _
      · exact h.spread (by simp [Node.kind]) ..
    · exact hall _
    · -- The values and the type arguments of a clause are different children.
      refine ((spread_visitAll hplaces _ _ cs s e h.row h.bound).append hplaces
        (spread_visitAll hplaces _ _ cs s e h.row h.bound) ?_).mono ?_
      · rintro i ⟨c, hc, huse, hi⟩ ⟨d, hd, huse', hi'⟩
        refine h.row.disjoint hc hd ?_ hi hi'
        rintro rfl
        have hrole := (role_of_onlyRole huse).symm.trans (role_of_onlyRole huse')
        simp at hrole
      · rintro i (hi | hi)
        · exact hi.within h.row
        · exact hi.within h.row
    · exact hall _
    · exact hall _
    · exact spread_nil f _
    · exact hall _

theorem spread_visitAll (hplaces : f.parsed.input.Separates) (use : Node → Option Use)
    (parent : Kind) (cs : List Node) (low high : Nat) (hrow : Node.Row low high cs)
    (hbound : high ≤ f.parsed.input.size) :
    Spread f (CoveredBy (Uses use) cs) (visitAll f use parent cs) := by
  cases cs with
  | nil =>
    unfold visitAll
    exact spread_nil f _
  | cons c cs =>
    have hplaced : Placed f c :=
      ⟨hrow.nests c List.mem_cons_self,
        Nat.le_trans (hrow.inside c List.mem_cons_self).2 hbound⟩
    have htail := spread_visitAll hplaces use parent cs c.stop high hrow.tail hbound
    unfold visitAll
    split
    · next u hu =>
      refine ((spread_visit hplaces u parent c hplaced).append hplaces htail ?_).mono ?_
      · intro i hi hlater
        have hstop := hlater.within hrow.tail
        unfold Node.Covers at hi
        omega
      · rintro i (hi | ⟨d, hd, huse, hi⟩)
        · exact ⟨c, List.mem_cons_self, by simp [Uses, hu], hi⟩
        · exact ⟨d, List.mem_cons_of_mem _ hd, huse, hi⟩
    · exact htail.mono fun i ⟨d, hd, huse, hi⟩ => ⟨d, List.mem_cons_of_mem _ hd, huse, hi⟩

theorem spread_visitArguments (hplaces : f.parsed.input.Separates) (parent : Kind)
    (cs : List Node) (low high : Nat) (hrow : Node.Row low high cs)
    (hbound : high ≤ f.parsed.input.size) :
    Spread f (CoveredBy (fun _ => True) cs) (visitArguments f parent cs) := by
  cases cs with
  | nil =>
    unfold visitArguments
    exact spread_nil f _
  | cons c cs =>
    have hplaced : Placed f c :=
      ⟨hrow.nests c List.mem_cons_self,
        Nat.le_trans (hrow.inside c List.mem_cons_self).2 hbound⟩
    have htail := spread_visitArguments hplaces parent cs c.stop high hrow.tail hbound
    unfold visitArguments
    refine (Spread.append (P := c.Covers) hplaces ?_ htail ?_).mono ?_
    · split
      · exact spread_nil f _
      · next hkind =>
        split
        · exact hplaced.spread (by simpa using hkind) ..
        · exact spread_visit hplaces .plain parent c hplaced
    · intro i hi hlater
      have hstop := hlater.within hrow.tail
      unfold Node.Covers at hi
      omega
    · rintro i (hi | ⟨d, hd, -, hi⟩)
      · exact ⟨c, List.mem_cons_self, trivial, hi⟩
      · exact ⟨d, List.mem_cons_of_mem _ hd, trivial, hi⟩

theorem spread_visitFirst (hplaces : f.parsed.input.Separates) (parent : Kind) (cs : List Node)
    (low high : Nat) (hrow : Node.Row low high cs) (hbound : high ≤ f.parsed.input.size) :
    Spread f (CoveredBy (fun _ => True) cs) (visitFirst f parent cs) := by
  cases cs with
  | nil =>
    unfold visitFirst
    exact spread_nil f _
  | cons c cs =>
    have hplaced : Placed f c :=
      ⟨hrow.nests c List.mem_cons_self,
        Nat.le_trans (hrow.inside c List.mem_cons_self).2 hbound⟩
    unfold visitFirst
    split
    · exact (spread_visitFirst hplaces parent cs c.stop high hrow.tail hbound).mono
        fun i ⟨d, hd, _, hi⟩ => ⟨d, List.mem_cons_of_mem _ hd, trivial, hi⟩
    · exact (spread_visit hplaces .plain parent c hplaced).mono
        fun i hi => ⟨c, List.mem_cons_self, trivial, hi⟩

end

/-! Whole files -/

/-- The tree of a text that was read. -/
theorem parsed_of_parse? {d : Dialect} {content : String} {p : Parsed}
    (h : parse? d content = some p) :
    p.input = Input.ofString content ∧
      ∃ cs, p.root = Node.mk .program none 0 p.input.size cs ∧
        Node.Row 0 p.input.size cs := by
  obtain ⟨hinput, hnests, items, stop, hroot, -⟩ := exists_run_of_parse? h
  refine ⟨hinput, _, hroot, Node.row_of_nestsFrom ?_⟩
  rw [hroot] at hnests
  exact hnests

theorem parse?_of_parseFile {path content : String} {p : Parsed}
    (h : parseFile path content = .ok p) : ∃ d, parse? d content = some p := by
  unfold parseFile at h
  split at h
  · simp at h
  · next d _ =>
    split at h
    · next q hq =>
      obtain rfl := Except.ok.inj h
      exact ⟨d, hq⟩
    · simp at h

/-- The references of a file are spread over its positions. -/
theorem spread_extract {path content : String} {p : Parsed} (h : parseFile path content = .ok p) :
    ∃ P, Spread ⟨path, p⟩ P (extract path p) := by
  obtain ⟨d, hparse⟩ := parse?_of_parseFile h
  obtain ⟨hinput, cs, hroot, hrow⟩ := parsed_of_parse? hparse
  have hplaces : p.input.Separates := hinput ▸ Input.separates_ofString content
  unfold extract
  rw [hroot]
  unfold visit
  exact ⟨_, spread_visitAll (f := ⟨path, p⟩) hplaces _ _ cs 0 p.input.size hrow (Nat.le_refl _)⟩

/-- No two references of a file stand at the same place. -/
theorem nodup_sites {path content : String} {p : Parsed} (h : parseFile path content = .ok p) :
    ((extract path p).map site).Nodup := by
  obtain ⟨P, hspread⟩ := spread_extract h
  exact hspread.distinct

end References

/-- The references of an extraction stand at different places. -/
theorem extractFile_sites {path content : String} {x : Extraction}
    (h : extractFile path content = .ok x) : (x.references.map References.site).Nodup := by
  obtain ⟨p, hp, -, hreferences⟩ := extractFile_eq_ok h
  rw [hreferences, List.map_map]
  exact References.nodup_sites hp

end CodeIndex.Extract
