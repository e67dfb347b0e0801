import CodeIndex.Proofs.Extract.UseSites
import CodeIndex.Proofs.Source.Ancestors
import CodeIndex.Proofs.Source.Tiling

/-!
Symbols are not local. The traversal goes down through exports, blocks, namespaces and the bodies of
declarations, and none of these is a function, so no function stands above what it comes to. Where
it declares members, it has come through the body of their owner, whose lines hold theirs.
-/
namespace CodeIndex.Source

namespace Kind

/-- Functions, generators, arrow functions and methods, their signatures included. -/
def isCallable : Kind → Bool
  | .functionDeclaration | .generatorFunctionDeclaration | .functionSignature
  | .functionExpression | .generatorFunction | .arrowFunction | .methodDefinition
  | .methodSignature | .abstractMethodSignature => true
  | _ => false

/-- Classes, interfaces and enums. -/
def hasMembers : Kind → Bool
  | .classDeclaration | .abstractClassDeclaration | .classExpression | .interfaceDeclaration
  | .enumDeclaration => true
  | _ => false

/-- Neither punctuation nor a whole file; such a node is not empty. -/
def isSolid : Kind → Bool
  | .token | .program => false
  | _ => true

/-- The nodes that stand for what they hold. -/
def isTransparent : Kind → Bool
  | .ambientDeclaration | .statementBlock | .expressionStatement => true
  | _ => false

theorem isSolid_of_isTransparent {k : Kind} (h : k.isTransparent = true) :
    k.isSolid = true ∧ k.isCallable = false := by
  unfold isTransparent at h
  split at h
  all_goals first | exact ⟨rfl, rfl⟩ | cases h

theorem isSolid_of_isBody {k : Kind} (h : k.isBody = true) :
    k.isSolid = true ∧ k.isCallable = false := by
  unfold isBody at h
  split at h
  all_goals first | exact ⟨rfl, rfl⟩ | cases h

theorem isSolid_of_isFunctionValue {k : Kind} (h : k.isFunctionValue = true) :
    k.isSolid = true := by
  unfold isFunctionValue at h
  split at h
  all_goals first | rfl | cases h

end Kind

end CodeIndex.Source

namespace CodeIndex.Extract

open Source Symbols

/-- What is known of a tree that was read. -/
structure Read (p : Parsed) : Prop where
  row : Node.Row p.root.start p.root.stop p.root.children
  shaped : p.root.AllShaped
  spaced : p.root.AllSpaced p.input
  root : p.root.kind = .program ∧ p.root.start = 0
  named : ∀ c ∈ p.root.children, c.kind ≠ .token

theorem read_of_parse? {d : Dialect} {content : String} {p : Parsed}
    (h : parse? d content = some p) : Read p := by
  obtain ⟨-, cs, hroot, -⟩ := References.parsed_of_parse? h
  exact ⟨Node.row_of_nestsFrom (nestsInside_of_parse? h), allShaped_of_parse? h,
    allSpaced_of_parse? h, by rw [hroot]; exact ⟨rfl, rfl⟩, fun _ => ne_token_of_parse? h⟩

variable {p : Parsed} {ctx : Context} {parent n a b c : Node} {own : Documentation.Anchor}

/-! Lines -/

theorem Read.inside (h : Read p) (hn : n ∈ p.root.preorder) :
    n.start ≤ n.stop ∧ p.root.start ≤ n.start ∧ n.stop ≤ p.root.stop := by
  obtain ⟨hrow, hinside⟩ := Node.row_of_mem_preorder h.row hn
  exact ⟨hrow.low_le_high, hinside⟩

theorem Read.start_lt_stop (h : Read p) (hn : n ∈ p.root.preorder)
    (hkind : n.kind.isSolid = true) : n.start < n.stop := by
  rcases Node.nests_of_mem_preorder h.row hn with rfl | hnests
  · rw [h.root.1] at hkind
    cases hkind
  · refine Node.start_lt_stop hnests (.inl ?_)
    rintro htoken
    rw [htoken] at hkind
    cases hkind

/-- The lines of the nodes of a file. -/
structure Lined (p : Parsed) : Prop where
  first : ∀ n ∈ p.root.preorder, 1 ≤ p.startLine n
  last : ∀ n ∈ p.root.preorder, p.startLine n ≤ p.endLine n
  inside : ∀ a ∈ p.root.preorder, ∀ n ∈ a.preorder,
    p.startLine a ≤ p.startLine n ∧ p.endLine n ≤ p.endLine a

theorem lined_of_parse? {d : Dialect} {content : String} (h : parse? d content = some p) :
    Lined p := by
  have hread := read_of_parse? h
  obtain ⟨hinput, cs, hroot, -⟩ := References.parsed_of_parse? h
  have hordered : p.input.Ordered := hinput ▸ Input.ordered_ofString content
  have hsize : p.root.stop = p.input.size := by rw [hroot, Node.stop]
  have hline : ∀ {i j : Nat}, i ≤ j → j ≤ p.root.stop → p.lineOf i ≤ p.lineOf j :=
    fun hij hj => hordered.line_le hij (hsize ▸ hj)
  have hone : p.lineOf 0 = 1 := by rw [Parsed.lineOf, hinput, Input.line_zero]
  refine ⟨fun n hn => ?_, fun n hn => ?_, fun a ha n hn => ?_⟩
  · obtain ⟨hrange, -, hstop⟩ := hread.inside hn
    exact hone ▸ hline (Nat.zero_le n.start) (Nat.le_trans hrange hstop)
  · obtain ⟨hrange, -, hstop⟩ := hread.inside hn
    exact hline hrange hstop
  · obtain ⟨harow, -, hstop⟩ := Node.row_of_mem_preorder hread.row ha
    obtain ⟨hnrow, hstart, hinside⟩ := Node.row_of_mem_preorder harow hn
    have hrange := hnrow.low_le_high
    exact ⟨hline hstart (by omega), hline hinside hstop⟩

/-! What stands above a declaration -/

namespace Symbols

/-- No function stands above a node of a tree. -/
def Outer (root n : Node) : Prop :=
  ∀ a ∈ root.preorder, a.IsAbove n → a.kind.isCallable = false

theorem outer_root (root : Node) : Outer root root := by
  intro a ha habove
  rcases Node.mem_preorder_iff_isAbove.mp ha with rfl | hbelow
  · exact absurd habove (Node.IsAbove.irrefl _)
  · exact absurd (hbelow.trans_mem habove.mem_preorder) (Node.IsAbove.irrefl _)

/-- From a node that is no function to a child. -/
theorem Outer.child (h : Outer p.root n) (hread : Read p) (hn : n ∈ p.root.preorder)
    (hkind : n.kind.isCallable = false) (hc : c ∈ n.children) (hlt : c.start < c.stop) :
    Outer p.root c := by
  intro a ha habove
  rcases habove.of_child hread.row ha hn hc hlt with rfl | habove
  · exact hkind
  · exact h a ha habove

/-- The declarations with a body that is visited, and what their bodies hold. -/
theorem kind_of_bodyContainer {container inner : Container} {kind : SymbolKind}
    (h : declaredKind container n = some kind) (hbody : bodyContainer kind = some inner) :
    n.kind ∈ [.classDeclaration, .abstractClassDeclaration, .classExpression,
        .interfaceDeclaration, .enumDeclaration, .module, .internalModule] ∧
      (inner ≠ .module → n.kind.hasMembers = true) := by
  unfold declaredKind at h
  split at h
  case h_16 =>
    -- a field has no body that is visited
    split at h <;> cases h <;> cases hbody
  all_goals cases h <;> cases hbody
  all_goals
    next hkind =>
      rw [hkind]
      first
        | exact ⟨by decide, fun _ => rfl⟩
        | exact ⟨by decide, fun hmodule => absurd rfl hmodule⟩

/-- Members are declared in the bodies of their owners alone. -/
theorem not_isMember_of_module {kind : SymbolKind} (h : declaredKind .module n = some kind) :
    kind.isMember = false := by
  unfold declaredKind at h
  split at h <;> first
    | cases h <;> rfl
    | contradiction

/-- What stands above a visited node: no function, and the owner where members are declared. -/
structure Above (p : Parsed) (container : Container) (n : Node) : Prop where
  outer : n.start < n.stop → Outer p.root n
  owner : container ≠ .module → ∃ owner ∈ p.root.preorder, owner.kind.hasMembers = true ∧
    owner.IsAbove n

/-- From a node that keeps its content in its own container. -/
theorem Above.child {container : Container} (h : Above p container n) (hread : Read p)
    (hn : n ∈ p.root.preorder) (hsolid : n.kind.isSolid = true)
    (hkind : n.kind.isCallable = false) (hc : c ∈ n.children) : Above p container c where
  outer := (h.outer (hread.start_lt_stop hn hsolid)).child hread hn hkind hc
  owner hmodule := by
    obtain ⟨owner, howner, hmembers, habove⟩ := h.owner hmodule
    exact ⟨owner, howner, hmembers, habove.child hc⟩

/-- From a declaration into its body. -/
theorem Above.body {container inner : Container} (h : Above p container n) (hread : Read p)
    (hn : n ∈ p.root.preorder)
    (hkind : n.kind ∈ [.classDeclaration, .abstractClassDeclaration, .classExpression,
      .interfaceDeclaration, .enumDeclaration, .module, .internalModule])
    (howner : inner ≠ .module → n.kind.hasMembers = true) (hb : b ∈ n.children)
    (hrole : b.role = some .body) (hc : c ∈ b.children) : Above p inner c := by
  have hown : n.kind.isSolid = true ∧ n.kind.isCallable = false := by
    simp only [List.mem_cons, List.not_mem_nil, or_false] at hkind
    rcases hkind with hk | hk | hk | hk | hk | hk | hk <;> rw [hk] <;> exact ⟨rfl, rfl⟩
  have hbody := Kind.isSolid_of_isBody ((hread.shaped n hn).body hkind hb hrole)
  have hbelow := Node.mem_preorder_child hn hb
  have habove := (h.child hread hn hown.1 hown.2 hb).child hread hbelow hbody.1 hbody.2 hc
  refine ⟨habove.outer, fun hmodule => ?_⟩
  exact ⟨n, hn, howner hmodule, (Node.isAbove_child hb).child hc⟩

theorem Encloses.isTransparent {container : Container} (h : Encloses container n c) :
    n.kind.isTransparent = true := by
  cases h with
  | ambient hkind => rw [hkind]; rfl
  | block hkind => rw [hkind]; rfl
  | statement hkind => rw [hkind]; rfl

theorem Visited.node (h : Visited p.root ctx parent own n) : n ∈ p.root.preorder := by
  induction h with
  | top hc => exact Node.child_mem_preorder hc.mem
  | exported _ _ hc _ ih => exact Node.mem_preorder_child ih hc.mem
  | wrapped _ _ hc ih => exact Node.mem_preorder_child ih hc.mem
  | body _ _ _ hb _ hc ih =>
    have hbelow := Node.mem_preorder_child ih hb
    exact Node.mem_preorder_child hbelow hc.mem
  | exportedBody _ _ hv _ _ hb _ hc ih =>
    have hvalue := Node.mem_preorder_child ih hv
    have hbelow := Node.mem_preorder_child hvalue hb
    exact Node.mem_preorder_child hbelow hc.mem

theorem Visited.above (h : Visited p.root ctx parent own n) (hread : Read p) :
    Above p ctx.container n := by
  induction h with
  | top hc =>
    have hcallable : p.root.kind.isCallable = false := by rw [hread.root.1]; rfl
    exact ⟨(outer_root p.root).child hread p.root.self_mem_preorder hcallable hc.mem,
      fun hmodule => absurd rfl hmodule⟩
  | exported h hkind hc _ ih =>
    exact ih.child hread h.node (by rw [hkind]; rfl) (by rw [hkind]; rfl) hc.mem
  | wrapped h hencloses hc ih =>
    obtain ⟨hsolid, hcallable⟩ := Kind.isSolid_of_isTransparent hencloses.isTransparent
    exact ih.child hread h.node hsolid hcallable hc.mem
  | body h hkind hbody hb hrole hc ih =>
    obtain ⟨hmem, howner⟩ := kind_of_bodyContainer hkind hbody
    exact ih.body hread h.node hmem howner hb hrole hc.mem
  | exportedBody h hkind hv _ hclass hb hrole hc ih =>
    have hvalue := ih.child hread h.node (by rw [hkind]; rfl) (by rw [hkind]; rfl) hv
    have hbelow := Node.mem_preorder_child h.node hv
    exact hvalue.body hread hbelow (by simp [hclass]) (fun _ => by rw [hclass]; rfl) hb hrole
      hc.mem

/-- A symbol has the name and the lines of a node. -/
structure Describes (p : Parsed) (s : Symbol) (n : Node) : Prop where
  node : n ∈ p.root.preorder
  name : ∃ ctx, name? p ctx n = some s.name
  first : s.lineStart = p.startLine n
  last : s.lineEnd = p.endLine n

theorem describes_declare {f : File} {kind : SymbolKind} {s : Symbol} {a : Documentation.Anchor}
    (hn : n ∈ f.parsed.root.preorder) (h : declare f ctx n a kind = some s) :
    Describes f.parsed s n := by
  obtain ⟨name, hname, rfl⟩ := Option.map_eq_some_iff.mp h
  exact ⟨hn, ⟨ctx, hname⟩, rfl, rfl⟩

theorem DeclaredAt.describes {f : File} {s : Symbol} (h : DeclaredAt f s n) :
    Describes f.parsed s n := by
  cases h with
  | plain h _ hs => exact describes_declare h.node hs
  | declarator h _ _ hd _ hs _ =>
    exact describes_declare (Node.mem_preorder_child h.node hd) hs
  | value h _ hv _ _ hs =>
    exact describes_declare (Node.mem_preorder_child h.node hv) hs

/-- A mark of being exported changes nothing else. -/
theorem markExported_eq (names : List String) (s : Symbol) :
    ∃ marked, markExported names s = { s with isExported := marked } := by
  unfold markExported
  split
  · exact ⟨true, rfl⟩
  · exact ⟨s.isExported, rfl⟩

theorem DeclaredBy.describes {path : String} {s : Symbol} (h : DeclaredBy path p s n) :
    Describes p s n := by
  obtain ⟨x, names, hx, rfl⟩ := h.declared
  obtain ⟨marked, heq⟩ := markExported_eq names x
  rw [heq]
  exact { hx.describes with }

/-- A symbol with the node that it is declared at. -/
structure Placed (p : Parsed) (s : Symbol) (n : Node) : Prop where
  node : n ∈ p.root.preorder
  first : s.lineStart = p.startLine n
  last : s.lineEnd = p.endLine n
  outer : Outer p.root n
  owner : s.kind.isMember = true → ∃ owner ∈ p.root.preorder, owner.kind.hasMembers = true ∧
    owner.IsAbove n ∧ p.startLine owner ≤ s.lineStart ∧ s.lineEnd ≤ p.endLine owner

theorem kind_declare {f : File} {kind : SymbolKind} {s : Symbol} {a : Documentation.Anchor}
    (h : declare f ctx n a kind = some s) : s.kind = kind := by
  obtain ⟨name, -, rfl⟩ := Option.map_eq_some_iff.mp h
  rfl

/-- The kinds of declarations apart from variables. -/
theorem kind_of_declaredKind {container : Container} {kind : SymbolKind}
    (h : declaredKind container n = some kind) : n.kind.isSolid = true ∧
      n.kind.isTransparent = false ∧ n.kind ≠ .exportStatement ∧
        n.kind ≠ .variableDeclarator := by
  unfold declaredKind at h
  split at h
  case h_19 => cases h
  all_goals
    next hkind =>
      rw [hkind]
      decide

theorem valueKind_eq_some {k : Kind} {kind : SymbolKind} (h : valueKind k = some kind) :
    k.isSolid = true ∧ kind.isMember = false := by
  unfold valueKind at h
  split at h
  · next hfunction =>
    cases h
    exact ⟨Kind.isSolid_of_isFunctionValue hfunction, rfl⟩
  · split at h
    · next hclass =>
      cases h
      rw [beq_iff_eq.mp hclass]
      exact ⟨rfl, rfl⟩
    · cases h

/-- What stands above a declared symbol. -/
theorem DeclaredAt.above {f : File} {s : Symbol} (h : DeclaredAt f s n) (hread : Read f.parsed) :
    ∃ container, Above f.parsed container n ∧ n.kind.isSolid = true ∧
      (s.kind.isMember = true → container ≠ .module) := by
  cases h with
  | @plain ctx _ _ _ _ _ h hkind hs =>
    refine ⟨ctx.container, h.above hread, (kind_of_declaredKind hkind).1, ?_⟩
    rintro hmember hmodule
    rw [kind_declare hs, not_isMember_of_module (hmodule ▸ hkind)] at hmember
    cases hmember
  | @declarator ctx _ statement _ _ _ _ h _ hkind hd hdeclarator hs hvariable =>
    have hstatement : statement.kind.isSolid = true ∧ statement.kind.isCallable = false := by
      rcases hkind with hkind | hkind <;> rw [hkind] <;> exact ⟨rfl, rfl⟩
    refine ⟨ctx.container, (h.above hread).child hread h.node hstatement.1
      hstatement.2 hd, by rw [hdeclarator]; rfl, fun hmember => ?_⟩
    rw [kind_declare hs] at hmember
    rcases hvariable with rfl | rfl | rfl <;> cases hmember
  | @value ctx _ _ _ _ _ _ h hkind hv _ hvkind hs =>
    obtain ⟨hsolid, hnone⟩ := valueKind_eq_some hvkind
    refine ⟨ctx.container, (h.above hread).child hread h.node (by rw [hkind]; rfl)
      (by rw [hkind]; rfl) hv, hsolid, fun hmember => ?_⟩
    rw [kind_declare hs, hnone] at hmember
    cases hmember

/-- A declaration is not empty. -/
theorem DeclaredAt.start_lt_stop {f : File} {s : Symbol} (h : DeclaredAt f s n)
    (hread : Read f.parsed) : n.start < n.stop := by
  obtain ⟨_, -, hsolid, -⟩ := h.above hread
  exact hread.start_lt_stop h.describes.node hsolid

theorem DeclaredBy.start_lt_stop {path : String} {s : Symbol} (h : DeclaredBy path p s n)
    (hread : Read p) : n.start < n.stop := by
  obtain ⟨x, names, hx, -⟩ := h.declared
  exact hx.start_lt_stop hread

theorem DeclaredBy.placed {path : String} {s : Symbol} (h : DeclaredBy path p s n)
    (hread : Read p) (hlined : Lined p) : Placed p s n := by
  have hn := h.describes
  obtain ⟨x, names, hx, rfl⟩ := h.declared
  obtain ⟨marked, heq⟩ := markExported_eq names x
  rw [heq] at hn ⊢
  obtain ⟨container, habove, -, hmember⟩ := hx.above hread
  refine ⟨hn.node, hn.first, hn.last, habove.outer (hx.start_lt_stop hread), fun hkind => ?_⟩
  obtain ⟨owner, howner, hmembers, hbelow⟩ := habove.owner (hmember hkind)
  have hlines := hlined.inside owner howner n hbelow.mem_preorder
  rw [hn.first, hn.last]
  exact ⟨owner, howner, hmembers, hbelow, hlines⟩

end Symbols

/-- Symbols are not local, and their lines make sense. Every symbol of a file is declared at a node
of its tree, and wherever it is declared, no function stands above the node. Its lines are those of
the node, in order and counted from one, and if it is a member of a class, an interface or an enum,
they lie within the lines of such an owner above it. -/
theorem extractFile_placed {path content : String} {x : Extraction}
    (h : extractFile path content = .ok x) :
    ∃ p, parseFile path content = .ok p ∧ ∀ s ∈ x.symbols,
      (1 ≤ s.lineStart ∧ s.lineStart ≤ s.lineEnd) ∧ (∃ n, DeclaredBy path p s n) ∧
        ∀ n, DeclaredBy path p s n → Placed p s n := by
  obtain ⟨p, hp, hsymbols, -⟩ := extractFile_eq_ok h
  obtain ⟨d, hparse⟩ := References.parse?_of_parseFile hp
  have hread := read_of_parse? hparse
  have hlined := lined_of_parse? hparse
  refine ⟨p, hp, fun s hs => ?_⟩
  obtain ⟨n, hn⟩ := exists_declaredBy (hsymbols ▸ hs)
  have hplaced := hn.placed hread hlined
  refine ⟨?_, ⟨n, hn⟩, fun m hm => hm.placed hread hlined⟩
  rw [hplaced.first, hplaced.last]
  exact ⟨hlined.first n hplaced.node, hlined.last n hplaced.node⟩

/-- The variables of a method are no symbols, and the method lies within its class. -/
theorem extractFile_placed_method : ∃ x p s n owner,
    extractFile "a.ts" "class A {
  m() { let x = 1; }
}
" = .ok x ∧
      x.symbols.map Symbol.name = ["A", "m"] ∧ s ∈ x.symbols ∧ s.name = "m" ∧
      DeclaredBy "a.ts" p s n ∧ Placed p s n ∧ owner.kind.hasMembers = true ∧
      owner.IsAbove n ∧ p.startLine owner ≤ s.lineStart ∧ s.lineEnd ≤ p.endLine owner := by
  have hsite :
      (parseFile "a.ts" "class A {
  m() { let x = 1; }
}
").toOption.any (fun p =>
      (contents "a.ts" p).symbols.map Symbol.name == ["A", "m"] &&
        (contents "a.ts" p).symbols.any fun s => s.name == "m" && s.kind == .method) = true := by
    decide +kernel
  obtain ⟨p, hp, hx, htest⟩ := exists_parsed hsite
  simp only [Bool.and_eq_true, beq_iff_eq, List.any_eq_true] at htest
  obtain ⟨hnames, s, hs, hname, hkind⟩ := htest
  obtain ⟨q, hq, hplaced⟩ := extractFile_placed hx
  obtain rfl := Except.ok.inj (hp.symm.trans hq)
  obtain ⟨-, ⟨n, hn⟩, hall⟩ := hplaced s hs
  obtain ⟨owner, -, howner⟩ := (hall n hn).owner (by rw [hkind]; rfl)
  exact ⟨_, p, s, n, owner, hx, hnames, hs, hname, hn, hall n hn, howner⟩

end CodeIndex.Extract
