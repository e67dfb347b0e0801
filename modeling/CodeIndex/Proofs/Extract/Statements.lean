import CodeIndex.Proofs.Extract.Locals

/-!
The statements that declarations belong to. A declaration belongs to the export statement that
exports it; one that is not exported stands for itself, and a variable belongs to the statement that
declares it. So each declaration has one statement under one parent, and it is there that the
traversal looks for documentation.
-/
namespace CodeIndex.Extract

open Source

namespace Symbols

/-! Statements -/

/-- An export statement exports its children and, where one of them stands for what it holds, the
children of that one as well. -/
inductive Exports : Node → Node → Prop where
  | child {e c : Node} (hkind : e.kind = .exportStatement) (hc : c ∈ e.children) : Exports e c
  | inside {e n c : Node} (h : Exports e n) (hkind : n.kind.isTransparent = true)
      (hc : c ∈ n.children) : Exports e c

/-- The statement that a declaration belongs to. A variable is exported with the statement that
declares it, and only as a child of the export statement: the variables of an ambient declaration
belong to the statement inside it. -/
inductive StatementOf (p : Parsed) : Node → Node → Prop where
  | own {n : Node} (hkind : n.kind ≠ .variableDeclarator)
      (hnone : ∀ e ∈ p.root.preorder, ¬Exports e n) : StatementOf p n n
  | exported {e n : Node} (hkind : n.kind ≠ .variableDeclarator) (he : e ∈ p.root.preorder)
      (h : Exports e n) : StatementOf p e n
  | declarator {d n : Node} (hkind : n.kind = .variableDeclarator) (hd : d ∈ p.root.preorder)
      (hn : n ∈ d.children)
      (hnone : ∀ e ∈ p.root.preorder, e.kind = .exportStatement → d ∉ e.children) :
      StatementOf p d n
  | exportedDeclarator {e d n : Node} (hkind : n.kind = .variableDeclarator)
      (he : e ∈ p.root.preorder) (hexport : e.kind = .exportStatement) (hd : d ∈ e.children)
      (hn : n ∈ d.children) : StatementOf p e n

/-- The statement of a declaration under its parent. -/
structure Belongs (p : Parsed) (parent statement n : Node) : Prop where
  statementOf : StatementOf p statement n
  below : parent ∈ p.root.preorder
  child : statement ∈ parent.children

variable {p : Parsed} {f : File} {ctx : Context} {parent statement e e' n b c : Node}
  {own : Documentation.Anchor}

theorem Exports.isAbove (h : Exports e n) : e.IsAbove n := by
  induction h with
  | child _ hc => exact Node.isAbove_child hc
  | inside _ _ hc ih => exact ih.child hc

theorem StatementOf.mem_preorder (h : StatementOf p statement n) : n ∈ statement.preorder := by
  cases h with
  | own => exact statement.self_mem_preorder
  | exported _ _ h => exact h.isAbove.mem_preorder
  | declarator _ _ hn => exact Node.child_mem_preorder hn
  | exportedDeclarator _ _ _ hd hn => exact ((Node.isAbove_child hd).child hn).mem_preorder

section Unique

variable (hread : Read p)
include hread

/-- What holds a node that is not empty is not empty. -/
theorem lt_of_mem_preorder (hn : n ∈ p.root.preorder) (hc : c ∈ n.preorder)
    (hlt : c.start < c.stop) : n.start < n.stop := by
  obtain ⟨hrow, -⟩ := Node.row_of_mem_preorder hread.row hn
  obtain ⟨-, hstart, hstop⟩ := Node.row_of_mem_preorder hrow hc
  omega

theorem parent_unique {a b : Node} (ha : a ∈ p.root.preorder) (hb : b ∈ p.root.preorder)
    (hca : c ∈ a.children) (hcb : c ∈ b.children) (hlt : c.start < c.stop) : a = b :=
  Node.parent_unique hread.row ha hb hca hcb hlt

/-- A child is exported by its parent, or with it. -/
theorem Exports.of_child (h : Exports e c) (he : e ∈ p.root.preorder) (hn : n ∈ p.root.preorder)
    (hc : c ∈ n.children) (hlt : c.start < c.stop) :
    (e = n ∧ n.kind = .exportStatement) ∨ (n.kind.isTransparent = true ∧ Exports e n) := by
  cases h with
  | child hkind hc' =>
    obtain rfl := parent_unique hread he hn hc' hc hlt
    exact .inl ⟨rfl, hkind⟩
  | inside h hkind hc' =>
    have hbelow := Node.preorder_subset he h.isAbove.mem_preorder
    obtain rfl := parent_unique hread hbelow hn hc' hc hlt
    exact .inr ⟨hkind, h⟩

theorem exports_unique (h : Exports e n) (h' : Exports e' n) (he : e ∈ p.root.preorder)
    (he' : e' ∈ p.root.preorder) (hlt : n.start < n.stop) : e = e' := by
  induction h with
  | child hkind hc =>
    rcases h'.of_child hread he' he hc hlt with ⟨heq, -⟩ | ⟨htransparent, -⟩
    · exact heq.symm
    · rw [hkind] at htransparent
      cases htransparent
  | @inside n c h hkind hc ih =>
    have hn := Node.preorder_subset he h.isAbove.mem_preorder
    rcases h'.of_child hread he' hn hc hlt with ⟨-, hexport⟩ | ⟨-, h'⟩
    · rw [hexport] at hkind
      cases hkind
    · exact ih h' (lt_of_mem_preorder hread hn (Node.child_mem_preorder hc) hlt)

/-- A declaration belongs to one statement. -/
theorem statement_unique {statement' : Node} (h : StatementOf p statement n)
    (h' : StatementOf p statement' n) (hlt : n.start < n.stop) : statement = statement' := by
  cases h with
  | own hkind hnone =>
    cases h' with
    | own => rfl
    | exported _ he' h' => exact absurd h' (hnone _ he')
    | declarator hkind' => exact absurd hkind' hkind
    | exportedDeclarator hkind' => exact absurd hkind' hkind
  | exported hkind he h =>
    cases h' with
    | own _ hnone => exact absurd h (hnone _ he)
    | exported _ he' h' => exact exports_unique hread h h' he he' hlt
    | declarator hkind' => exact absurd hkind' hkind
    | exportedDeclarator hkind' => exact absurd hkind' hkind
  | declarator hkind hd hn hnone =>
    cases h' with
    | own hkind' => exact absurd hkind hkind'
    | exported hkind' => exact absurd hkind hkind'
    | declarator _ hd' hn' => exact parent_unique hread hd hd' hn hn' hlt
    | exportedDeclarator _ he' hexport hd' hn' =>
      have hbelow := Node.mem_preorder_child he' hd'
      obtain rfl := parent_unique hread hd hbelow hn hn' hlt
      exact absurd hd' (hnone _ he' hexport)
  | exportedDeclarator hkind he hexport hd hn =>
    have hbelow := Node.mem_preorder_child he hd
    cases h' with
    | own hkind' => exact absurd hkind hkind'
    | exported hkind' => exact absurd hkind hkind'
    | declarator _ hd' hn' hnone =>
      obtain rfl := parent_unique hread hbelow hd' hn hn' hlt
      exact absurd hd (hnone _ he hexport)
    | exportedDeclarator _ he' _ hd' hn' =>
      have hbelow' := Node.mem_preorder_child he' hd'
      obtain rfl := parent_unique hread hbelow hbelow' hn hn' hlt
      have hdlt := lt_of_mem_preorder hread hbelow (Node.child_mem_preorder hn) hlt
      exact parent_unique hread he he' hd hd' hdlt

theorem Belongs.unique {parent' statement' : Node} (h : Belongs p parent statement n)
    (h' : Belongs p parent' statement' n) (hlt : n.start < n.stop) :
    parent = parent' ∧ statement = statement' := by
  obtain rfl := statement_unique hread h.statementOf h'.statementOf hlt
  have hbelow := Node.mem_preorder_child h.below h.child
  have hslt := lt_of_mem_preorder hread hbelow h.statementOf.mem_preorder hlt
  exact ⟨parent_unique hread h.below h'.below h.child h'.child hslt, rfl⟩

end Unique

/-! Contexts -/

/-- A statement under its parent, with what its documentation is sought by. -/
structure Stands (p : Parsed) (parent statement : Node) (a : Documentation.Anchor) : Prop where
  below : parent ∈ p.root.preorder
  place : ∃ earlier later, parent.children = earlier ++ statement :: later ∧
    a.before = earlier.foldl nearer none
  start : a.start = statement.start

theorem Stands.child {a : Documentation.Anchor} (h : Stands p parent statement a) :
    statement ∈ parent.children := by
  obtain ⟨earlier, later, hchildren, -⟩ := h.place
  exact hchildren ▸ List.mem_append_right _ List.mem_cons_self

theorem Stands.mem_preorder {a : Documentation.Anchor} (h : Stands p parent statement a) :
    statement ∈ p.root.preorder :=
  Node.mem_preorder_child h.below h.child

theorem ChildAt.stands (h : ChildAt parent c own) (hparent : parent ∈ p.root.preorder) :
    Stands p parent c own := ⟨hparent, h.place, h.start⟩

/-- The scope of a node is the export statement that exports it. -/
structure ScopeOf (p : Parsed) (n : Node) (scope : Option Documentation.Anchor) : Prop where
  found : ∀ a, scope = some a → ∃ outer e, Stands p outer e a ∧ Exports e n
  none : scope = none → n.start < n.stop → ∀ e ∈ p.root.preorder, ¬Exports e n

/-- The parent of a node as the traversal knows it: an export statement or not. -/
structure ParentOf (p : Parsed) (parent : Node) (exporting : Option Documentation.Anchor) :
    Prop where
  found : ∀ a, exporting = some a →
    parent.kind = .exportStatement ∧ ∃ outer, Stands p outer parent a
  none : exporting = none → parent.kind ≠ .exportStatement

/-- A visited node with the statements that its context speaks of. -/
structure VisitedIn (p : Parsed) (ctx : Context) (parent : Node) (own : Documentation.Anchor)
    (n : Node) : Prop where
  stands : Stands p parent n own
  scope : ScopeOf p n ctx.exportScope
  direct : ParentOf p parent ctx.exportParent

/-- The statement of a declaration is where its documentation is sought. -/
theorem VisitedIn.stands_docAnchor (h : VisitedIn p ctx parent own n) (hlt : n.start < n.stop)
    (hkind : n.kind ≠ .variableDeclarator) : ∃ outer statement, StatementOf p statement n ∧
      Stands p outer statement (ctx.docAnchor own) := by
  unfold Context.docAnchor
  cases hscope : ctx.exportScope with
  | none => exact ⟨parent, n, .own hkind (h.scope.none hscope hlt), h.stands⟩
  | some a =>
    obtain ⟨outer, e, hstands, hexports⟩ := h.scope.found a hscope
    exact ⟨outer, e, .exported hkind hstands.mem_preorder hexports, hstands⟩

theorem parentOf_none (hkind : parent.kind ≠ .exportStatement) : ParentOf p parent none :=
  ⟨nofun, fun _ => hkind⟩

theorem ne_export_of_isTransparent {k : Kind} (h : k.isTransparent = true) :
    k ≠ .exportStatement := by
  rintro rfl
  cases h

theorem ne_export_of_isBody {k : Kind} (h : k.isBody = true) : k ≠ .exportStatement := by
  rintro rfl
  cases h

section Visits

variable (hread : Read p)
include hread

/-- Nothing exports what stands under a node that neither exports nor stands for what it holds. -/
theorem not_exports_child (hn : n ∈ p.root.preorder) (hkind : n.kind ≠ .exportStatement)
    (htransparent : n.kind.isTransparent = false) (hc : c ∈ n.children) (hlt : c.start < c.stop)
    (he : e ∈ p.root.preorder) : ¬Exports e c := by
  intro h
  rcases h.of_child hread he hn hc hlt with ⟨-, hexport⟩ | ⟨h, -⟩
  · exact hkind hexport
  · rw [htransparent] at h
    cases h

/-- What stands in a body is not exported with the declaration that the body belongs to. -/
theorem visitedIn_body (hn : n ∈ p.root.preorder) (hkind : n.kind ≠ .exportStatement)
    (htransparent : n.kind.isTransparent = false) (hb : b ∈ n.children)
    (hbody : b.kind.isBody = true) (hc : ChildAt b c own) (hscope : ctx.exportScope = none)
    (hdirect : ctx.exportParent = none) : VisitedIn p ctx b own c := by
  have hbelow := Node.mem_preorder_child hn hb
  refine ⟨hc.stands hbelow, ?_, hdirect ▸ parentOf_none (ne_export_of_isBody hbody)⟩
  rw [hscope]
  refine ⟨nofun, fun _ hlt e he h => ?_⟩
  have hblt := lt_of_mem_preorder hread hbelow (Node.child_mem_preorder hc.mem) hlt
  rcases h.of_child hread he hbelow hc.mem hlt with ⟨-, hexport⟩ | ⟨-, h⟩
  · exact ne_export_of_isBody hbody hexport
  · exact not_exports_child hread hn hkind htransparent hb hblt he h

theorem Visited.visitedIn (h : Visited p.root ctx parent own n) :
    VisitedIn p ctx parent own n := by
  induction h with
  | top hc =>
    have hroot : p.root.kind ≠ .exportStatement := by rw [hread.root.1]; decide
    have htransparent : p.root.kind.isTransparent = false := by rw [hread.root.1]; rfl
    have hmem := p.root.self_mem_preorder
    exact ⟨hc.stands hmem, ⟨nofun, fun _ hlt e he =>
      not_exports_child hread hmem hroot htransparent hc.mem hlt he⟩, parentOf_none hroot⟩
  | @exported ctx outer n c own a h hkind hc _ ih =>
    refine ⟨hc.stands h.node, ⟨fun a ha => ?_, nofun⟩, ⟨fun a ha => ?_, nofun⟩⟩
    · obtain rfl := Option.some.inj ha
      exact ⟨outer, n, ih.stands, .child hkind hc.mem⟩
    · obtain rfl := Option.some.inj ha
      exact ⟨hkind, outer, ih.stands⟩
  | @wrapped ctx outer n c own a h hencloses hc ih =>
    have htransparent := hencloses.isTransparent
    have hkind := ne_export_of_isTransparent htransparent
    refine ⟨hc.stands h.node, ⟨fun a ha => ?_, fun hscope hlt e he h' => ?_⟩, parentOf_none hkind⟩
    · obtain ⟨outer, e, hstands, hexports⟩ := ih.scope.found a ha
      exact ⟨outer, e, hstands, hexports.inside htransparent hc.mem⟩
    · rcases h'.of_child hread he h.node hc.mem hlt with ⟨-, hexport⟩ | ⟨-, h'⟩
      · exact hkind hexport
      · have hnlt := lt_of_mem_preorder hread h.node (Node.child_mem_preorder hc.mem) hlt
        exact ih.scope.none hscope hnlt e he h'
  | body h hkind hbody hb hrole hc ih =>
    obtain ⟨-, htransparent, hexport, -⟩ := kind_of_declaredKind hkind
    have hshape := (hread.shaped _ h.node).body (kind_of_bodyContainer hkind hbody).1 hb hrole
    exact visitedIn_body hread h.node hexport htransparent hb hshape hc rfl rfl
  | exportedBody h hkind hv _ hclass hb hrole hc ih =>
    have hbelow := Node.mem_preorder_child h.node hv
    have hshape := (hread.shaped _ hbelow).body (by simp [hclass]) hb hrole
    exact visitedIn_body hread hbelow (by rw [hclass]; decide) (by rw [hclass]; rfl) hb hshape hc
      rfl rfl

/-- The statement of a variable is where its documentation is sought. -/
theorem VisitedIn.stands_declarator (h : VisitedIn p ctx parent own n) (hc : c ∈ n.children)
    (hkind : c.kind = .variableDeclarator) (hlt : n.start < n.stop) :
    ∃ outer statement, StatementOf p statement c ∧
      Stands p outer statement (ctx.exportParent.getD own) := by
  cases hexport : ctx.exportParent with
  | none =>
    refine ⟨parent, n, .declarator hkind h.stands.mem_preorder hc fun e he hstatement hn => ?_,
      h.stands⟩
    obtain rfl := parent_unique hread he h.stands.below hn h.stands.child hlt
    exact h.direct.none hexport hstatement
  | some a =>
    obtain ⟨hstatement, outer, hstands⟩ := h.direct.found a hexport
    exact ⟨outer, parent, .exportedDeclarator hkind h.stands.below hstatement h.stands.child hc,
      hstands⟩

end Visits

end Symbols

end CodeIndex.Extract
