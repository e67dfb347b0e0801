import CodeIndex.Proofs.Extract.Statements

/-!
Where documentation comes from. It is the last comment before the statement of a declaration, and
the end of the nearest earlier sibling of the statement holds it back. So the comment stands right
before the statement under the same node, unless the statement is the first one there: then nothing
holds the comment back, and it may stand before that node.
-/
namespace CodeIndex.Extract

open Source

/-! Anchors -/

namespace Symbols

variable {p : Parsed} {n : Node} {s : Symbol}

/-- What a symbol has of its documentation: the statement of its declaration and what is found
there. -/
structure Sought (p : Parsed) (s : Symbol) (parent statement n : Node)
    (a : Documentation.Anchor) : Prop where
  belongs : StatementOf p statement n
  stands : Stands p parent statement a
  documentation : s.documentation = Documentation.of? p p.comments a

theorem sought_declare {f : File} {ctx : Context} {kind : SymbolKind} {parent statement : Node}
    {a : Documentation.Anchor} (hf : f.comments = f.parsed.comments)
    (hbelongs : StatementOf f.parsed statement n) (hstands : Stands f.parsed parent statement a)
    (h : declare f ctx n a kind = some s) : Sought f.parsed s parent statement n a := by
  obtain ⟨name, -, rfl⟩ := Option.map_eq_some_iff.mp h
  exact ⟨hbelongs, hstands, by rw [hf]⟩

theorem DeclaredAt.sought {f : File} (h : DeclaredAt f s n) (hread : Read f.parsed)
    (hf : f.comments = f.parsed.comments) :
    ∃ parent statement a, Sought f.parsed s parent statement n a := by
  have hlt := h.start_lt_stop hread
  cases h with
  | plain h hkind hs =>
    obtain ⟨-, -, -, hdeclarator⟩ := kind_of_declaredKind hkind
    obtain ⟨parent, statement, hbelongs, hstands⟩ :=
      (h.visitedIn hread).stands_docAnchor hlt hdeclarator
    exact ⟨parent, statement, _, sought_declare hf hbelongs hstands hs⟩
  | declarator h _ _ hd hdeclarator hs _ =>
    have hstatement := lt_of_mem_preorder hread h.node (Node.child_mem_preorder hd) hlt
    obtain ⟨parent, statement, hbelongs, hstands⟩ :=
      (h.visitedIn hread).stands_declarator hread hd hdeclarator hstatement
    exact ⟨parent, statement, _, sought_declare hf hbelongs hstands hs⟩
  | value h hkind hv _ hvkind hs =>
    have hdeclarator : n.kind ≠ .variableDeclarator := by
      intro heq
      rw [heq] at hvkind
      cases hvkind
    exact ⟨_, _, _, sought_declare hf (.exported hdeclarator h.node (.child hkind hv))
      (h.visitedIn hread).stands hs⟩

theorem DeclaredBy.sought {path : String} (h : DeclaredBy path p s n) (hread : Read p) :
    ∃ parent statement a, Sought p s parent statement n a := by
  obtain ⟨x, names, hx, rfl⟩ := h.declared
  obtain ⟨parent, statement, a, hsought⟩ := hx.sought hread rfl
  obtain ⟨marked, heq⟩ := markExported_eq names x
  rw [heq]
  exact ⟨parent, statement, a, hsought.belongs, hsought.stands, hsought.documentation⟩

end Symbols

/-! Comments -/

open Symbols

/-- What the documentation of a statement is found to be. -/
theorem exists_comment {p : Parsed} {comments : List Node} {a : Documentation.Anchor}
    {text : String} (h : Documentation.of? p comments a = some text) :
    ∃ c ∈ comments, (∃ before after, comments = before ++ c :: after ∧
        ∀ d ∈ after, a.start < d.stop) ∧
      c.stop ≤ a.start ∧ Documentation.isBlock (p.text c) = true ∧
      p.lineOf a.start ≤ p.endLine c + Documentation.window ∧
      (∀ stop, a.before = some stop → stop ≤ c.start) ∧
      text = Documentation.clean (p.text c) ∧ text ≠ "" := by
  have hnonEmpty : ∀ {s : String}, Documentation.of?.nonEmpty s = some text →
      text = s ∧ text ≠ "" := by
    intro s hs
    unfold Documentation.of?.nonEmpty at hs
    split at hs
    · cases hs
    · next hne =>
      obtain rfl := Option.some.inj hs
      exact ⟨rfl, by simpa using hne⟩
  unfold Documentation.of? at h
  split at h
  · cases h
  · next c hfind =>
    obtain ⟨hstop, later, earlier, hcomments, hlater⟩ := List.find?_eq_some_iff_append.mp hfind
    have hstop : c.stop ≤ a.start := by simpa using hstop
    have hlast : comments = earlier.reverse ++ c :: later.reverse := by
      simpa using congrArg List.reverse hcomments
    have hafter : ∀ d ∈ later.reverse, a.start < d.stop := fun d hd => by
      simpa using hlater d (List.mem_reverse.mp hd)
    have hmem : c ∈ comments := hlast ▸ List.mem_append_right _ List.mem_cons_self
    dsimp only at h
    split at h
    · cases h
    · next hblock =>
      simp only [Bool.or_eq_true, Bool.not_eq_true', decide_eq_true_eq, not_or, Nat.not_lt,
        Bool.not_eq_false] at hblock
      refine ⟨c, hmem, ⟨_, _, hlast, hafter⟩, hstop, hblock.1, by omega, ?_⟩
      split at h
      · next stop hbefore =>
        split at h
        · cases h
        · next hle =>
          refine ⟨fun stop' hstop' => ?_, hnonEmpty h⟩
          rw [hbefore] at hstop'
          obtain rfl := Option.some.inj hstop'
          omega
      · next hbefore =>
        refine ⟨fun stop' hstop' => ?_, hnonEmpty h⟩
        rw [hbefore] at hstop'
        cases hstop'

theorem foldl_nearer (cs : List Node) (s : Nat) : ∃ stop, cs.foldl nearer (some s) = some stop ∧
    (stop = s ∨ ∃ c ∈ cs, stop = c.stop) := by
  induction cs generalizing s with
  | nil => exact ⟨s, rfl, .inl rfl⟩
  | cons c cs ih =>
    rw [List.foldl_cons]
    unfold nearer
    split
    · obtain ⟨stop, hfold, hstop⟩ := ih c.stop
      refine ⟨stop, hfold, .inr ?_⟩
      rcases hstop with rfl | ⟨d, hd, rfl⟩
      · exact ⟨c, List.mem_cons_self, rfl⟩
      · exact ⟨d, List.mem_cons_of_mem _ hd, rfl⟩
    · obtain ⟨stop, hfold, hstop⟩ := ih s
      refine ⟨stop, hfold, hstop.imp_right ?_⟩
      rintro ⟨d, hd, rfl⟩
      exact ⟨d, List.mem_cons_of_mem _ hd, rfl⟩

/-- The nearest sibling ends no earlier than any other one. -/
theorem stop_le_foldl_nearer {low high : Nat} {cs : List Node} (hrow : Node.Row low high cs)
    {d : Node} (hd : d ∈ cs) (hnamed : d.isNamed = true) (hcomment : d.kind ≠ .comment)
    (found : Option Nat) : ∃ stop, cs.foldl nearer found = some stop ∧ d.stop ≤ stop := by
  obtain ⟨xs, ys, rfl⟩ := List.append_of_mem hd
  have hnearer : nearer (xs.foldl nearer found) d = some d.stop := by
    simp [nearer, hnamed, hcomment]
  obtain ⟨stop, hfold, hstop⟩ := foldl_nearer ys d.stop
  refine ⟨stop, by rw [List.foldl_append, List.foldl_cons, hnearer, hfold], ?_⟩
  rcases hstop with rfl | ⟨c, hc, rfl⟩
  · exact Nat.le_refl _
  · have hordered := List.pairwise_append.mp hrow.ordered
    have hle := (List.pairwise_cons.mp hordered.2.1).1 c hc
    have hrange := Node.start_le_stop
      (hrow.nests c (List.mem_append_right _ (List.mem_cons_of_mem _ hc)))
    omega

/-- A comment under the parent of a statement, with nothing but white space, comments and
punctuation of the parent between the two. -/
structure Adjacent (p : Parsed) (parent statement c : Node) : Prop where
  child : c ∈ parent.children
  between : ∃ tokens : List Node,
    (∀ d ∈ tokens, d ∈ parent.children ∧ d.kind = .token ∧ c.stop ≤ d.start ∧
      d.stop ≤ statement.start) ∧ Passes p.input tokens c.stop statement.start

/-- A comment before the parent of a statement that is the first one there. -/
structure Outside (parent statement c : Node) : Prop where
  before : c.stop ≤ parent.start
  first : ∀ d ∈ parent.children, d.isNamed = true → d.kind ≠ .comment → statement.start ≤ d.start

section

variable {p : Parsed} {parent statement c d : Node} {a : Documentation.Anchor}

theorem Read.mem_comment (h : Read p) (hc : c ∈ p.comments) :
    c ∈ p.root.preorder ∧ c.kind = .comment ∧ c.start < c.stop := by
  obtain ⟨hmem, hkind⟩ := List.mem_filter.mp hc
  have hcomment : c.kind = .comment := by simpa using hkind
  refine ⟨hmem, hcomment, ?_⟩
  rcases Node.nests_of_mem_preorder h.row hmem with rfl | hnests
  · rw [h.root.1] at hcomment
    cases hcomment
  · exact Node.start_lt_stop hnests (.inl (by rw [hcomment]; decide))

/-- Punctuation and comments have nothing below them. -/
theorem Read.eq_of_mem_leaf (h : Read p) (hd : d ∈ p.root.preorder)
    (hkind : d.kind = .token ∨ d.kind = .comment) (hc : c ∈ d.preorder) : c = d := by
  have hchildren := (h.shaped d hd).children_eq_nil (by rcases hkind with hk | hk <;> simp [hk])
  rcases Node.mem_preorder.mp hc with rfl | ⟨e, he, -⟩
  · rfl
  · rw [hchildren] at he
    cases he

theorem quiet_of_not_named (h : ¬ (d.isNamed = true ∧ d.kind ≠ .comment)) :
    d.kind = .token ∨ d.kind = .comment := by
  by_contra hkind
  simp_all [Node.isNamed]

/-- A comment among the children with nothing but punctuation and comments after it. -/
theorem Read.adjacent (h : Read p) (hparent : parent ∈ p.root.preorder) {xs ys later : List Node}
    (hchildren : parent.children = xs ++ c :: (ys ++ statement :: later))
    (hys : ∀ d ∈ ys, d.kind = .token ∨ d.kind = .comment) : Adjacent p parent statement c := by
  obtain ⟨hrow, -⟩ := Node.row_of_mem_preorder h.row hparent
  have hordered := hrow.ordered
  rw [hchildren] at hordered
  obtain ⟨-, hordered, -⟩ := List.pairwise_append.mp hordered
  obtain ⟨hafter, hordered⟩ := List.pairwise_cons.mp hordered
  obtain ⟨-, -, hbefore⟩ := List.pairwise_append.mp hordered
  have hsub : ∀ d ∈ ys, d ∈ parent.children := fun d hd => by
    rw [hchildren]
    exact List.mem_append_right _ (List.mem_cons_of_mem _ (List.mem_append_left _ hd))
  have hpasses : Passes p.input (ys.filter fun d => d.kind == .token) c.stop statement.start := by
    obtain ⟨k, htiled⟩ := (h.spaced parent hparent).tiled
    rw [hchildren] at htiled
    obtain ⟨j, -, htiled⟩ := htiled.of_append
    cases htiled with
    | cons _ htiled =>
      refine htiled.passes fun d hd => (hys d hd).imp_right ?_
      have hbelow := Node.mem_preorder_child hparent (hsub d hd)
      exact (h.spaced d hbelow).comment
  refine ⟨by simp [hchildren], _, fun d hd => ?_, hpasses⟩
  obtain ⟨hmem, htoken⟩ := List.mem_filter.mp hd
  exact ⟨hsub d hmem, by simpa using htoken, hafter d (List.mem_append_left _ hmem),
    hbefore d hmem statement List.mem_cons_self⟩

section Place

variable (h : Read p) (hparent : parent ∈ p.root.preorder) {earlier later : List Node}
  (hchildren : parent.children = earlier ++ statement :: later)
include h hparent hchildren

/-- No sibling from a statement on starts before it. -/
theorem start_le_of_mem_rest (hd : d ∈ statement :: later) : statement.start ≤ d.start := by
  obtain ⟨hrow, -⟩ := Node.row_of_mem_preorder h.row hparent
  rcases List.mem_cons.mp hd with rfl | hd
  · exact Nat.le_refl _
  · have hordered := hrow.ordered
    rw [hchildren] at hordered
    obtain ⟨-, hordered, -⟩ := List.pairwise_append.mp hordered
    have hle := (List.pairwise_cons.mp hordered).1 d hd
    have hstatement : statement ∈ parent.children := by simp [hchildren]
    have hrange := Node.start_le_stop (hrow.nests statement hstatement)
    omega

/-- Past the end of the nearest sibling there is nothing but punctuation and comments. -/
theorem quiet_of_nearer {low : Nat}
    (hbefore : ∀ stop, earlier.foldl nearer none = some stop → stop ≤ low) (hd : d ∈ earlier)
    (hlate : low < d.stop) : d.kind = .token ∨ d.kind = .comment := by
  obtain ⟨hrow, -⟩ := Node.row_of_mem_preorder h.row hparent
  have hsub : earlier.Sublist parent.children := hchildren ▸ List.sublist_append_left _ _
  refine quiet_of_not_named fun ⟨hnamed, hkind⟩ => ?_
  obtain ⟨stop, hfold, hle⟩ := stop_le_foldl_nearer (hrow.sublist hsub) hd hnamed hkind none
  have hstart := hbefore stop hfold
  omega

variable (hlt : c.start < c.stop)
  (hquiet : ∀ d ∈ earlier, c.start < d.stop → d.kind = .token ∨ d.kind = .comment)
include hlt hquiet

/-- A comment below a sibling is the sibling, and it stands next to the statement. -/
theorem adjacent_of_mem_child (hstop : c.stop ≤ statement.start) (hd : d ∈ parent.children)
    (hin : c ∈ d.preorder) : Adjacent p parent statement c := by
  obtain ⟨hrow, -⟩ := Node.row_of_mem_preorder h.row hparent
  obtain ⟨-, hstart, hend⟩ := Node.row_of_mem_preorder (Node.row_of_nests (hrow.nests d hd)) hin
  have hbelow := Node.mem_preorder_child hparent hd
  have hsplit := hd
  rw [hchildren] at hsplit
  rcases List.mem_append.mp hsplit with hearlier | hrest
  · obtain rfl := h.eq_of_mem_leaf hbelow (hquiet d hearlier (by omega)) hin
    obtain ⟨xs, ys, rfl⟩ := List.append_of_mem hearlier
    refine h.adjacent hparent (by simpa using hchildren) fun e he => ?_
    have hrow' := hrow.sublist (hchildren ▸ List.sublist_append_left (xs ++ c :: ys) _)
    have hmem : e ∈ xs ++ c :: ys := List.mem_append_right _ (List.mem_cons_of_mem _ he)
    obtain ⟨-, hafter, -⟩ := List.pairwise_append.mp hrow'.ordered
    have hle := (List.pairwise_cons.mp hafter).1 e he
    have hrange := Node.start_le_stop (hrow'.nests e hmem)
    exact hquiet e hmem (by omega)
  · have hlate := start_le_of_mem_rest h hparent hchildren hrest
    omega

/-- A comment before the parent is found for the first statement only. -/
theorem outside_of_stop_le (hout : c.stop ≤ parent.start) : Outside parent statement c := by
  obtain ⟨hrow, -⟩ := Node.row_of_mem_preorder h.row hparent
  refine ⟨hout, fun d hd hnamed hkind => ?_⟩
  have hinside := hrow.inside d hd
  have hrange := Node.start_le_stop (hrow.nests d hd)
  rw [hchildren] at hd
  rcases List.mem_append.mp hd with hearlier | hrest
  · rcases hquiet d hearlier (by omega) with htoken | hcomment
    · simp [Node.isNamed, htoken] at hnamed
    · exact absurd hcomment hkind
  · exact start_le_of_mem_rest h hparent hchildren hrest

end Place

/-- The comment that is found stands next to the statement, or before its parent. -/
theorem Read.place (h : Read p) (hstands : Stands p parent statement a) (hc : c ∈ p.comments)
    (hstop : c.stop ≤ a.start) (hbefore : ∀ stop, a.before = some stop → stop ≤ c.start) :
    Adjacent p parent statement c ∨ Outside parent statement c := by
  obtain ⟨hmem, hcomment, hlt⟩ := h.mem_comment hc
  have hparent := hstands.below
  obtain ⟨earlier, later, hchildren, hearlier⟩ := hstands.place
  have hquiet : ∀ d ∈ earlier, c.start < d.stop → d.kind = .token ∨ d.kind = .comment :=
    fun _ => quiet_of_nearer h hparent hchildren fun stop hfold =>
      hbefore stop (hearlier.trans hfold)
  rw [hstands.start] at hstop
  obtain ⟨hrow, -⟩ := Node.row_of_mem_preorder h.row hparent
  have hne : parent ≠ c := by
    rintro rfl
    have hleaf := (h.shaped parent hmem).children_eq_nil (by simp [hcomment])
    exact absurd (hleaf ▸ hstands.child) List.not_mem_nil
  rcases Node.nested_or_apart h.row hmem hparent with hin | hin | hout | hout
  · obtain ⟨d, hd, hin⟩ := (Node.mem_preorder.mp hin).resolve_left hne.symm
    exact .inl (adjacent_of_mem_child h hparent hchildren hlt hquiet hstop hd hin)
  · exact absurd (h.eq_of_mem_leaf hmem (.inr hcomment) hin) hne
  · exact .inr (outside_of_stop_le h hparent hchildren hlt hquiet hout)
  · -- the statement would start after the end of its parent
    have hinside := hrow.inside statement hstands.child
    have hrange := Node.start_le_stop (hrow.nests statement hstands.child)
    omega

/-- On the outermost level only white space and comments stand between the two. -/
theorem Read.blank_of_root (h : Read p) (hc : c ∈ p.comments)
    (hplace : Adjacent p p.root statement c ∨ Outside p.root statement c) :
    Blank p.input c.stop statement.start := by
  rcases hplace with ⟨-, tokens, htokens, hpasses⟩ | hout
  · refine hpasses.mono fun d hd => ?_
    obtain ⟨hchild, htoken, -⟩ := htokens d hd
    exact absurd htoken (h.named d hchild)
  · have hlt := (h.mem_comment hc).2.2
    have hbefore := hout.before
    rw [h.root.2] at hbefore
    omega

end

/-- A comment as documentation of a statement under its parent: it is the last comment before the
statement, a block comment with the text, and no earlier sibling of the statement stands between
the two. -/
structure Documented (p : Parsed) (text : String) (parent statement c : Node) : Prop where
  last : ∃ before after, p.comments = before ++ c :: after ∧
    ∀ d ∈ after, statement.start < d.stop
  block : Documentation.isBlock (p.text c) = true
  text : text = Documentation.clean (p.text c) ∧ text ≠ ""
  above : c.stop ≤ statement.start
  near : p.startLine statement ≤ p.endLine c + 5
  place : Adjacent p parent statement c ∨ Outside parent statement c
  outermost : parent = p.root → Blank p.input c.stop statement.start

/-- What is found where the documentation of a symbol is sought. -/
theorem Symbols.Sought.documented {p : Parsed} {s : Symbol} {parent statement n : Node}
    {a : Documentation.Anchor} {text : String} (h : Sought p s parent statement n a)
    (hread : Read p) (htext : s.documentation = some text) :
    ∃ c, Documented p text parent statement c := by
  obtain ⟨c, hc, hlast, hstop, hblock, hnear, hbefore, hclean⟩ :=
    exists_comment (h.documentation.symm.trans htext)
  have hplace := hread.place h.stands hc hstop hbefore
  rw [h.stands.start] at hlast hstop hnear
  exact ⟨c, hlast, hblock, hclean, hstop, hnear, hplace,
    fun hroot => hread.blank_of_root hc (hroot ▸ hplace)⟩

/-- Each symbol of a file is declared at a node, which belongs to one statement under one parent.
Its documentation is the text of the last comment above that statement, with nothing but white
space, comments and punctuation of the parent in between, unless the statement is the first one
under its parent and the comment stands before the parent. On the outermost level nothing but white
space and comments stands in between. -/
theorem extractFile_documentation {path content : String} {x : Extraction}
    (h : extractFile path content = .ok x) :
    ∃ p, parseFile path content = .ok p ∧ ∀ s ∈ x.symbols, (∃ n, DeclaredBy path p s n) ∧
      ∀ n, DeclaredBy path p s n → (∃ parent statement, Belongs p parent statement n) ∧
        ∀ parent statement, Belongs p parent statement n →
          ∀ text, s.documentation = some text → ∃ c, Documented p text parent statement c := by
  obtain ⟨p, hp, hsymbols, -⟩ := extractFile_eq_ok h
  obtain ⟨d, hparse⟩ := References.parse?_of_parseFile hp
  have hread := read_of_parse? hparse
  refine ⟨p, hp, fun s hs => ⟨exists_declaredBy (hsymbols ▸ hs), fun n hn => ?_⟩⟩
  obtain ⟨parent, statement, a, hsought⟩ := hn.sought hread
  have hbelongs : Belongs p parent statement n :=
    ⟨hsought.belongs, hsought.stands.below, hsought.stands.child⟩
  refine ⟨⟨parent, statement, hbelongs⟩, fun parent' statement' hbelongs' text htext => ?_⟩
  obtain ⟨rfl, rfl⟩ := hbelongs.unique hread hbelongs' (hn.start_lt_stop hread)
  exact hsought.documented hread htext

/-- Of two exported functions the first one has the comment above it. -/
theorem extractFile_documentation_function : ∃ x p s t n parent statement c,
    extractFile "a.ts" "/** Doc */\nexport function f() \x7b\x7d\nexport function g() \x7b\x7d\n" =
        .ok x ∧
      parseFile "a.ts"
        "/** Doc */\nexport function f() \x7b\x7d\nexport function g() \x7b\x7d\n" = .ok p ∧
      x.symbols = [s, t] ∧ s.documentation = some "Doc" ∧ t.documentation = none ∧
      DeclaredBy "a.ts" p s n ∧ Belongs p parent statement n ∧
      Documented p "Doc" parent statement c := by
  have hsite : (parseFile "a.ts"
      "/** Doc */\nexport function f() \x7b\x7d\nexport function g() \x7b\x7d\n").toOption.any
        (fun p => (contents "a.ts" p).symbols.map Symbol.documentation == [some "Doc", none]) =
      true := by
    decide +kernel
  obtain ⟨p, hp, hx, hsymbols⟩ := exists_parsed hsite
  rw [beq_iff_eq, List.map_eq_cons_iff] at hsymbols
  obtain ⟨s, rest, hrest, hdocumentation, htail⟩ := hsymbols
  obtain ⟨t, last, rfl, hnone, hlast⟩ := List.map_eq_cons_iff.mp htail
  obtain rfl := List.map_eq_nil_iff.mp hlast
  obtain ⟨q, hq, hdocumented⟩ := extractFile_documentation hx
  obtain rfl := Except.ok.inj (hp.symm.trans hq)
  obtain ⟨⟨n, hn⟩, hall⟩ := hdocumented s (hrest ▸ List.mem_cons_self)
  obtain ⟨⟨parent, statement, hbelongs⟩, hfound⟩ := hall n hn
  obtain ⟨c, hc⟩ := hfound parent statement hbelongs _ hdocumentation
  exact ⟨_, p, s, t, n, parent, statement, c, hx, hp, hrest, hdocumentation, hnone, hn,
    hbelongs, hc⟩

/-- The first member of a class has the documentation of the class. -/
theorem firstMember_documentation : ∃ x p s,
    extractFile "a.ts" "/** Doc */\nclass A \x7b\n  m() \x7b\x7d\n\x7d\n" = .ok x ∧
      parseFile "a.ts" "/** Doc */\nclass A \x7b\n  m() \x7b\x7d\n\x7d\n" = .ok p ∧
      s ∈ x.symbols ∧ s.name = "m" ∧ s.documentation = some "Doc" ∧
      ∀ c ∈ p.comments, ∀ n ∈ p.root.preorder, p.startLine n = s.lineStart →
        ¬ Blank p.input c.stop n.start := by
  have hsite :
      (parseFile "a.ts" "/** Doc */\nclass A \x7b\n  m() \x7b\x7d\n\x7d\n").toOption.any (fun p =>
      (contents "a.ts" p).symbols.any fun s =>
        s.name == "m" && s.documentation == some "Doc" && p.comments.all (fun c => c.stop == 10) &&
          p.root.preorder.all fun n => p.startLine n != s.lineStart || decide (11 < n.start)) =
        true := by
    decide +kernel
  obtain ⟨p, hp, hx, hsymbol⟩ := exists_parsed hsite
  obtain ⟨s, hs, hsymbol⟩ := List.any_eq_true.mp hsymbol
  simp only [Bool.and_eq_true, beq_iff_eq, List.all_eq_true, Bool.or_eq_true, bne_iff_ne,
    decide_eq_true_eq] at hsymbol
  obtain ⟨⟨⟨hname, hdocumentation⟩, hcomments⟩, hnodes⟩ := hsymbol
  refine ⟨_, p, s, hx, hp, hs, hname, hdocumentation, fun c hc n hn hline hblank => ?_⟩
  have hlate := (hnodes n hn).resolve_left fun hne => hne hline
  rw [hcomments c hc, input_of_parseFile hp] at hblank
  -- after the line end stands the word that starts the class
  rcases hblank.step (by decide +kernel) with hstart | ⟨-, hblank⟩
  · omega
  rcases hblank.step (by decide +kernel) with hstart | ⟨hgap, -⟩
  · omega
  · exact absurd hgap (by decide +kernel)

end CodeIndex.Extract
