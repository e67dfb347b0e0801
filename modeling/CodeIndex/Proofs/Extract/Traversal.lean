import CodeIndex.Extract.File

/-!
The traversal that finds the symbols of a file, told as relations. `Visited` says in which contexts
it comes to which nodes, one constructor for each way down the tree, and `DeclaredAt` says what it
declares there. All symbols that are found are declared so, hence what is proved of the two
relations holds of every symbol of a file.
-/
namespace CodeIndex.Extract.Symbols

open Source Documentation

/-! Children -/

/-- A step over a sibling: where the nearest sibling ends that is no comment. -/
def nearer (found : Option Nat) (c : Node) : Option Nat :=
  if c.isNamed && c.kind != .comment then some c.stop else found

/-- A child of a node, with what its documentation is sought by. -/
structure ChildAt (parent c : Node) (a : Anchor) : Prop where
  place : ∃ earlier later, parent.children = earlier ++ c :: later ∧
    a.before = earlier.foldl nearer none
  start : a.start = c.start

theorem ChildAt.mem {parent c : Node} {a : Anchor} (h : ChildAt parent c a) :
    c ∈ parent.children := by
  obtain ⟨earlier, later, hchildren, -⟩ := h.place
  exact hchildren ▸ List.mem_append_right _ List.mem_cons_self

/-- The children of a node that are still to be visited. -/
structure Remaining (parent : Node) (before : Option Nat) (cs : List Node) : Prop where
  place : ∃ earlier, parent.children = earlier ++ cs ∧ before = earlier.foldl nearer none

namespace Remaining

variable {parent c : Node} {before : Option Nat} {cs : List Node}

theorem all (parent : Node) : Remaining parent none parent.children := ⟨[], rfl, rfl⟩

theorem head (h : Remaining parent before (c :: cs)) : ChildAt parent c ⟨c.start, before⟩ := by
  obtain ⟨earlier, hchildren, hbefore⟩ := h.place
  exact ⟨⟨earlier, cs, hchildren, hbefore⟩, rfl⟩

theorem tail (h : Remaining parent before (c :: cs)) :
    Remaining parent (nearer before c) cs := by
  obtain ⟨earlier, hchildren, rfl⟩ := h.place
  refine ⟨earlier ++ [c], by simp [hchildren], ?_⟩
  rw [List.foldl_append]
  rfl

end Remaining

/-! Contexts -/

/-- Within an export statement. -/
def Context.exporting (ctx : Context) (own : Anchor) : Context :=
  { ctx with exported := true, exportScope := some own, exportParent := some own }

/-- Within a node that stands for its content. -/
def Context.inside (ctx : Context) : Context := { ctx with exportParent := none }

/-- Within the body of a declaration. -/
def Context.body (ctx : Context) (container : Container) : Context :=
  { ctx with container, exportScope := none, exportParent := none }

/-- A node whose content is visited as if it stood in its place, with a child that is visited. -/
inductive Encloses (container : Container) (n c : Node) : Prop
  | ambient (hkind : n.kind = .ambientDeclaration)
  | block (hkind : n.kind = .statementBlock) (hcontainer : container = .module)
  | statement (hkind : n.kind = .expressionStatement) (hcontainer : container = .module)
      (hchild : c.kind = .internalModule)

/-- The nodes that a traversal from a root comes to, in their contexts and below their parents. -/
inductive Visited (root : Node) : Context → Node → Anchor → Node → Prop
  | top {a : Anchor} {c : Node} (hc : ChildAt root c a) : Visited root {} root a c
  | exported {ctx : Context} {parent n c : Node} {own a : Anchor}
      (h : Visited root ctx parent own n) (hkind : n.kind = .exportStatement)
      (hc : ChildAt n c a) (hrole : c.role = some .declaration) :
      Visited root (ctx.exporting own) n a c
  | wrapped {ctx : Context} {parent n c : Node} {own a : Anchor}
      (h : Visited root ctx parent own n) (hencloses : Encloses ctx.container n c)
      (hc : ChildAt n c a) : Visited root ctx.inside n a c
  | body {ctx : Context} {parent n b c : Node} {own a : Anchor} {kind : SymbolKind}
      {container : Container} (h : Visited root ctx parent own n)
      (hkind : declaredKind ctx.container n = some kind)
      (hbody : bodyContainer kind = some container) (hb : b ∈ n.children)
      (hrole : b.role = some .body) (hc : ChildAt b c a) :
      Visited root (ctx.body container) b a c
  | exportedBody {ctx : Context} {parent n v b c : Node} {own a : Anchor}
      (h : Visited root ctx parent own n) (hkind : n.kind = .exportStatement)
      (hv : v ∈ n.children) (hvalue : v.role = some .value) (hclass : v.kind = .classExpression)
      (hb : b ∈ v.children) (hrole : b.role = some .body) (hc : ChildAt b c a) :
      Visited root ((ctx.exporting own).body .classBody) b a c

/-- The symbol kind of the value of a default export. -/
def valueKind (k : Kind) : Option SymbolKind :=
  if k.isFunctionValue then some .function
  else if k == .classExpression then some .classType
  else none

/-- The symbols that a traversal declares, each at its node. -/
inductive DeclaredAt (f : File) : Symbol → Node → Prop
  | plain {ctx : Context} {parent n : Node} {own : Anchor} {kind : SymbolKind} {s : Symbol}
      (h : Visited f.parsed.root ctx parent own n)
      (hkind : declaredKind ctx.container n = some kind)
      (hs : declare f ctx n (ctx.docAnchor own) kind = some s) : DeclaredAt f s n
  | declarator {ctx : Context} {parent n d : Node} {own : Anchor} {kind : SymbolKind} {s : Symbol}
      (h : Visited f.parsed.root ctx parent own n) (hcontainer : ctx.container = .module)
      (hkind : n.kind = .lexicalDeclaration ∨ n.kind = .variableDeclaration)
      (hd : d ∈ n.children) (hdeclarator : d.kind = .variableDeclarator)
      (hs : declare f ctx.inside d (ctx.exportParent.getD own) kind = some s)
      (hvariable : kind = .function ∨ kind = .constant ∨ kind = .variable) : DeclaredAt f s d
  | value {ctx : Context} {parent n v : Node} {own : Anchor} {kind : SymbolKind} {s : Symbol}
      (h : Visited f.parsed.root ctx parent own n) (hkind : n.kind = .exportStatement)
      (hv : v ∈ n.children) (hvalue : v.role = some .value) (hvkind : valueKind v.kind = some kind)
      (hs : declare f (ctx.exporting own) v own kind = some s) : DeclaredAt f s v

theorem DeclaredAt.exists_declare {f : File} {s : Symbol} {n : Node} (h : DeclaredAt f s n) :
    ∃ ctx a kind, declare f ctx n a kind = some s := by
  cases h with
  | plain _ _ hs => exact ⟨_, _, _, hs⟩
  | declarator _ _ _ _ _ hs _ => exact ⟨_, _, _, hs⟩
  | value _ _ _ _ _ hs => exact ⟨_, _, _, hs⟩

/-! What is found is declared -/

/-- What is found in a file is declared in it, as far as it is a symbol. -/
def AllDeclared (f : File) (found : List Found) : Prop :=
  ∀ s, Found.symbol s ∈ found → ∃ n, DeclaredAt f s n

variable {f : File} {ctx : Context} {own : Anchor} {parent n : Node}

theorem allDeclared_nil : AllDeclared f [] := fun _ hs => absurd hs List.not_mem_nil

theorem AllDeclared.append {xs ys : List Found} (hxs : AllDeclared f xs)
    (hys : AllDeclared f ys) : AllDeclared f (xs ++ ys) := fun s hs =>
  (List.mem_append.mp hs).elim (hxs s) (hys s)

theorem AllDeclared.cons {s : Symbol} {ys : List Found} (hs : DeclaredAt f s n)
    (hys : AllDeclared f ys) : AllDeclared f (.symbol s :: ys) := by
  intro x hx
  rcases List.mem_cons.mp hx with hx | hx
  · cases hx
    exact ⟨n, hs⟩
  · exact hys x hx

theorem allDeclared_variableSymbols (h : Visited f.parsed.root ctx parent own n)
    (hcontainer : ctx.container = .module)
    (hkind : n.kind = .lexicalDeclaration ∨ n.kind = .variableDeclaration) :
    AllDeclared f (variableSymbols f ctx own n) := by
  intro s hs
  obtain ⟨d, hd, hfound⟩ := List.mem_filterMap.mp hs
  dsimp only at hfound
  split at hfound
  · next hdeclarator =>
    obtain ⟨x, hx, heq⟩ := Option.map_eq_some_iff.mp hfound
    cases heq
    simp only [Bool.and_eq_true, beq_iff_eq] at hdeclarator
    refine ⟨d, .declarator h hcontainer hkind (List.mem_filter.mp hd).1 hdeclarator.1 hx ?_⟩
    split
    · exact .inl rfl
    · split
      · exact .inr (.inl rfl)
      · exact .inr (.inr rfl)
  · cases hfound

theorem allDeclared_clauseNames (p : Parsed) (n : Node) : AllDeclared f (clauseNames p n) := by
  intro s hs
  obtain ⟨spec, -, hspec⟩ := List.mem_filterMap.mp hs
  obtain ⟨name, -, hfound⟩ := Option.map_eq_some_iff.mp hspec
  cases hfound

/-- The value of a default export that is visited. -/
structure ExportedValue (root : Node) (ctx : Context) (own : Anchor) (v : Node) : Prop where
  statement : ∃ parent n, Visited root ctx parent own n ∧ n.kind = .exportStatement ∧
    v ∈ n.children
  role : v.role = some .value

theorem ExportedValue.declaredAt {v : Node} {kind : SymbolKind} {s : Symbol}
    (h : ExportedValue f.parsed.root ctx own v) (hvkind : valueKind v.kind = some kind)
    (hs : declare f (ctx.exporting own) v own kind = some s) : DeclaredAt f s v := by
  obtain ⟨parent, n, hn, hkind, hv⟩ := h.statement
  exact .value hn hkind hv h.role hvkind hs

mutual

theorem allDeclared_visit (f : File) (ctx : Context) (own : Anchor) (parent n : Node)
    (h : Visited f.parsed.root ctx parent own n) : AllDeclared f (visit f ctx own n) := by
  cases n with
  | mk k r s e cs =>
    unfold visit
    dsimp only
    split
    · split
      · exact allDeclared_nil
      · split
        · exact allDeclared_visitDeclared f _ none _ cs (.all _) fun c a hc hrole =>
            .exported h rfl hc hrole
        · split
          · exact allDeclared_visitValues f ctx own cs fun v hv hrole =>
              ⟨⟨parent, _, h, rfl, hv⟩, hrole⟩
          · exact allDeclared_clauseNames _ _
    · exact allDeclared_visitAll f _ none _ cs (.all _) fun c a hc => .wrapped h (.ambient rfl) hc
    · next hcontainer =>
      exact allDeclared_visitAll f _ none _ cs (.all _) fun c a hc =>
        .wrapped h (.block rfl hcontainer) hc
    · next hcontainer => exact allDeclared_variableSymbols h hcontainer (.inl rfl)
    · next hcontainer => exact allDeclared_variableSymbols h hcontainer (.inr rfl)
    · next hcontainer =>
      exact allDeclared_visitNamespaces f _ none _ cs (.all _) fun c a hc hchild =>
        .wrapped h (.statement rfl hcontainer hchild) hc
    · split
      · exact allDeclared_nil
      · next hkind =>
        split
        · exact allDeclared_nil
        · next hdeclare =>
          refine .cons (.plain h hkind hdeclare) ?_
          split
          · next hbody =>
            exact allDeclared_visitBody f _ cs fun b hb hrole c a hc =>
              .body h hkind hbody hb hrole hc
          · exact allDeclared_nil
termination_by structural n

theorem allDeclared_visitAll (f : File) (ctx : Context) (before : Option Nat) (parent : Node)
    (cs : List Node) (hrest : Remaining parent before cs)
    (h : ∀ c a, ChildAt parent c a → Visited f.parsed.root ctx parent a c) :
    AllDeclared f (visitAll f ctx before cs) := by
  cases cs with
  | nil =>
    unfold visitAll
    exact allDeclared_nil
  | cons c cs =>
    have htail := hrest.tail
    unfold visitAll
    split
    · next htoken =>
      have hnearer : nearer before c = before := by simp_all [nearer, Node.isNamed]
      exact allDeclared_visitAll f ctx before parent cs (hnearer ▸ htail) h
    · next htoken =>
      split
      · next hcomment =>
        have hnearer : nearer before c = before := by simp_all [nearer]
        exact allDeclared_visitAll f ctx before parent cs (hnearer ▸ htail) h
      · next hcomment =>
        have hnearer : nearer before c = some c.stop := by simp_all [nearer, Node.isNamed]
        exact (allDeclared_visit f ctx _ parent c (h c _ hrest.head)).append
          (allDeclared_visitAll f ctx _ parent cs (hnearer ▸ htail) h)
termination_by structural cs

theorem allDeclared_visitInside (f : File) (ctx : Context) (n : Node)
    (h : ∀ c a, ChildAt n c a → Visited f.parsed.root ctx n a c) :
    AllDeclared f (visitInside f ctx n) := by
  cases n with
  | mk k r s e cs =>
    unfold visitInside
    exact allDeclared_visitAll f ctx none _ cs (.all _) h
termination_by structural n

theorem allDeclared_visitBody (f : File) (ctx : Context) (cs : List Node)
    (h : ∀ b ∈ cs, b.role = some .body →
      ∀ c a, ChildAt b c a → Visited f.parsed.root ctx b a c) :
    AllDeclared f (visitBody f ctx cs) := by
  cases cs with
  | nil =>
    unfold visitBody
    exact allDeclared_nil
  | cons b cs =>
    obtain ⟨hb, hcs⟩ := List.forall_mem_cons.mp h
    unfold visitBody
    split
    · next hrole => exact allDeclared_visitInside f ctx b (hb (beq_iff_eq.mp hrole))
    · exact allDeclared_visitBody f ctx cs hcs
termination_by structural cs

theorem allDeclared_visitDeclared (f : File) (ctx : Context) (before : Option Nat)
    (parent : Node) (cs : List Node) (hrest : Remaining parent before cs)
    (h : ∀ c a, ChildAt parent c a → c.role = some .declaration →
      Visited f.parsed.root ctx parent a c) :
    AllDeclared f (visitDeclared f ctx before cs) := by
  cases cs with
  | nil =>
    unfold visitDeclared
    exact allDeclared_nil
  | cons c cs =>
    unfold visitDeclared
    split
    · next hrole =>
      exact allDeclared_visit f ctx _ parent c (h c _ hrest.head (beq_iff_eq.mp hrole))
    · exact allDeclared_visitDeclared f ctx _ parent cs hrest.tail h
termination_by structural cs

theorem allDeclared_visitValues (f : File) (ctx : Context) (own : Anchor) (cs : List Node)
    (h : ∀ v ∈ cs, v.role = some .value → ExportedValue f.parsed.root ctx own v) :
    AllDeclared f (visitValues f (ctx.exporting own) own cs) := by
  cases cs with
  | nil =>
    unfold visitValues
    exact allDeclared_nil
  | cons v cs =>
    obtain ⟨hv, hcs⟩ := List.forall_mem_cons.mp h
    unfold visitValues
    split
    · next hrole => exact allDeclared_visitValue f ctx own v (hv (beq_iff_eq.mp hrole))
    · exact allDeclared_visitValues f ctx own cs hcs
termination_by structural cs

theorem allDeclared_visitValue (f : File) (ctx : Context) (own : Anchor) (v : Node)
    (h : ExportedValue f.parsed.root ctx own v) :
    AllDeclared f (visitValue f (ctx.exporting own) own v) := by
  cases v with
  | mk k r s e cs =>
    unfold visitValue
    dsimp only
    split
    · next hfunction =>
      intro x hx
      obtain ⟨y, hy, hfound⟩ := Option.map_eq_some_iff.mp (Option.mem_toList.mp hx)
      cases hfound
      exact ⟨_, h.declaredAt (by simp [valueKind, Node.kind, hfunction]) hy⟩
    · next hfunction =>
      split
      · next hclass =>
        split
        · exact allDeclared_nil
        · next hdeclare =>
          refine .cons (h.declaredAt (by simp_all [valueKind, Node.kind]) hdeclare) ?_
          obtain ⟨parent, n, hn, hkind, hv⟩ := h.statement
          exact allDeclared_visitBody f _ cs fun b hb hrole c a hc =>
            .exportedBody hn hkind hv h.role (beq_iff_eq.mp hclass) hb hrole hc
      · split
        · intro x hx
          simp at hx
        · exact allDeclared_nil
termination_by structural v

theorem allDeclared_visitNamespaces (f : File) (ctx : Context) (before : Option Nat)
    (parent : Node) (cs : List Node) (hrest : Remaining parent before cs)
    (h : ∀ c a, ChildAt parent c a → c.kind = .internalModule →
      Visited f.parsed.root ctx parent a c) :
    AllDeclared f (visitNamespaces f ctx before cs) := by
  cases cs with
  | nil =>
    unfold visitNamespaces
    exact allDeclared_nil
  | cons c cs =>
    unfold visitNamespaces
    refine AllDeclared.append ?_ (allDeclared_visitNamespaces f ctx _ parent cs hrest.tail h)
    split
    · next hkind =>
      exact allDeclared_visit f ctx _ parent c (h c _ hrest.head (beq_iff_eq.mp hkind))
    · exact allDeclared_nil
termination_by structural cs

end

theorem mem_of_mem_distinct {seen : List (String × Nat)} {xs : List Symbol} {s : Symbol}
    (h : s ∈ distinct seen xs) : s ∈ xs := by
  induction xs generalizing seen with
  | nil => exact h
  | cons x xs ih =>
    rw [distinct] at h
    split at h
    · exact List.mem_cons_of_mem _ (ih h)
    · rcases List.mem_cons.mp h with rfl | h
      · exact List.mem_cons_self
      · exact List.mem_cons_of_mem _ (ih h)

/-- A symbol of a file is declared at a node of its tree; its mark of being exported may come from
elsewhere. -/
structure DeclaredBy (path : String) (p : Parsed) (s : Symbol) (n : Node) : Prop where
  declared : ∃ x names, DeclaredAt ⟨path, p, p.comments⟩ x n ∧ s = markExported names x

theorem exists_declaredBy {path : String} {p : Parsed} {s : Symbol} (h : s ∈ extract path p) :
    ∃ n, DeclaredBy path p s n := by
  obtain ⟨x, hx, rfl⟩ := List.mem_map.mp h
  obtain ⟨found, hfound, hsome⟩ := List.mem_filterMap.mp (mem_of_mem_distinct hx)
  split at hsome
  · next y =>
    obtain rfl := Option.some.inj hsome
    obtain ⟨n, hn⟩ :=
      allDeclared_visitInside ⟨path, p, p.comments⟩ {} p.root (fun _ _ hc => .top hc) y hfound
    exact ⟨n, y, _, hn, rfl⟩
  · cases hsome

end CodeIndex.Extract.Symbols
