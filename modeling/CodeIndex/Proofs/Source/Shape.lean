import CodeIndex.Proofs.Source.Derivation
import CodeIndex.Source.Parse
import Mathlib.Data.List.Basic

/-!
The shapes of trees. What the grammar says about the children of calls, member expressions and
class heritage is computed from its forms, and it holds of every tree that is read: by induction on
the derivation, each node that a form reads is described by what the form yields.
-/
namespace CodeIndex.Source

/-! Quiet nodes -/

/-- The kinds of type names, calls and constructor calls. -/
def Kind.isUse : Kind → Bool
  | .typeIdentifier | .callExpression | .newExpression => true
  | _ => false

/-- A node without type names, calls and constructor calls. -/
def Node.Quiet (n : Node) : Prop := ∀ m ∈ n.preorder, m.kind.isUse = false

namespace Node

theorem mem_preorderAll {cs : List Node} {m : Node} :
    m ∈ preorderAll cs ↔ ∃ c ∈ cs, m ∈ c.preorder := by
  induction cs with
  | nil => simp [preorderAll]
  | cons c cs ih => simp [preorderAll, ih]

theorem mem_preorder {n m : Node} :
    m ∈ n.preorder ↔ m = n ∨ ∃ c ∈ n.children, m ∈ c.preorder := by
  cases n with
  | mk k r s e cs => rw [preorder, List.mem_cons, mem_preorderAll, children]

theorem self_mem_preorder (n : Node) : n ∈ n.preorder := mem_preorder.mpr (.inl rfl)

theorem quiet_iff {n : Node} :
    n.Quiet ↔ n.kind.isUse = false ∧ ∀ c ∈ n.children, c.Quiet := by
  constructor
  · intro h
    exact ⟨h n n.self_mem_preorder, fun c hc m hm => h m (mem_preorder.mpr (.inr ⟨c, hc, hm⟩))⟩
  · rintro ⟨hn, hcs⟩ m hm
    rcases mem_preorder.mp hm with rfl | ⟨c, hc, hm⟩
    · exact hn
    · exact hcs c hc m hm

@[simp] theorem kind_withRole (r : Role) (n : Node) : (n.withRole r).kind = n.kind := by
  cases n
  rfl

@[simp] theorem role_withRole (r : Role) (n : Node) : (n.withRole r).role = some r := by
  cases n
  rfl

@[simp] theorem children_withRole (r : Role) (n : Node) :
    (n.withRole r).children = n.children := by
  cases n
  rfl

end Node

/-! Shapes -/

/-- What is known of a node before it is read; nothing is known of what is left out. -/
structure Outline where
  kind : Option Kind := none
  role : Option (Option Role) := none
  quiet : Bool := false

structure Outline.Fits (o : Outline) (n : Node) : Prop where
  kind : ∀ k, o.kind = some k → n.kind = k
  role : ∀ r, o.role = some r → n.role = r
  quiet : o.quiet = true → n.Quiet

/-- The kinds of the bodies of classes, interfaces, enums and namespaces. -/
def Kind.isBody : Kind → Bool
  | .classBody | .interfaceBody | .enumBody | .statementBlock => true
  | _ => false

/-- Whether a node may be a child of a node of a kind, as far as its outline tells. -/
def Kind.allows (k : Kind) (o : Outline) : Bool :=
  match k with
  | .memberExpression => o.role == some (some .object) || o.quiet
  | .callExpression =>
    o.role == some (some .function) || o.role == some (some .typeArguments)
      || (o.role == some (some .arguments)
        && (o.kind == some .arguments || o.kind == some .templateString)) || o.quiet
  | .newExpression =>
    o.role == some (some .constructor) || o.role == some (some .typeArguments)
      || (o.role == some (some .arguments) && o.kind == some .arguments) || o.quiet
  | .extendsClause =>
    o.role == some (some .value) || o.role == some (some .typeArguments) || o.quiet
  | .genericType =>
    (o.role == some (some .name)
        && (o.kind == some .typeIdentifier || o.kind == some .nestedTypeIdentifier))
      || o.role == some (some .typeArguments) || o.quiet
  | .nestedTypeIdentifier =>
    (o.role == some (some .name) && o.kind == some .typeIdentifier) || o.quiet
  | .classDeclaration | .abstractClassDeclaration | .classExpression | .interfaceDeclaration
  | .enumDeclaration | .module | .internalModule =>
    o.role.isSome && (o.role != some (some .body) || (o.kind.map Kind.isBody).getD false)
  | .token | .comment | .identifier | .typeIdentifier | .importKeyword => false
  | _ => true

/-- The role that exactly one child of a node of a kind has. -/
def Kind.key : Kind → Option Role
  | .memberExpression => some .property
  | .callExpression => some .function
  | .nestedTypeIdentifier => some .name
  | _ => none

/-- The number of nodes with a role. -/
def rolesIn (r : Role) (xs : List Node) : Nat := xs.countP fun x => x.role == some r

/-- The children of a node are allowed, and its key role is there once. -/
structure Node.Shaped (n : Node) : Prop where
  allowed : ∀ c ∈ n.children, ∃ o : Outline, o.Fits c ∧ n.kind.allows o = true
  key : ∀ r, n.kind.key = some r → rolesIn r n.children = 1

/-- All nodes of a tree are shaped. -/
def Node.AllShaped (n : Node) : Prop := ∀ m ∈ n.preorder, m.Shaped

/-! What forms yield -/

namespace Grammar

/-- The kinds of declarations. -/
def declarationKinds : List Kind :=
  [.functionDeclaration, .generatorFunctionDeclaration, .functionSignature, .classDeclaration,
    .abstractClassDeclaration, .enumDeclaration, .typeAliasDeclaration, .interfaceDeclaration,
    .module, .internalModule, .ambientDeclaration, .importAlias, .lexicalDeclaration,
    .variableDeclaration]

/-- The kinds of statements that are no declarations. -/
def statementKinds : List Kind :=
  [.exportStatement, .importStatement, .expressionStatement, .statementBlock, .ifStatement,
    .switchStatement, .forInStatement, .forStatement, .whileStatement, .doStatement, .tryStatement,
    .withStatement, .breakStatement, .continueStatement, .debuggerStatement, .returnStatement,
    .throwStatement, .emptyStatement, .labeledStatement]

/-- The nodes that a rule reads, where other forms ask for their kinds. -/
def ruleYields : Rule → List Outline
  | .statement => (statementKinds ++ declarationKinds).map fun k => { kind := some k }
  | .declaration => declarationKinds.map fun k => { kind := some k }
  | .block => [{ kind := some .statementBlock }]
  | .arguments => [{ kind := some .arguments, role := some none }]
  | .template => [{ kind := some .templateString, role := some none }]
  | .classBody => [{ kind := some .classBody, role := some none }]
  | .decorator => [{ kind := some .decorator, role := some none }]
  | _ => [{}]

/-- The outline of a node over others. -/
def outlineOver (k : Kind) (os : List Outline) : Outline :=
  { kind := some k, role := some none, quiet := !k.isUse && os.all Outline.quiet }

/-- The kinds of nodes over an operator and its operands. -/
def operatorKinds : List Kind := [.binaryExpression, .asExpression, .satisfiesExpression]

mutual

/-- The outlines of the nodes that a form can read. -/
def yields : Shape → List Outline
  | .empty | .never | .ahead _ | .notAhead _ => []
  | .lexeme k _ => [outlineOver k []]
  | .rule r => ruleYields r
  | .both f g | .either f g => yields f ++ yields g
  | .many f | .given _ f | .inMode _ f | .keeping _ f => yields f
  | .node k f => [outlineOver k (yields f)]
  | .role r f => (yields f).map fun o => { o with role := some (some r) }
  | .grow base steps =>
    yields base ++ (stepKinds steps).map fun k =>
      { kind := some k, role := some none
        quiet := (yields base).all Outline.quiet && stepsQuiet steps }
  | .operators operand _ =>
    yields operand ++ operatorKinds.map fun k => { kind := some k, role := some none }
  | .terminated _ f => yields f ++ [outlineOver .token []]

def stepKinds : List (Kind × Option Role × (Node → Bool) × Shape) → List Kind
  | [] => []
  | (k, _, _, _) :: steps => k :: stepKinds steps

def stepsQuiet : List (Kind × Option Role × (Node → Bool) × Shape) → Bool
  | [] => true
  | (k, _, _, f) :: steps => !k.isUse && (yields f).all Outline.quiet && stepsQuiet steps

end

/-- How many nodes a rule reads. -/
def ruleWidth : Rule → Option Nat
  | .signature => none
  | _ => some 1

/-- How many nodes a form reads, where that is fixed. -/
def width : Shape → Option Nat
  | .empty | .ahead _ | .notAhead _ => some 0
  | .lexeme _ _ | .node _ _ | .grow _ _ | .operators _ _ => some 1
  | .rule r => ruleWidth r
  | .never | .many _ => none
  | .both f g => (width f).bind fun m => (width g).map (m + ·)
  | .either f g => if width f = width g then width f else none
  | .role _ f | .given _ f | .inMode _ f | .keeping _ f => width f
  | .terminated _ f => (width f).map (· + 1)

/-- How many nodes with a role a form reads, where that is fixed. -/
def roleCount (r : Role) : Shape → Option Nat
  | .empty | .ahead _ | .notAhead _ | .lexeme _ _ | .node _ _ => some 0
  | .never | .rule _ | .grow _ _ | .operators _ _ => none
  | .many f => if roleCount r f = some 0 then some 0 else none
  | .both f g => (roleCount r f).bind fun m => (roleCount r g).map (m + ·)
  | .either f g => if roleCount r f = roleCount r g then roleCount r f else none
  | .role r' f => if r' = r then width f else some 0
  | .given _ f | .inMode _ f | .keeping _ f | .terminated _ f => roleCount r f

/-- Whether the key role of a kind is found once among the children that a form reads, after a
number of others. -/
def keyOnce (k : Kind) (before : Role → Option Nat) (f : Shape) : Bool :=
  match k.key with
  | none => true
  | some r =>
    match before r, roleCount r f with
    | some m, some n => m + n == 1
    | _, _ => false

/-- The number of nodes with a role in a list of one node whose role may be known. -/
def firstCount (role : Option Role) (r : Role) : Option Nat :=
  role.map fun r' => if r' = r then 1 else 0

mutual

/-- Whether all nodes that a form reads are shaped. -/
def checked : Shape → Bool
  | .empty | .never | .rule _ | .ahead _ | .notAhead _ => true
  | .lexeme k _ => k.key.isNone
  | .both f g | .either f g | .operators f g => checked f && checked g
  | .many f | .role _ f | .given _ f | .inMode _ f | .keeping _ f | .terminated _ f => checked f
  | .node k f => (yields f).all k.allows && keyOnce k (fun _ => some 0) f && checked f
  | .grow base steps =>
    checked base && checkedSteps ((yields base).all Outline.quiet && stepsQuiet steps) steps

def checkedSteps (quiet : Bool) : List (Kind × Option Role × (Node → Bool) × Shape) → Bool
  | [] => true
  | (k, role, _, f) :: steps =>
    k.allows { role := role.map some, quiet } && (yields f).all k.allows
      && keyOnce k (firstCount role) f && checked f && checkedSteps quiet steps

end

theorem checked_form (r : Rule) : checked (form r) = true := by
  cases r <;> decide +kernel

theorem checked_file : checked file = true := by decide +kernel

end Grammar

/-! Assembled nodes -/

def commentOutline : Outline := { kind := some .comment, role := some none, quiet := true }

theorem fits_comment (start stop : Nat) : commentOutline.Fits (Node.leaf .comment start stop) where
  kind := fun k hk => Option.some.inj hk
  role := fun r hr => Option.some.inj hr
  quiet := fun _ => Node.quiet_iff.mpr ⟨rfl, by simp [Node.leaf, Node.children]⟩

theorem allows_comment {k : Kind} {o : Outline} (h : k.allows o = true) :
    k.allows commentOutline = true := by
  unfold Kind.allows at h ⊢
  split at h <;> first | rfl | cases h

theorem mem_withComments {t : Input} {items : List Node} {c : Node}
    (h : c ∈ withComments t items) :
    c ∈ items ∨ items ≠ [] ∧ ∃ start stop, c = Node.leaf .comment start stop := by
  induction items with
  | nil => exact .inl h
  | cons a rest ih =>
    cases rest with
    | nil => exact .inl h
    | cons b rest =>
      rw [withComments, List.cons_append, List.mem_cons, List.mem_append] at h
      rcases h with rfl | h | h
      · exact .inl List.mem_cons_self
      · obtain ⟨range, -, rfl⟩ := List.mem_map.mp h
        exact .inr ⟨List.cons_ne_nil _ _, _, _, rfl⟩
      · rcases ih h with h | ⟨-, h⟩
        · exact .inl (List.mem_cons_of_mem _ h)
        · exact .inr ⟨List.cons_ne_nil _ _, h⟩

theorem rolesIn_withComments (t : Input) (r : Role) (items : List Node) :
    rolesIn r (withComments t items) = rolesIn r items := by
  induction items with
  | nil => rfl
  | cons a rest ih =>
    cases rest with
    | nil => rfl
    | cons b rest =>
      have hnone : rolesIn r ((Trivia.comments t a.stop b.start).map fun x =>
          Node.leaf .comment x.1 x.2) = 0 := by
        rw [rolesIn, List.countP_eq_zero]
        intro c hc
        obtain ⟨range, -, rfl⟩ := List.mem_map.mp hc
        simp [Node.leaf, Node.role]
      rw [withComments]
      unfold rolesIn at ih hnone ⊢
      rw [List.cons_append, List.countP_cons, List.countP_append, hnone, ih, Nat.zero_add]
      exact List.countP_cons.symm

theorem allShaped_leaf {k : Kind} (hkey : k.key = none) (start stop : Nat) :
    (Node.leaf k start stop).AllShaped := by
  intro m hm
  rcases Node.mem_preorder.mp hm with rfl | ⟨c, hc, -⟩
  · refine ⟨by simp [Node.leaf, Node.children], fun r hr => ?_⟩
    simp [Node.leaf, Node.kind, hkey] at hr
  · simp [Node.leaf, Node.children] at hc

/-- What is put together from allowed nodes, the key role among them, is shaped. -/
theorem allShaped_assemble {t : Input} {k : Kind} {pos : Nat} {items : List Node}
    (hallowed : ∀ x ∈ items, ∃ o : Outline, o.Fits x ∧ k.allows o = true)
    (hshaped : ∀ x ∈ items, x.AllShaped)
    (hkey : ∀ r, k.key = some r → rolesIn r items = 1) :
    (assemble t k pos items).AllShaped := by
  cases items with
  | nil =>
    have hnone : k.key = none := by
      cases h : k.key with
      | none => rfl
      | some r => cases hkey r h
    exact allShaped_leaf hnone pos pos
  | cons first rest =>
    have hchild : ∀ c ∈ withComments t (first :: rest),
        (∃ o : Outline, o.Fits c ∧ k.allows o = true) ∧ c.AllShaped := by
      intro c hc
      rcases mem_withComments hc with hc | ⟨-, start, stop, rfl⟩
      · exact ⟨hallowed c hc, hshaped c hc⟩
      · obtain ⟨o, -, ho⟩ := hallowed first List.mem_cons_self
        exact ⟨⟨_, fits_comment start stop, allows_comment ho⟩, allShaped_leaf rfl start stop⟩
    intro m hm
    rcases Node.mem_preorder.mp hm with rfl | ⟨c, hc, hm⟩
    · refine ⟨fun c hc => (hchild c hc).1, fun r hr => ?_⟩
      exact (rolesIn_withComments t r _).trans (hkey r hr)
    · exact (hchild c hc).2 m hm

theorem kind_assemble (t : Input) (k : Kind) (pos : Nat) (items : List Node) :
    (assemble t k pos items).kind = k := by
  cases items <;> rfl

theorem role_assemble (t : Input) (k : Kind) (pos : Nat) (items : List Node) :
    (assemble t k pos items).role = none := by
  cases items <;> rfl

theorem quiet_assemble {t : Input} {k : Kind} {pos : Nat} {items : List Node}
    (hk : k.isUse = false) (hquiet : ∀ x ∈ items, x.Quiet) : (assemble t k pos items).Quiet := by
  rw [Node.quiet_iff, kind_assemble]
  refine ⟨hk, fun c hc => ?_⟩
  cases items with
  | nil => simp [assemble, Node.leaf, Node.children] at hc
  | cons first rest =>
    rcases mem_withComments hc with hc | ⟨-, start, stop, rfl⟩
    · exact hquiet c hc
    · exact (fits_comment start stop).quiet rfl

theorem Node.AllShaped.withRole {n : Node} (h : n.AllShaped) (r : Role) :
    (n.withRole r).AllShaped := by
  have hn : n.Shaped := h n n.self_mem_preorder
  intro m hm
  rcases Node.mem_preorder.mp hm with rfl | ⟨c, hc, hm⟩
  · exact ⟨by simpa using hn.allowed, by simpa using hn.key⟩
  · exact h m (Node.mem_preorder.mpr (.inr ⟨c, by simpa using hc, hm⟩))

theorem quiet_withRole {n : Node} (h : n.Quiet) (r : Role) : (n.withRole r).Quiet := by
  rw [Node.quiet_iff] at h ⊢
  simpa using h

/-! Soundness -/

namespace Grammar

/-- What the outlines of a form tell of the nodes that it has read. -/
structure Described (f : Shape) (xs : List Node) : Prop where
  yields : ∀ x ∈ xs, ∃ o ∈ yields f, o.Fits x
  shaped : ∀ x ∈ xs, x.AllShaped
  width : ∀ n, width f = some n → xs.length = n
  roles : ∀ r n, roleCount r f = some n → rolesIn r xs = n

theorem fits_outlineOver {n : Node} {k : Kind} {os : List Outline} (hkind : n.kind = k)
    (hrole : n.role = none)
    (hquiet : k.isUse = false → os.all Outline.quiet = true → n.Quiet) :
    (outlineOver k os).Fits n where
  kind := fun k' hk' => hkind.trans (Option.some.inj hk')
  role := fun r hr => hrole.trans (Option.some.inj hr)
  quiet := fun h => by
    simp only [outlineOver, Bool.and_eq_true, Bool.not_eq_true'] at h
    exact hquiet h.1 h.2

/-- Nodes that all outlines call quiet are quiet. -/
theorem quiet_of_all {os : List Outline} (hos : os.all Outline.quiet = true) {x : Node}
    (hx : ∃ o ∈ os, o.Fits x) : x.Quiet := by
  obtain ⟨o, ho, hfits⟩ := hx
  exact hfits.quiet (List.all_eq_true.mp hos o ho)

/-- Nodes whose outlines are all allowed. -/
theorem allowed_of_all {k : Kind} {os : List Outline} (hos : os.all k.allows = true) {x : Node}
    (hx : ∃ o ∈ os, o.Fits x) : ∃ o : Outline, o.Fits x ∧ k.allows o = true := by
  obtain ⟨o, ho, hfits⟩ := hx
  exact ⟨o, hfits, List.all_eq_true.mp hos o ho⟩

theorem rolesIn_of_forall {r : Role} {xs : List Node} (h : ∀ x ∈ xs, x.role = none) :
    rolesIn r xs = 0 := by
  rw [rolesIn, List.countP_eq_zero]
  intro x hx
  simp [h x hx]

theorem described_nil {f : Shape} (hwidth : ∀ n, Grammar.width f = some n → n = 0)
    (hroles : ∀ r n, roleCount r f = some n → n = 0) : Described f [] where
  yields := by simp
  shaped := by simp
  width := fun n hn => (hwidth n hn).symm
  roles := fun r n hn => (hroles r n hn).symm

theorem described_one {f : Shape} {x : Node} (hyields : ∃ o ∈ Grammar.yields f, o.Fits x)
    (hshaped : x.AllShaped) (hwidth : ∀ n, Grammar.width f = some n → n = 1)
    (hroles : ∀ r n, roleCount r f = some n → n = 0 ∧ x.role = none) : Described f [x] where
  yields := by simpa using hyields
  shaped := by simpa using hshaped
  width := fun n hn => (hwidth n hn).symm
  roles := fun r n hn => by
    obtain ⟨rfl, hrole⟩ := hroles r n hn
    exact rolesIn_of_forall (by simpa using hrole)

theorem described_lexeme {k : Kind} {scan : Scan} (h : checked (.lexeme k scan) = true)
    (start stop : Nat) : Described (.lexeme k scan) [Node.leaf k start stop] := by
  have hkey : k.key = none := by simpa [checked] using h
  refine described_one ?_ (allShaped_leaf hkey start stop) ?_ ?_
  · refine ⟨_, List.mem_singleton_self _, fits_outlineOver rfl rfl fun hk _ => ?_⟩
    exact Node.quiet_iff.mpr ⟨hk, by simp [Node.leaf, Node.children]⟩
  · exact fun n hn => (Option.some.inj hn).symm
  · exact fun r n hn => ⟨(Option.some.inj hn).symm, rfl⟩

theorem Described.both {f g : Shape} {xs ys : List Node} (hf : Described f xs)
    (hg : Described g ys) : Described (.both f g) (xs ++ ys) where
  yields := fun x hx => by
    rcases List.mem_append.mp hx with hx | hx
    · obtain ⟨o, ho, hfits⟩ := hf.yields x hx
      exact ⟨o, List.mem_append_left _ ho, hfits⟩
    · obtain ⟨o, ho, hfits⟩ := hg.yields x hx
      exact ⟨o, List.mem_append_right _ ho, hfits⟩
  shaped := fun x hx => (List.mem_append.mp hx).elim (hf.shaped x) (hg.shaped x)
  width := fun n hn => by
    obtain ⟨a, ha, b, hb, rfl⟩ : ∃ a, Grammar.width f = some a ∧ ∃ b, Grammar.width g = some b ∧
        a + b = n := by simpa [Grammar.width, Option.bind_eq_some_iff] using hn
    rw [List.length_append, hf.width a ha, hg.width b hb]
  roles := fun r n hn => by
    obtain ⟨a, ha, b, hb, rfl⟩ : ∃ a, roleCount r f = some a ∧ ∃ b, roleCount r g = some b ∧
        a + b = n := by simpa [roleCount, Option.bind_eq_some_iff] using hn
    rw [rolesIn, List.countP_append]
    exact congrArg₂ (· + ·) (hf.roles r a ha) (hg.roles r b hb)

theorem Described.left {f : Shape} {xs : List Node} (h : Described f xs) (g : Shape) :
    Described (.either f g) xs where
  yields := fun x hx => by
    obtain ⟨o, ho, hfits⟩ := h.yields x hx
    exact ⟨o, List.mem_append_left _ ho, hfits⟩
  shaped := h.shaped
  width := fun n hn => h.width n (by
    rw [Grammar.width] at hn
    split at hn
    · exact hn
    · cases hn)
  roles := fun r n hn => h.roles r n (by
    rw [roleCount] at hn
    split at hn
    · exact hn
    · cases hn)

theorem Described.right {g : Shape} {xs : List Node} (h : Described g xs) (f : Shape) :
    Described (.either f g) xs where
  yields := fun x hx => by
    obtain ⟨o, ho, hfits⟩ := h.yields x hx
    exact ⟨o, List.mem_append_right _ ho, hfits⟩
  shaped := h.shaped
  width := fun n hn => h.width n (by
    rw [Grammar.width] at hn
    split at hn
    · next heq => exact heq ▸ hn
    · cases hn)
  roles := fun r n hn => h.roles r n (by
    rw [roleCount] at hn
    split at hn
    · next heq => exact heq ▸ hn
    · cases hn)

/-- Forms that read what another form reads. -/
theorem Described.same {f g : Shape} {xs : List Node} (h : Described f xs)
    (hyields : Grammar.yields g = Grammar.yields f) (hwidth : Grammar.width g = Grammar.width f)
    (hroles : ∀ r, roleCount r g = roleCount r f) : Described g xs where
  yields := hyields ▸ h.yields
  shaped := h.shaped
  width := hwidth ▸ h.width
  roles := fun r => hroles r ▸ h.roles r

theorem Described.many_nil (f : Shape) : Described (.many f) [] := by
  refine described_nil (fun n hn => by cases hn) fun r n hn => ?_
  rw [roleCount] at hn
  split at hn
  · exact (Option.some.inj hn).symm
  · cases hn

theorem Described.many_append {f : Shape} {xs ys : List Node} (hf : Described f xs)
    (hmany : Described (.many f) ys) : Described (.many f) (xs ++ ys) where
  yields := fun x hx => (List.mem_append.mp hx).elim (hf.yields x) (hmany.yields x)
  shaped := fun x hx => (List.mem_append.mp hx).elim (hf.shaped x) (hmany.shaped x)
  width := fun n hn => by cases hn
  roles := fun r n hn => by
    have hzero := hn
    rw [roleCount] at hzero
    split at hzero
    · next h0 =>
      rw [rolesIn, List.countP_append]
      exact (congrArg₂ (· + ·) (hf.roles r 0 h0) (hmany.roles r n hn)).trans (Nat.zero_add n)
    · cases hzero

theorem Described.node {k : Kind} {f : Shape} {xs : List Node} (h : Described f xs)
    (hcheck : checked (.node k f) = true) (t : Input) (pos : Nat) :
    Described (.node k f) [assemble t k pos xs] := by
  simp only [checked, Bool.and_eq_true] at hcheck
  obtain ⟨⟨hallows, honce⟩, -⟩ := hcheck
  refine described_one ?_ (allShaped_assemble ?_ h.shaped ?_) ?_ ?_
  · refine ⟨_, List.mem_singleton_self _, fits_outlineOver (kind_assemble t k pos xs)
      (role_assemble t k pos xs) fun hk hquiet => ?_⟩
    exact quiet_assemble hk fun x hx => quiet_of_all hquiet (h.yields x hx)
  · exact fun x hx => allowed_of_all hallows (h.yields x hx)
  · intro r hr
    simp only [keyOnce, hr] at honce
    split at honce
    · next m n hm hn =>
      obtain rfl : 0 = m := Option.some.inj hm
      rw [h.roles r n hn]
      simpa using honce
    · cases honce
  · exact fun n hn => (Option.some.inj hn).symm
  · exact fun r n hn => ⟨(Option.some.inj hn).symm, role_assemble t k pos xs⟩

theorem Described.role {f : Shape} {xs : List Node} (h : Described f xs) (r : Role) :
    Described (.role r f) (xs.map (Node.withRole r)) where
  yields := fun x hx => by
    obtain ⟨y, hy, rfl⟩ := List.mem_map.mp hx
    obtain ⟨o, ho, hfits⟩ := h.yields y hy
    refine ⟨_, List.mem_map_of_mem ho, ?_, ?_, ?_⟩
    · exact fun k hk => (Node.kind_withRole r y).trans (hfits.kind k hk)
    · exact fun r' hr' => (Node.role_withRole r y).trans (Option.some.inj hr')
    · exact fun hquiet => quiet_withRole (hfits.quiet hquiet) r
  shaped := fun x hx => by
    obtain ⟨y, hy, rfl⟩ := List.mem_map.mp hx
    exact (h.shaped y hy).withRole r
  width := fun n hn => by
    rw [List.length_map]
    exact h.width n hn
  roles := fun r' n hn => by
    rw [roleCount] at hn
    rw [rolesIn, List.countP_map]
    split at hn
    · next heq =>
      subst heq
      rw [← h.width n hn, List.countP_eq_length]
      intro x _
      simp
    · next hne =>
      rw [← Option.some.inj hn, List.countP_eq_zero]
      intro x _
      simpa using hne

theorem Described.terminated {f : Shape} {xs : List Node} (h : Described f xs)
    (test : Node → Bool) (start stop : Nat) :
    Described (.terminated test f) (xs ++ [Node.leaf .token start stop]) where
  yields := fun x hx => by
    rcases List.mem_append.mp hx with hx | hx
    · obtain ⟨o, ho, hfits⟩ := h.yields x hx
      exact ⟨o, List.mem_append_left _ ho, hfits⟩
    · obtain rfl := List.mem_singleton.mp hx
      refine ⟨_, List.mem_append_right _ (List.mem_singleton_self _),
        fits_outlineOver rfl rfl fun _ _ => ?_⟩
      exact Node.quiet_iff.mpr ⟨rfl, by simp [Node.leaf, Node.children]⟩
  shaped := fun x hx => by
    rcases List.mem_append.mp hx with hx | hx
    · exact h.shaped x hx
    · rw [List.mem_singleton.mp hx]
      exact allShaped_leaf rfl start stop
  width := fun n hn => by
    obtain ⟨m, hm, rfl⟩ := Option.map_eq_some_iff.mp hn
    rw [List.length_append, h.width m hm, List.length_singleton]
  roles := fun r n hn => by
    have hleaf : ((Node.leaf .token start stop).role == some r) = false := rfl
    rw [rolesIn, List.countP_append, List.countP_singleton, hleaf]
    exact h.roles r n hn

/-! Growing nodes and operators -/

/-- A step of a node that grows. -/
abbrev Step := Kind × Option Role × (Node → Bool) × Shape

theorem mem_stepKinds {steps : List Step} {step : Step} (h : step ∈ steps) :
    step.1 ∈ stepKinds steps := by
  induction steps with
  | nil => cases h
  | cons s steps ih =>
    obtain ⟨k, role, test, f⟩ := s
    rcases List.mem_cons.mp h with rfl | h
    · exact List.mem_cons_self
    · exact List.mem_cons_of_mem _ (ih h)

theorem quiet_of_mem_steps {steps : List Step} (hquiet : stepsQuiet steps = true)
    {k : Kind} {role : Option Role} {test : Node → Bool} {f : Shape}
    (h : (k, role, test, f) ∈ steps) :
    k.isUse = false ∧ (yields f).all Outline.quiet = true := by
  induction steps with
  | nil => cases h
  | cons s steps ih =>
    obtain ⟨k', role', test', f'⟩ := s
    simp only [stepsQuiet, Bool.and_eq_true, Bool.not_eq_true'] at hquiet
    rcases List.mem_cons.mp h with heq | h
    · cases heq
      exact hquiet.1
    · exact ih hquiet.2 h

/-- What the check of a step says. -/
structure StepChecked (quiet : Bool) (k : Kind) (role : Option Role) (f : Shape) : Prop where
  first : k.allows { role := role.map some, quiet } = true
  rest : (yields f).all k.allows = true
  once : keyOnce k (firstCount role) f = true
  checked : checked f = true

theorem stepChecked_of_mem {quiet : Bool} {steps : List Step}
    (hcheck : checkedSteps quiet steps = true) {k : Kind} {role : Option Role}
    {test : Node → Bool} {f : Shape} (h : (k, role, test, f) ∈ steps) :
    StepChecked quiet k role f := by
  induction steps with
  | nil => cases h
  | cons s steps ih =>
    obtain ⟨k', role', test', f'⟩ := s
    simp only [checkedSteps, Bool.and_eq_true] at hcheck
    obtain ⟨⟨⟨⟨hfirst, hrest⟩, honce⟩, hform⟩, hsteps⟩ := hcheck
    rcases List.mem_cons.mp h with heq | h
    · cases heq
      exact ⟨hfirst, hrest, honce, hform⟩
    · exact ih hsteps h

/-- What is known of a node while it grows. -/
structure Grown (base : Shape) (steps : List Step) (x : Node) : Prop where
  yields : ∃ o ∈ yields (.grow base steps), o.Fits x
  shaped : x.AllShaped
  quiet : ((Grammar.yields base).all Outline.quiet && stepsQuiet steps) = true → x.Quiet

theorem grown_base {base : Shape} {steps : List Step} {x : Node} (h : Described base [x]) :
    Grown base steps x where
  yields := by
    obtain ⟨o, ho, hfits⟩ := h.yields x (List.mem_singleton_self x)
    exact ⟨o, List.mem_append_left _ ho, hfits⟩
  shaped := h.shaped x (List.mem_singleton_self x)
  quiet := fun hquiet => by
    rw [Bool.and_eq_true] at hquiet
    exact quiet_of_all hquiet.1 (h.yields x (List.mem_singleton_self x))

/-- One step: the node becomes the first child of a larger one. -/
theorem Grown.step {base : Shape} {steps : List Step} {x : Node} (h : Grown base steps x)
    (hcheck :
      checkedSteps ((Grammar.yields base).all Outline.quiet && stepsQuiet steps) steps = true)
    {k : Kind} {role : Option Role} {test : Node → Bool} {f : Shape}
    (hstep : (k, role, test, f) ∈ steps) {ys : List Node} (hys : Described f ys) (t : Input)
    {first : Node} (hfirst : first = (role.map fun r => x.withRole r).getD x) :
    Grown base steps (assemble t k x.start (first :: ys)) := by
  have hc := stepChecked_of_mem hcheck hstep
  have hshaped : first.AllShaped := by
    rw [hfirst]
    cases role with
    | none => exact h.shaped
    | some r => exact h.shaped.withRole r
  have hquiet : ((Grammar.yields base).all Outline.quiet && stepsQuiet steps) = true →
      first.Quiet := by
    intro hq
    rw [hfirst]
    cases role with
    | none => exact h.quiet hq
    | some r => exact quiet_withRole (h.quiet hq) r
  have hrole : ∀ r, role = some r → first.role = some r := by
    rintro r rfl
    rw [hfirst]
    exact Node.role_withRole r x
  have hall : ((Grammar.yields base).all Outline.quiet && stepsQuiet steps) = true →
      (assemble t k x.start (first :: ys)).Quiet := by
    intro hq
    obtain ⟨hk, hf⟩ := quiet_of_mem_steps (Bool.and_eq_true _ _ ▸ hq).2 hstep
    refine quiet_assemble hk fun y hy => ?_
    rcases List.mem_cons.mp hy with rfl | hy
    · exact hquiet hq
    · exact quiet_of_all hf (hys.yields y hy)
  refine ⟨?_, allShaped_assemble ?_ ?_ ?_, hall⟩
  · refine ⟨_, List.mem_append_right _ (List.mem_map_of_mem (mem_stepKinds hstep)), ?_, ?_, hall⟩
    · exact fun k' hk' => (kind_assemble t k _ _).trans (Option.some.inj hk')
    · exact fun r hr => (role_assemble t k _ _).trans (Option.some.inj hr)
  · intro y hy
    rcases List.mem_cons.mp hy with rfl | hy
    · refine ⟨_, ⟨fun k' hk' => ?_, fun r hr => ?_, hquiet⟩, hc.first⟩
      · cases hk'
      · obtain ⟨r', hr', rfl⟩ := Option.map_eq_some_iff.mp hr
        exact hrole r' hr'
    · exact allowed_of_all hc.rest (hys.yields y hy)
  · intro y hy
    rcases List.mem_cons.mp hy with rfl | hy
    · exact hshaped
    · exact hys.shaped y hy
  · intro r hr
    have honce := hc.once
    simp only [keyOnce, hr] at honce
    split at honce
    · next m n hm hn =>
      obtain ⟨r', rfl, rfl⟩ := Option.map_eq_some_iff.mp hm
      have hcount : (if (first.role == some r) = true then 1 else 0) =
          if r' = r then 1 else 0 := by
        rw [hrole r' rfl]
        simp
      have hrest : ys.countP (fun x => x.role == some r) = n := hys.roles r n hn
      rw [rolesIn, List.countP_cons, hcount, hrest, Nat.add_comm]
      simpa using honce
    · cases honce

theorem described_grow {base : Shape} {steps : List Step} {x : Node} (h : Grown base steps x) :
    Described (.grow base steps) [x] :=
  described_one h.yields h.shaped (fun n hn => (Option.some.inj hn).symm) fun r n hn => by cases hn

/-- What a form that grows says of its node is all that is known while the node grows. -/
theorem Described.grown {base : Shape} {steps : List Step} {x : Node}
    (h : Described (.grow base steps) [x]) : Grown base steps x where
  yields := h.yields x (List.mem_singleton_self x)
  shaped := h.shaped x (List.mem_singleton_self x)
  quiet := fun hquiet => by
    have hall : (Grammar.yields (.grow base steps)).all Outline.quiet = true := by
      have hbase := hquiet
      rw [Bool.and_eq_true] at hbase
      rw [Grammar.yields, List.all_append, List.all_map, Bool.and_eq_true]
      exact ⟨hbase.1, List.all_eq_true.mpr fun _ _ => hquiet⟩
    exact quiet_of_all hall (h.yields x (List.mem_singleton_self x))

theorem kind_operatorLevel (s : String) : (operatorLevel s).2.2 ∈ operatorKinds := by
  unfold operatorLevel
  split <;> decide

theorem allows_operator {k : Kind} (h : k ∈ operatorKinds) (o : Outline) :
    k.allows o = true ∧ k.key = none := by
  simp only [operatorKinds, List.mem_cons, List.not_mem_nil, or_false] at h
  rcases h with rfl | rfl | rfl <;> exact ⟨rfl, rfl⟩

theorem fits_blank (x : Node) : Outline.Fits {} x := ⟨nofun, nofun, nofun⟩

/-- Grouping yields the first operand or a node over operators, all nodes of which are shaped. -/
theorem shaped_group (t : Input) (n low : Nat) {lhs : Node} {rest : List (Node × Node)}
    (hlhs : lhs.AllShaped) (hrest : ∀ p ∈ rest, p.1.AllShaped ∧ p.2.AllShaped) :
    (group t n lhs low rest).1.AllShaped ∧ (group t n lhs low rest).2 ⊆ rest ∧
      ((group t n lhs low rest).1 = lhs ∨ (group t n lhs low rest).1.kind ∈ operatorKinds ∧
        (group t n lhs low rest).1.role = none) := by
  induction n generalizing lhs low rest with
  | zero =>
    rw [group]
    exact ⟨hlhs, List.Subset.refl _, .inl rfl⟩
  | succ n ih =>
    cases rest with
    | nil =>
      rw [group]
      · exact ⟨hlhs, List.Subset.refl _, .inl rfl⟩
      · nofun
    | cons pair rest =>
      obtain ⟨op, rhs⟩ := pair
      obtain ⟨⟨hop, hrhs⟩, hrest⟩ := List.forall_mem_cons.mp hrest
      rw [group]
      dsimp only
      split
      · exact ⟨hlhs, List.Subset.refl _, .inl rfl⟩
      · generalize (if (operatorLevel (t.slice op.start op.stop)).2.1 = true then _ else _) = next
        have hkind := kind_operatorLevel (t.slice op.start op.stop)
        obtain ⟨hright, hsub, -⟩ := ih next hrhs hrest
        have hnode : (assemble t (operatorLevel (t.slice op.start op.stop)).2.2 lhs.start
            [lhs, op, (group t n rhs next rest).1]).AllShaped := by
          refine allShaped_assemble (fun x _ => ⟨{}, fits_blank x, (allows_operator hkind _).1⟩) ?_
            fun r hr => ?_
          · simpa using ⟨hlhs, hop, hright⟩
          · rw [(allows_operator hkind {}).2] at hr
            cases hr
        obtain ⟨hall, hsub', hcases⟩ := ih low hnode fun p hp => hrest p (hsub hp)
        refine ⟨hall, fun p hp => List.mem_cons_of_mem _ (hsub (hsub' hp)), .inr ?_⟩
        rcases hcases with heq | hcases
        · rw [heq]
          exact ⟨(kind_assemble t _ _ _).symm ▸ hkind, role_assemble t _ _ _⟩
        · exact hcases

theorem mem_pairsOf {xs : List Node} {p : Node × Node} (h : p ∈ pairsOf xs) :
    p.1 ∈ xs ∧ p.2 ∈ xs := by
  induction xs using pairsOf.induct with
  | case1 op rhs rest ih =>
    rcases List.mem_cons.mp h with rfl | h
    · simp
    · have := ih h
      simp [this]
  | case2 xs hxs =>
    rw [pairsOf] at h
    · cases h
    · exact hxs

theorem described_operators {operand pair : Shape} {x : Node} {ys : List Node}
    (hx : Described operand [x]) (hys : Described (.many pair) ys) (t : Input) (n : Nat) :
    Described (.operators operand pair) [(group t n x 0 (pairsOf ys)).1] := by
  have hpairs : ∀ p ∈ pairsOf ys, p.1.AllShaped ∧ p.2.AllShaped := fun p hp =>
    ⟨hys.shaped _ (mem_pairsOf hp).1, hys.shaped _ (mem_pairsOf hp).2⟩
  obtain ⟨hshaped, -, hcases⟩ := shaped_group t n 0
    (hx.shaped x (List.mem_singleton_self x)) hpairs
  refine described_one ?_ hshaped (fun n hn => (Option.some.inj hn).symm) fun r n hn => by cases hn
  rcases hcases with heq | ⟨hkind, hrole⟩
  · rw [heq]
    obtain ⟨o, ho, hfits⟩ := hx.yields x (List.mem_singleton_self x)
    exact ⟨o, List.mem_append_left _ ho, hfits⟩
  · refine ⟨_, List.mem_append_right _ (List.mem_map_of_mem hkind), ?_, ?_, nofun⟩
    · exact fun k hk => Option.some.inj hk
    · exact fun r hr => hrole.trans (Option.some.inj hr)

/-! Runs -/

/-- What the rules read is what their table says. -/
theorem described_rule {r : Rule} {xs : List Node} (h : Described (form r) xs) :
    Described (.rule r) xs where
  yields := by
    have htable : ∀ r, (yields (form r)).all (fun o => (ruleYields r).any fun o' =>
        (o'.kind.isNone || o'.kind == o.kind) && (o'.role.isNone || o'.role == o.role)
          && !o'.quiet) = true := by
      intro r
      cases r <;> decide +kernel
    intro x hx
    obtain ⟨o, ho, hfits⟩ := h.yields x hx
    obtain ⟨o', ho', hle⟩ := List.any_eq_true.mp (List.all_eq_true.mp (htable r) o ho)
    simp only [Bool.and_eq_true, Bool.or_eq_true, Option.isNone_iff_eq_none, beq_iff_eq,
      Bool.not_eq_true'] at hle
    obtain ⟨⟨hkind, hrole⟩, hquiet⟩ := hle
    refine ⟨o', ho', fun k hk => hfits.kind k ?_, fun r hr => hfits.role r ?_, fun hq => ?_⟩
    · rcases hkind with hnone | heq
      · rw [hnone] at hk
        cases hk
      · rw [← heq, hk]
    · rcases hrole with hnone | heq
      · rw [hnone] at hr
        cases hr
      · rw [← heq, hr]
    · rw [hquiet] at hq
      cases hq
  shaped := h.shaped
  width := by
    have htable : ∀ r, (ruleWidth r).isNone || width (form r) == ruleWidth r := by
      intro r
      cases r <;> decide +kernel
    intro n hn
    have hr := htable r
    rw [show ruleWidth r = some n from hn] at hr
    exact h.width n (by simpa using hr)
  roles := fun r n hn => by cases hn

variable {t : Input}

/-- What forms have read with a number of steps is as they describe it. -/
def RunsDescribed (t : Input) (n : Nat) : Prop :=
  ∀ (f : Shape) (mode : Mode) (pos : Nat) (xs : List Node) (q : Nat), checked f = true →
    run form t n f mode pos = some (xs, q) → Described f xs

/-- One case for each way to read. -/
theorem described_of_reads {f : Shape} {mode : Mode} {pos q : Nat} {xs : List Node}
    (h : Reads form t f mode pos xs q) (hcheck : checked f = true) : Described f xs := by
  induction h with
  | empty | ahead | notAhead =>
    exact described_nil (fun n hn => (Option.some.inj hn).symm)
      fun r n hn => (Option.some.inj hn).symm
  | lexeme => exact described_lexeme hcheck _ _
  | @rule r _ _ _ _ _ ih => exact described_rule (ih (checked_form r))
  | both _ _ ihf ihg =>
    simp only [checked, Bool.and_eq_true] at hcheck
    exact (ihf hcheck.1).both (ihg hcheck.2)
  | left _ ihf =>
    simp only [checked, Bool.and_eq_true] at hcheck
    exact (ihf hcheck.1).left _
  | right _ ihg =>
    simp only [checked, Bool.and_eq_true] at hcheck
    exact (ihg hcheck.2).right _
  | many_nil => exact .many_nil _
  | many_append _ _ ihf ihmany => exact (ihf hcheck).many_append (ihmany hcheck)
  | node _ ihf =>
    have hf := hcheck
    simp only [checked, Bool.and_eq_true] at hf
    exact (ihf hf.2).node hcheck t _
  | role _ ihf => exact (ihf hcheck).role _
  | given _ ihf | inMode _ ihf | keeping _ ihf => exact (ihf hcheck).same rfl rfl fun _ => rfl
  | grow_base _ ihbase =>
    simp only [checked, Bool.and_eq_true] at hcheck
    exact described_grow (grown_base (ihbase hcheck.1))
  | grow_step _ hstep _ ihx ihf =>
    have hsteps := hcheck
    simp only [checked, Bool.and_eq_true] at hsteps
    have hys := ihf (stepChecked_of_mem hsteps.2 hstep).checked
    exact described_grow ((ihx hcheck).grown.step hsteps.2 hstep hys t rfl)
  | operators _ _ ihx ihpairs =>
    simp only [checked, Bool.and_eq_true] at hcheck
    exact described_operators (ihx hcheck.1) (ihpairs hcheck.2) t _
  | terminated _ _ ihf => exact (ihf hcheck).terminated _ _ _

/-- What a form has read is as the form describes it. -/
theorem runsDescribed (t : Input) (n : Nat) : RunsDescribed t n := fun _ _ _ _ _ hcheck hrun =>
  described_of_reads (reads_of_run hrun) hcheck

end Grammar

/-- The children of a root are what was read and the comments around it. -/
theorem mem_rootOf {t : Input} {items : List Node} {c : Node} (hc : c ∈ (rootOf t items).children) :
    c ∈ items ∨ ∃ start stop, c = Node.leaf .comment start stop := by
  simp only [rootOf, Node.children, List.mem_append, List.mem_map] at hc
  rcases hc with (⟨range, -, rfl⟩ | hc) | ⟨range, -, rfl⟩
  · exact .inr ⟨_, _, rfl⟩
  · exact (mem_withComments hc).imp_right fun h => h.2
  · exact .inr ⟨_, _, rfl⟩

theorem described_of_parse? {d : Dialect} {s : String} {p : Parsed} (h : parse? d s = some p) :
    ∃ items, p.root = rootOf p.input items ∧ Grammar.Described Grammar.file items := by
  obtain ⟨-, -, items, stop, hroot, hrun, -⟩ := exists_run_of_parse? h
  exact ⟨items, hroot, Grammar.runsDescribed _ _ _ _ _ _ _ Grammar.checked_file hrun⟩

/-- Every node of a tree that is read is shaped. -/
theorem allShaped_of_parse? {d : Dialect} {s : String} {p : Parsed} (h : parse? d s = some p) :
    p.root.AllShaped := by
  obtain ⟨items, hroot, hitems⟩ := described_of_parse? h
  rw [hroot]
  intro m hm
  rcases Node.mem_preorder.mp hm with rfl | ⟨c, hc, hm⟩
  · exact ⟨fun c _ => ⟨{}, Grammar.fits_blank c, rfl⟩, nofun⟩
  · rcases mem_rootOf hc with hc | ⟨start, stop, rfl⟩
    · exact hitems.shaped c hc m hm
    · exact allShaped_leaf rfl start stop m hm

/-- A file holds statements and comments, but no punctuation of its own. -/
theorem ne_token_of_parse? {d : Dialect} {s : String} {p : Parsed} (h : parse? d s = some p)
    {c : Node} (hc : c ∈ p.root.children) : c.kind ≠ .token := by
  obtain ⟨items, hroot, hitems⟩ := described_of_parse? h
  rw [hroot] at hc
  rcases mem_rootOf hc with hc | ⟨start, stop, rfl⟩
  · have hkinds : (Grammar.yields Grammar.file).all (fun o => o.kind.any (· != .token)) = true := by
      decide +kernel
    obtain ⟨o, ho, hfits⟩ := hitems.yields c hc
    have hkind := List.all_eq_true.mp hkinds o ho
    cases hk : o.kind with
    | none => simp [hk] at hkind
    | some k =>
      rw [hfits.kind k hk]
      simpa [hk] using hkind
  · nofun

/-! What shapes say -/

namespace Node

variable {n c d : Node}

theorem Shaped.children_eq_nil (h : n.Shaped)
    (hkind : n.kind ∈ [.token, .comment, .identifier, .typeIdentifier, .importKeyword]) :
    n.children = [] := by
  rw [List.eq_nil_iff_forall_not_mem]
  intro c hc
  obtain ⟨o, -, ho⟩ := h.allowed c hc
  simp only [List.mem_cons, List.not_mem_nil, or_false] at hkind
  rcases hkind with hk | hk | hk | hk | hk <;> simp [hk, Kind.allows] at ho

/-- Punctuation, comments and names are quiet, type names excepted. -/
theorem Shaped.quiet_leaf (h : n.Shaped)
    (hkind : n.kind ∈ [.token, .comment, .identifier, .importKeyword]) : n.Quiet := by
  have hchildren := h.children_eq_nil (by
    simp only [List.mem_cons, List.not_mem_nil, or_false] at hkind ⊢
    tauto)
  refine quiet_iff.mpr ⟨?_, by simp [hchildren]⟩
  simp only [List.mem_cons, List.not_mem_nil, or_false] at hkind
  rcases hkind with hk | hk | hk | hk <;> rw [hk] <;> rfl

theorem Shaped.member (h : n.Shaped) (hkind : n.kind = .memberExpression) (hc : c ∈ n.children) :
    c.role = some .object ∨ c.Quiet := by
  obtain ⟨o, ho, hallow⟩ := h.allowed c hc
  simp only [hkind, Kind.allows, Bool.or_eq_true, beq_iff_eq] at hallow
  exact hallow.imp (ho.role _) ho.quiet

theorem Shaped.call (h : n.Shaped) (hkind : n.kind = .callExpression) (hc : c ∈ n.children) :
    c.role = some .function ∨ c.role = some .typeArguments ∨
      (c.role = some .arguments ∧ (c.kind = .arguments ∨ c.kind = .templateString)) ∨
      c.Quiet := by
  obtain ⟨o, ho, hallow⟩ := h.allowed c hc
  simp only [hkind, Kind.allows, Bool.or_eq_true, Bool.and_eq_true, beq_iff_eq] at hallow
  rcases hallow with ((hr | hr) | ⟨hr, hk⟩) | hq
  · exact .inl (ho.role _ hr)
  · exact .inr (.inl (ho.role _ hr))
  · exact .inr (.inr (.inl ⟨ho.role _ hr, hk.imp (ho.kind _) (ho.kind _)⟩))
  · exact .inr (.inr (.inr (ho.quiet hq)))

theorem Shaped.construct (h : n.Shaped) (hkind : n.kind = .newExpression)
    (hc : c ∈ n.children) :
    c.role = some .constructor ∨ c.role = some .typeArguments ∨
      (c.role = some .arguments ∧ c.kind = .arguments) ∨ c.Quiet := by
  obtain ⟨o, ho, hallow⟩ := h.allowed c hc
  simp only [hkind, Kind.allows, Bool.or_eq_true, Bool.and_eq_true, beq_iff_eq] at hallow
  rcases hallow with ((hr | hr) | ⟨hr, hk⟩) | hq
  · exact .inl (ho.role _ hr)
  · exact .inr (.inl (ho.role _ hr))
  · exact .inr (.inr (.inl ⟨ho.role _ hr, ho.kind _ hk⟩))
  · exact .inr (.inr (.inr (ho.quiet hq)))

theorem Shaped.extends (h : n.Shaped) (hkind : n.kind = .extendsClause) (hc : c ∈ n.children) :
    c.role = some .value ∨ c.role = some .typeArguments ∨ c.Quiet := by
  obtain ⟨o, ho, hallow⟩ := h.allowed c hc
  simp only [hkind, Kind.allows, Bool.or_eq_true, beq_iff_eq] at hallow
  rcases hallow with (hr | hr) | hq
  · exact .inl (ho.role _ hr)
  · exact .inr (.inl (ho.role _ hr))
  · exact .inr (.inr (ho.quiet hq))

theorem Shaped.generic (h : n.Shaped) (hkind : n.kind = .genericType) (hc : c ∈ n.children) :
    (c.role = some .name ∧ (c.kind = .typeIdentifier ∨ c.kind = .nestedTypeIdentifier)) ∨
      c.role = some .typeArguments ∨ c.Quiet := by
  obtain ⟨o, ho, hallow⟩ := h.allowed c hc
  simp only [hkind, Kind.allows, Bool.or_eq_true, Bool.and_eq_true, beq_iff_eq] at hallow
  rcases hallow with (⟨hr, hk⟩ | hr) | hq
  · exact .inl ⟨ho.role _ hr, hk.imp (ho.kind _) (ho.kind _)⟩
  · exact .inr (.inl (ho.role _ hr))
  · exact .inr (.inr (ho.quiet hq))

theorem Shaped.nested (h : n.Shaped) (hkind : n.kind = .nestedTypeIdentifier)
    (hc : c ∈ n.children) : (c.role = some .name ∧ c.kind = .typeIdentifier) ∨ c.Quiet := by
  obtain ⟨o, ho, hallow⟩ := h.allowed c hc
  simp only [hkind, Kind.allows, Bool.or_eq_true, Bool.and_eq_true, beq_iff_eq] at hallow
  exact hallow.imp (fun ⟨hr, hk⟩ => ⟨ho.role _ hr, ho.kind _ hk⟩) ho.quiet

theorem Shaped.body (h : n.Shaped)
    (hkind : n.kind ∈ [.classDeclaration, .abstractClassDeclaration, .classExpression,
      .interfaceDeclaration, .enumDeclaration, .module, .internalModule])
    (hc : c ∈ n.children) (hrole : c.role = some .body) : c.kind.isBody = true := by
  obtain ⟨o, ho, hallow⟩ := h.allowed c hc
  have hallow : o.role.isSome = true ∧
      (o.role ≠ some (some .body) ∨ (o.kind.map Kind.isBody).getD false = true) := by
    simp only [List.mem_cons, List.not_mem_nil, or_false] at hkind
    rcases hkind with hk | hk | hk | hk | hk | hk | hk <;>
      simpa [hk, Kind.allows] using hallow
  obtain ⟨r, hr⟩ := Option.isSome_iff_exists.mp hallow.1
  obtain rfl : r = some .body := (ho.role r hr).symm.trans hrole
  obtain ⟨k, hk, hbody⟩ : ∃ k, o.kind = some k ∧ k.isBody = true := by
    cases hk : o.kind with
    | none => simp [hr, hk] at hallow
    | some k => exact ⟨k, rfl, by simpa [hr, hk] using hallow.2⟩
  rw [ho.kind k hk]
  exact hbody

/-- The child with the key role is the one that is found by it. -/
theorem Shaped.child?_key (h : n.Shaped) {r : Role} (hkey : n.kind.key = some r) :
    ∃ d, n.child? r = some d ∧ ∀ c ∈ n.children, c.role = some r → c = d := by
  have hcount := h.key r hkey
  rw [rolesIn, List.countP_eq_length_filter, List.length_eq_one_iff] at hcount
  obtain ⟨d, hd⟩ := hcount
  have hall : ∀ c ∈ n.children, c.role = some r → c = d := by
    intro c hc hrole
    have hmem : c ∈ n.children.filter fun x => x.role == some r :=
      List.mem_filter.mpr ⟨hc, by simp [hrole]⟩
    rw [hd] at hmem
    exact List.mem_singleton.mp hmem
  refine ⟨d, ?_, hall⟩
  rw [child?, ← List.head?_filter, hd, List.head?_cons]

end Node

end CodeIndex.Source
