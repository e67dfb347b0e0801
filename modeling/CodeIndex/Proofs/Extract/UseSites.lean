import CodeIndex.Proofs.Extract.Distinct
import CodeIndex.Proofs.Source.Shape

/-!
Which use-sites of a file are reported. A walk from the root to a type name, a call or a constructor
call is followed down the tree: unless it enters one of the few places that a visit passes over, the
visit follows it to its end, and what it finds there is reported exactly once.
-/
namespace CodeIndex.Extract

open Source

namespace References

open Symbols

/-! Use-sites -/

/-- A type name that its parent declares. -/
def declaredBy (parent : Option Node) (n : Node) : Bool :=
  n.role == some .name && (parent.map fun p => declaresTypeName p.kind).getD false

/-- What a call or a constructor call calls. -/
def callee? (n : Node) : Option Node :=
  match n.kind with
  | .callExpression => n.child? .function
  | .newExpression => n.child? .constructor
  | _ => none

def isImportCall (n : Node) : Bool :=
  n.kind == .callExpression && ((n.child? .function).map Node.kind) == some .importKeyword

/-- The string that a dynamic import names. -/
def importedName? (n : Node) : Option Node :=
  if isImportCall n then (n.child? .arguments).bind importedString? else none

/-- The kinds whose children are what a class or an interface is based on. -/
def isHeritage : Kind → Bool
  | .classHeritage | .extendsClause | .implementsClause | .extendsTypeClause => true
  | _ => false

/-- The places that a visit passes over, as a node with its parent and a child. -/
inductive PassedOver : Option Node → Node → Node → Prop where
  | importStatement {parent : Option Node} {n c : Node} (h : n.kind = .importStatement) :
      PassedOver parent n c
  | reexport {parent : Option Node} {n c : Node} (h : n.kind = .exportStatement)
      (hsource : n.hasChild .source = true) : PassedOver parent n c
  /-- The type arguments of a call. -/
  | callTypes {parent : Option Node} {n c : Node} (h : n.kind = .callExpression)
      (hc : c.role = some .typeArguments) : PassedOver parent n c
  /-- The arguments of a dynamic import of a string. -/
  | specifier {parent : Option Node} {n c : Node} (h : (importedName? n).isSome = true)
      (hc : c.role = some .arguments) : PassedOver parent n c
  /-- All but the first argument of a dynamic import. -/
  | computed {call n c : Node} (h : isImportCall call = true) (hn : n.role = some .arguments)
      (hc : n.named.head? ≠ some c) : PassedOver (some call) n c
  /-- The object of a member that a class is based on. -/
  | base {clause n c : Node} (h : isHeritage clause.kind = true)
      (hn : n.kind = .memberExpression) (hc : c.role = some .object) :
      PassedOver (some clause) n c

/-- The nodes none of whose children are passed over. -/
def isPlain (n : Node) : Bool :=
  n.kind ∉ [.importStatement, .exportStatement, .callExpression, .memberExpression] &&
    n.role != some .arguments

theorem kind_of_importedName? {n specifier : Node} (h : importedName? n = some specifier) :
    n.kind = .callExpression := by
  unfold importedName? isImportCall at h
  split at h
  · next hcall => simpa using (Bool.and_eq_true_iff.mp hcall).1
  · cases h

theorem not_passedOver {parent : Option Node} {n c : Node} (hplain : isPlain n = true) :
    ¬ PassedOver parent n c := by
  intro h
  cases h with
  | importStatement h | reexport h | callTypes h => simp [isPlain, h] at hplain
  | specifier h =>
    obtain ⟨specifier, hspecifier⟩ := Option.isSome_iff_exists.mp h
    simp [isPlain, kind_of_importedName? hspecifier] at hplain
  | computed _ hn => simp [isPlain, hn] at hplain
  | base _ hn => simp [isPlain, hn] at hplain

/-- A node below another one that is reached without entering a place that is passed over, each of
them with its parent. -/
inductive Reached : Option Node → Node → Option Node → Node → Prop where
  | here {parent : Option Node} {n : Node} : Reached parent n parent n
  | child {parent inner : Option Node} {n c m : Node} (hc : c ∈ n.children)
      (hopen : ¬ PassedOver parent n c) (h : Reached (some n) c inner m) :
      Reached parent n inner m

theorem Reached.preorder_subset {parent inner : Option Node} {n m : Node}
    (h : Reached parent n inner m) : m.preorder ⊆ n.preorder := by
  induction h with
  | here => exact List.Subset.refl _
  | child hc _ _ ih => exact fun d hd => Node.mem_preorder.mpr (.inr ⟨_, hc, ih hd⟩)

/-! One step of a visit -/

/-- The kind that a visit is told of the parent. -/
def kindOf (parent : Option Node) : Kind := (parent.map Node.kind).getD .program

/-- The uses that a visit can have for a node below its parent. -/
def Suits (use : Use) (parent : Option Node) (n : Node) : Prop :=
  match use with
  | .plain | .callee _ | .constructed => True
  | .argumentList => n.kind = .arguments ∨ n.kind = .templateString
  | .importArguments =>
    (n.kind = .arguments ∨ n.kind = .templateString) ∧ n.role = some .arguments ∧
      ∃ call, parent = some call ∧ isImportCall call = true
  | .heritage kind =>
    (kind = .extends ∨ kind = .implements) ∧
      ∃ clause, parent = some clause ∧
        (isHeritage clause.kind = true ∨ n.kind ≠ .memberExpression)

variable {f : File}

theorem mem_visitAll {use : Node → Option Use} {parent : Kind} {cs : List Node} {c : Node}
    (hc : c ∈ cs) {u : Use} (hu : use c = some u) {r : Reference} (hr : r ∈ visit f u parent c) :
    r ∈ visitAll f use parent cs := by
  induction cs with
  | nil => cases hc
  | cons d ds ih =>
    rw [visitAll, List.mem_append]
    rcases List.mem_cons.mp hc with rfl | hc
    · exact .inl (by rw [hu]; exact hr)
    · exact .inr (ih hc)

theorem mem_visitArguments {parent : Kind} {cs : List Node} {c : Node} (hc : c ∈ cs)
    (htoken : c.kind ≠ .token) (hname : c.kind ≠ .identifier) {r : Reference}
    (hr : r ∈ visit f .plain parent c) : r ∈ visitArguments f parent cs := by
  induction cs with
  | nil => cases hc
  | cons d ds ih =>
    rw [visitArguments, List.mem_append]
    rcases List.mem_cons.mp hc with rfl | hc
    · exact .inl (by simpa [htoken, hname] using hr)
    · exact .inr (ih hc)

theorem visitFirst_eq {parent : Kind} {cs : List Node} {c : Node}
    (h : (cs.filter Node.isNamed).head? = some c) :
    visitFirst f parent cs = visit f .plain parent c := by
  induction cs with
  | nil => cases h
  | cons d ds ih =>
    rw [visitFirst]
    by_cases htoken : d.kind = .token
    · have hnamed : d.isNamed = false := by simp [Node.isNamed, htoken]
      rw [List.filter_cons_of_neg (by simp [hnamed])] at h
      simpa [htoken] using ih h
    · have hnamed : d.isNamed = true := by simp [Node.isNamed, htoken]
      rw [List.filter_cons_of_pos hnamed, List.head?_cons] at h
      obtain rfl := Option.some.inj h
      simp [htoken]

/-- A child is visited, or it is a type name that is reported without a visit. -/
inductive Followed (f : File) (use : Use) (parent : Option Node) (n c : Node) : Prop where
  | visited {inner : Use} (hsuits : Suits inner (some n) c)
      (hsub : ∀ r ∈ visit f inner n.kind c, r ∈ visit f use (kindOf parent) n) :
      Followed f use parent n c
  | named (hkind : c.kind = .typeIdentifier) {kind : ReferenceKind}
      (hbase : kind = .extends ∨ kind = .implements)
      (hr : ∃ metadata, reference f c (f.text c) kind metadata ∈ visit f use (kindOf parent) n) :
      Followed f use parent n c

theorem loud_ne {c : Node} (hshaped : c.Shaped) (hloud : ¬ c.Quiet) :
    c.kind ≠ .token ∧ c.kind ≠ .identifier ∧ c.kind ≠ .importKeyword := by
  refine ⟨?_, ?_, ?_⟩
  all_goals
    intro hkind
    exact hloud (hshaped.quiet_leaf (by simp [hkind]))

/-- A child is given a use that suits it. -/
def Used (uses : Node → Option Use) (n c : Node) : Prop :=
  ∃ inner, uses c = some inner ∧ Suits inner (some n) c

section

variable {parent : Option Node} {n c : Node}

theorem used_onlyRole (inner : Use) {role : Role} (hrole : c.role = some role)
    (hsuits : Suits inner (some n) c) : Used (onlyRole role inner) n c :=
  ⟨inner, by simp [onlyRole, hrole], hsuits⟩

theorem used_generic {kind : ReferenceKind} (hkind : n.kind = .genericType) (hn : n.Shaped)
    (hc : c ∈ n.children) (hloud : ¬ c.Quiet) (hbase : kind = .extends ∨ kind = .implements) :
    Used (genericUse kind) n c := by
  rcases hn.generic hkind hc with ⟨hrole, hname⟩ | hrole | hquiet
  · refine ⟨.heritage kind, by simp [genericUse, hrole], hbase, n, rfl, .inr ?_⟩
    rcases hname with hname | hname <;> simp [hname]
  · exact ⟨.plain, by simp [genericUse, hrole], trivial⟩
  · exact absurd hquiet hloud

theorem used_new (hkind : n.kind = .newExpression) (hn : n.Shaped) (hc : c ∈ n.children)
    (hloud : ¬ c.Quiet) : Used newUse n c := by
  rcases hn.construct hkind hc with hrole | hrole | ⟨hrole, hargs⟩ | hquiet
  · exact ⟨.constructed, by simp [newUse, hrole], trivial⟩
  · exact ⟨.plain, by simp [newUse, hrole], trivial⟩
  · exact ⟨.argumentList, by simp [newUse, hrole], .inl hargs⟩
  · exact absurd hquiet hloud

theorem used_heritage (hkind : n.kind = .classHeritage) (htoken : c.kind ≠ .token) :
    Used heritageUse n c := by
  unfold Used heritageUse
  split
  · contradiction
  · exact ⟨.plain, rfl, trivial⟩
  · exact ⟨.plain, rfl, trivial⟩
  · exact ⟨.heritage .extends, rfl, .inl rfl, n, rfl, .inl (by rw [hkind]; rfl)⟩

/-- The function of a call and its arguments, unless they are a string that is imported. -/
theorem used_call (hkind : n.kind = .callExpression) (hn : n.Shaped) (hc : c ∈ n.children)
    (himport : c.kind ≠ .importKeyword) (hloud : ¬ c.Quiet) (hopen : ¬ PassedOver parent n c)
    (optional : Bool) : importedName? n = none ∧ Used (callUse (isImportCall n) optional) n c := by
  obtain ⟨d, hd, hunique⟩ := hn.child?_key (r := .function) (by rw [hkind]; rfl)
  rcases hn.call hkind hc with hrole | hrole | ⟨hrole, hargs⟩ | hquiet
  · obtain rfl := hunique c hc hrole
    have hcall : isImportCall n = false := by simp [isImportCall, hd, himport]
    have huse : callUse (isImportCall n) optional c = some (.callee optional) := by
      simp [callUse, hrole, hcall]
    exact ⟨by simp [importedName?, hcall], _, huse, trivial⟩
  · exact absurd (.callTypes hkind hrole) hopen
  · refine ⟨?_, ?_⟩
    · by_contra hname
      exact hopen (.specifier (Option.isSome_iff_ne_none.mpr hname) hrole)
    · cases hcall : isImportCall n with
      | true => exact ⟨.importArguments, by simp [callUse, hrole], hargs, hrole, n, rfl, hcall⟩
      | false => exact ⟨.argumentList, by simp [callUse, hrole], hargs⟩
  · exact absurd hquiet hloud

theorem visit_call {use : Use} (hkind : n.kind = .callExpression) (hsuits : Suits use parent n) :
    visit f use (kindOf parent) n =
      match importedName? n with
      | some specifier =>
        let text := unquote (f.text specifier)
        [reference f n text .import
          { importSource := some text, importStyle := some .dynamic, dynamic := true }]
      | none =>
        visitAll f (callUse (isImportCall n) (n.hasChild .optionalChain)) n.kind n.children := by
  cases n with
  | mk k role s e cs =>
    obtain rfl : k = .callExpression := hkind
    unfold visit importedName? isImportCall
    cases use
    case argumentList => rcases hsuits with h | h <;> cases h
    case importArguments => rcases hsuits.1 with h | h <;> cases h
    all_goals
      simp only [Node.kind, beq_self_eq_true, Bool.true_and]
      split
      · next himport hspecifier => simp [himport, hspecifier]
      · next hnone =>
        split
        · next hspecifier =>
          split at hspecifier
          · next himport => exact (hnone _ himport hspecifier).elim
          · cases hspecifier
        · rfl

theorem visit_new {use : Use} (hkind : n.kind = .newExpression) (hsuits : Suits use parent n) :
    visit f use (kindOf parent) n = visitAll f newUse n.kind n.children := by
  cases n with
  | mk k role s e cs =>
    obtain rfl : k = .newExpression := hkind
    unfold visit
    cases use
    case argumentList => rcases hsuits with h | h <;> cases h
    case importArguments => rcases hsuits.1 with h | h <;> cases h
    all_goals rfl

theorem followed_of_used {use : Use} {uses : Node → Option Use} (hc : c ∈ n.children)
    (hused : Used uses n c)
    (hsub : visitAll f uses n.kind n.children ⊆ visit f use (kindOf parent) n) :
    Followed f use parent n c := by
  obtain ⟨inner, huse, hsuits⟩ := hused
  exact .visited hsuits fun _ hr => hsub (mem_visitAll hc huse hr)

/-- One case for each way to visit a node. -/
theorem followed_child {use : Use} (hsuits : Suits use parent n) (hn : n.Shaped)
    (hc : c ∈ n.children) (hshaped : c.Shaped) (hloud : ¬ c.Quiet)
    (hopen : ¬ PassedOver parent n c) : Followed f use parent n c := by
  obtain ⟨htoken, hname, himport⟩ := loud_ne hshaped hloud
  have hall : ∀ u, Suits u (some n) c → Used (allNamed u) n c := fun u hu =>
    ⟨u, by simp [allNamed, Node.isNamed, htoken], hu⟩
  have hleaf : n.kind ∉ [.token, .comment, .identifier, .typeIdentifier, .importKeyword] := by
    intro hmem
    rw [hn.children_eq_nil hmem] at hc
    cases hc
  have hobject : n.kind = .memberExpression → Used (onlyRole .object .plain) n c := fun hkind =>
    used_onlyRole .plain ((hn.member hkind hc).resolve_right hloud) trivial
  have through : ∀ uses, Used uses n c →
      visitAll f uses n.kind n.children ⊆ visit f use (kindOf parent) n →
      Followed f use parent n c := fun _ => followed_of_used hc
  have wholly : ∀ uses, Used uses n c →
      visitAll f uses n.kind n.children = visit f use (kindOf parent) n →
      Followed f use parent n c := fun uses hused heq =>
    through uses hused (heq ▸ List.Subset.refl _)
  cases n with
  | mk k role s e cs =>
    have hcs : c ∈ cs := hc
    generalize hvisit : visit f use (kindOf parent) (.mk k role s e cs) = found at through wholly
    have hfound := hvisit
    rw [visit.eq_def] at hvisit
    dsimp only at hvisit
    split at hvisit
    -- names and comments
    case h_1 | h_3 | h_7 | h_8 | h_17 | h_22 => simp [Node.kind] at hleaf
    -- member expressions
    case h_2 | h_4 | h_16 =>
      refine through _ (hobject rfl) ?_
      rw [← hvisit]
      exact List.subset_append_right _ _
    -- arguments
    case h_5 =>
      refine .visited (show Suits .plain _ _ from trivial) fun r hr => ?_
      rw [hfound, ← hvisit]
      exact mem_visitArguments hcs htoken hname hr
    case h_6 =>
      obtain ⟨-, hrole, call, rfl, hcall⟩ := hsuits
      refine .visited (show Suits .plain _ _ from trivial) fun r hr => ?_
      rw [hfound, ← hvisit, visitFirst_eq]
      · exact hr
      · exact Classical.not_not.mp fun hne => hopen (.computed hcall hrole hne)
    -- what a class is based on: a member, a type of a namespace, a generic type
    case h_9 =>
      obtain ⟨-, clause, rfl, hclause⟩ := hsuits
      have hrole : c.role = some .object := (hn.member rfl hc).resolve_right hloud
      exact absurd (.base (hclause.resolve_right fun h => h rfl) rfl hrole) hopen
    case h_10 kind =>
      obtain ⟨hrole, hkind⟩ := (hn.nested rfl hc).resolve_right hloud
      obtain ⟨d, hd, hunique⟩ := hn.child?_key rfl
      obtain rfl := hunique c hc hrole
      refine .named hkind hsuits.1 ?_
      rw [hfound, ← hvisit, hd]
      exact ⟨_, List.mem_singleton_self _⟩
    case h_11 => exact wholly _ (used_generic rfl hn hc hloud hsuits.1) hvisit
    -- the rest in the order of the kinds, whatever the use
    case h_12 => exact absurd (.importStatement rfl) hopen
    case h_13 =>
      split at hvisit
      · next hsource =>
        exact absurd (.reexport rfl (by simp [Node.hasChild, hsource])) hopen
      · exact wholly _ (hall .plain trivial) hvisit
    case h_14 =>
      obtain ⟨hnone, hused⟩ := used_call rfl hn hc himport hloud hopen
        ((Node.mk .callExpression role s e cs).hasChild .optionalChain)
      have hcall := visit_call (f := f) rfl hsuits
      rw [hnone, hfound] at hcall
      exact wholly _ hused hcall.symm
    case h_15 => exact wholly _ (used_new rfl hn hc hloud) hvisit
    case h_18 => exact wholly _ (used_heritage rfl htoken) hvisit
    case h_19 =>
      rcases hn.extends rfl hc with hrole | hrole | hquiet
      · refine through _ (used_onlyRole (.heritage .extends) hrole ?_) ?_
        · exact ⟨.inl rfl, _, rfl, .inl rfl⟩
        · rw [← hvisit]
          exact List.subset_append_left _ _
      · refine through _ (used_onlyRole .plain hrole trivial) ?_
        rw [← hvisit]
        exact List.subset_append_right _ _
      · exact absurd hquiet hloud
    case h_20 => exact wholly _ (hall (.heritage _) ⟨.inr rfl, _, rfl, .inl rfl⟩) hvisit
    case h_21 => exact wholly _ (hall (.heritage _) ⟨.inl rfl, _, rfl, .inl rfl⟩) hvisit
    case h_23 => exact wholly _ (hall .plain trivial) hvisit

end

/-! Visits of use-sites -/

/-- A use-site at which every visit reports what is wanted. -/
structure Wanted (f : File) (parent : Option Node) (m : Node) (P : Reference → Prop) : Prop where
  use : m.kind.isUse = true
  visited : ∀ use, Suits use parent m → ∃ r ∈ visit f use (kindOf parent) m, P r
  named : m.kind = .typeIdentifier → ∀ kind metadata, (kind = .extends ∨ kind = .implements) →
    P (reference f m (f.text m) kind metadata)

/-- By induction on the walk: each step down is one that the visit follows. -/
theorem Reached.found {parent inner : Option Node} {n m : Node} {P : Reference → Prop}
    (h : Reached parent n inner m) (hwanted : Wanted f inner m P) (hshaped : n.AllShaped)
    {use : Use} (hsuits : Suits use parent n) : ∃ r ∈ visit f use (kindOf parent) n, P r := by
  induction h generalizing use with
  | here => exact hwanted.visited use hsuits
  | @child parent inner n c m hc hopen hinner ih =>
    have hchild : c.AllShaped := fun d hd => hshaped d (Node.mem_preorder.mpr (.inr ⟨c, hc, hd⟩))
    have hloud : ¬ c.Quiet := fun hquiet => by
      have hkind := hquiet m (hinner.preorder_subset m.self_mem_preorder)
      rw [hwanted.use] at hkind
      cases hkind
    have hself : c.Shaped := hchild c c.self_mem_preorder
    rcases followed_child hsuits (hshaped n n.self_mem_preorder) hc hself hloud hopen with
      ⟨hsuits', hsub⟩ | ⟨hkind, hbase, metadata, hr⟩
    · obtain ⟨r, hr, hP⟩ := ih hwanted hchild hsuits'
      exact ⟨r, hsub r hr, hP⟩
    · have hleaf := hself.children_eq_nil (by simp [hkind])
      cases hinner with
      | here => exact ⟨_, hr, hwanted.named hkind _ _ hbase⟩
      | child hd _ _ =>
        rw [hleaf] at hd
        cases hd

/-- A reference to the type of a node. -/
def IsType (f : File) (m : Node) (r : Reference) : Prop :=
  ∃ kind metadata, (kind = .typeReference ∨ kind = .extends ∨ kind = .implements) ∧
    r = reference f m (f.text m) kind metadata

theorem wanted_type {parent : Option Node} {m : Node} (hkind : m.kind = .typeIdentifier)
    (hfree : declaredBy parent m = false) : Wanted f parent m (IsType f m) where
  use := by rw [hkind]; rfl
  named := fun _ kind metadata hbase => ⟨kind, metadata, .inr hbase, rfl⟩
  visited := by
    intro use hsuits
    cases m with
    | mk k role s e cs =>
      obtain rfl : k = .typeIdentifier := hkind
      have hplain : (role == some .name && declaresTypeName (kindOf parent)) = false := by
        cases parent with
        | none => exact Bool.and_false _
        | some p => exact hfree
      unfold visit
      cases use with
      | argumentList => rcases hsuits with h | h <;> cases h
      | importArguments => rcases hsuits.1 with h | h <;> cases h
      | heritage kind =>
        exact ⟨_, List.mem_singleton_self _, kind, _, .inr hsuits.1, rfl⟩
      | plain | callee _ | constructed =>
        simp only [hplain, Bool.false_eq_true, if_false]
        exact ⟨_, List.mem_singleton_self _, _, _, .inl rfl, rfl⟩

/-- The name that a callee is called by. -/
def calledName? (callee : Node) : Option Node :=
  match callee.kind with
  | .identifier => some callee
  | .memberExpression => callee.child? .property
  | _ => none

def IsCall (f : File) (name : Node) (r : Reference) : Prop :=
  ∃ metadata, r = reference f name (f.text name) .call metadata

theorem visit_callee {callee name : Node} (h : calledName? callee = some name) {use : Use}
    (huse : use = .constructed ∨ ∃ optional, use = .callee optional) (parent : Kind) :
    ∃ r ∈ visit f use parent callee, IsCall f name r := by
  cases callee with
  | mk k role s e cs =>
    unfold calledName? at h
    split at h
    · next hkind =>
      obtain rfl : k = .identifier := hkind
      obtain rfl := Option.some.inj h
      unfold visit
      rcases huse with rfl | ⟨optional, rfl⟩
      · exact ⟨_, List.mem_singleton_self _, _, rfl⟩
      · exact ⟨_, List.mem_singleton_self _, _, rfl⟩
    · next hkind =>
      obtain rfl : k = .memberExpression := hkind
      have hmember : ∀ metadata, ∃ r ∈ memberCall f (.mk .memberExpression role s e cs) metadata,
          IsCall f name r := by
        intro metadata
        rw [memberCall, h]
        exact ⟨_, List.mem_singleton_self _, _, rfl⟩
      unfold visit
      rcases huse with rfl | ⟨optional, rfl⟩
      · obtain ⟨r, hr, hcall⟩ := hmember { constructor := true }
        exact ⟨r, List.mem_append_left _ hr, hcall⟩
      · obtain ⟨r, hr, hcall⟩ := hmember { isMethodCall := true, optionalChain := optional ||
          (Node.mk .memberExpression role s e cs).hasChild .optionalChain }
        exact ⟨r, List.mem_append_left _ hr, hcall⟩
    · cases h

theorem wanted_call {parent : Option Node} {m callee name : Node}
    (hcallee : callee? m = some callee) (hname : calledName? callee = some name) :
    Wanted f parent m (IsCall f name) := by
  unfold callee? at hcallee
  split at hcallee
  · next hkind =>
    refine ⟨by rw [hkind]; rfl, fun use hsuits => ?_, fun htype => by simp [hkind] at htype⟩
    have himport : isImportCall m = false := by
      have hne : callee.kind ≠ .importKeyword := by
        intro hkind
        simp [calledName?, hkind] at hname
      simp [isImportCall, hcallee, hne]
    obtain ⟨hmem, hrole⟩ := Node.role_of_child? hcallee
    obtain ⟨r, hr, hcall⟩ := visit_callee (f := f) hname
      (.inr ⟨m.hasChild .optionalChain, rfl⟩) m.kind
    refine ⟨r, ?_, hcall⟩
    rw [visit_call hkind hsuits, importedName?, himport]
    exact mem_visitAll hmem (by simp [callUse, hrole]) hr
  · next hkind =>
    refine ⟨by rw [hkind]; rfl, fun use hsuits => ?_, fun htype => by simp [hkind] at htype⟩
    obtain ⟨hmem, hrole⟩ := Node.role_of_child? hcallee
    obtain ⟨r, hr, hcall⟩ := visit_callee (f := f) hname (.inl rfl) m.kind
    refine ⟨r, ?_, hcall⟩
    rw [visit_new hkind hsuits]
    exact mem_visitAll hmem (by simp [newUse, hrole]) hr
  · cases hcallee

def IsDynamicImport (f : File) (m specifier : Node) (r : Reference) : Prop :=
  r = reference f m (unquote (f.text specifier)) .import
    { importSource := some (unquote (f.text specifier)), importStyle := some .dynamic
      dynamic := true }

theorem wanted_import {parent : Option Node} {m specifier : Node}
    (h : importedName? m = some specifier) : Wanted f parent m (IsDynamicImport f m specifier) := by
  have hkind := kind_of_importedName? h
  refine ⟨by rw [hkind]; rfl, fun use hsuits => ?_, fun htype => by simp [hkind] at htype⟩
  rw [visit_call hkind hsuits, h]
  exact ⟨_, List.mem_singleton_self _, rfl⟩

end References

open References

/-- The references of a file at the start of a node. -/
def referencesAt (x : Extraction) (p : Parsed) (n : Node) : List Reference :=
  let place := p.input.place n.start
  x.references.filter fun r => site r == (place.line, place.column)

/-- The use-sites that a node makes are each reported once. -/
structure Reported (x : Extraction) (p : Parsed) (parent : Option Node) (n : Node) : Prop where
  typeName : n.kind = .typeIdentifier → declaredBy parent n = false → ∃ r,
    referencesAt x p n = [r] ∧ r.name = p.text n ∧
      (r.kind = .typeReference ∨ r.kind = .extends ∨ r.kind = .implements)
  called : ∀ callee, callee? n = some callee →
    callee.kind = .identifier ∨ callee.kind = .memberExpression → ∃ name,
      calledName? callee = some name ∧
        ∃ r, referencesAt x p name = [r] ∧ r.name = p.text name ∧ r.kind = .call
  imported : ∀ specifier, importedName? n = some specifier → ∃ r,
    referencesAt x p n = [r] ∧ r.name = Symbols.unquote (p.text specifier) ∧ r.kind = .import ∧
      r.metadata.importSource = some r.name ∧ r.metadata.importStyle = some .dynamic ∧
      r.metadata.dynamic = true

theorem filter_eq_singleton {α β : Type} [BEq β] [LawfulBEq β] {g : α → β} {xs : List α} {a : α}
    (hnodup : (xs.map g).Nodup) (ha : a ∈ xs) : xs.filter (fun x => g x == g a) = [a] := by
  have hlength : (xs.filter fun x => g x == g a).length = 1 := by
    rw [← List.countP_eq_length_filter, ← List.count_eq_one_of_mem hnodup (List.mem_map_of_mem ha),
      List.count, List.countP_map]
    rfl
  obtain ⟨b, hb⟩ := List.length_eq_one_iff.mp hlength
  have hmem : a ∈ xs.filter fun x => g x == g a := List.mem_filter.mpr ⟨ha, beq_self_eq_true _⟩
  rw [hb] at hmem ⊢
  rw [List.mem_singleton.mp hmem]

/-- What is reported of a node that is reached. -/
theorem referencesAt_of_reached {path content : String} {x : Extraction} {p : Parsed}
    (h : extractFile path content = .ok x) (hp : parseFile path content = .ok p)
    (hroot : p.root.AllShaped)
    {parent : Option Node} {m name : Node} {P : Reference → Prop}
    (hreached : Reached none p.root parent m) (hwanted : Wanted ⟨path, p⟩ parent m P)
    (hP : ∀ r, P r → ∃ text kind metadata, r = reference ⟨path, p⟩ name text kind metadata) :
    ∃ r, P r ∧ referencesAt x p name = [withEnclosing x.symbols r] := by
  obtain ⟨q, hq, -, hreferences⟩ := extractFile_eq_ok h
  obtain rfl := Except.ok.inj (hp.symm.trans hq)
  obtain ⟨r, hr, hrP⟩ := hreached.found hwanted hroot (show Suits .plain _ _ from trivial)
  have hmem : withEnclosing x.symbols r ∈ x.references := by
    rw [hreferences]
    exact List.mem_map_of_mem hr
  obtain ⟨text, kind, metadata, rfl⟩ := hP r hrP
  exact ⟨_, hrP, filter_eq_singleton (extractFile_sites h) hmem⟩

/-- An identifier or a member expression that is called has a name. -/
theorem exists_calledName? {parent : Option Node} {root m callee : Node} (hroot : root.AllShaped)
    (hreached : Reached none root parent m) (hcallee : callee? m = some callee)
    (hkind : callee.kind = .identifier ∨ callee.kind = .memberExpression) :
    ∃ name, calledName? callee = some name := by
  have hmem : callee ∈ m.children := by
    unfold callee? at hcallee
    split at hcallee
    · exact (Node.role_of_child? hcallee).1
    · exact (Node.role_of_child? hcallee).1
    · cases hcallee
  unfold calledName?
  rcases hkind with hkind | hkind
  · exact ⟨callee, by rw [hkind]⟩
  · have hbelow : callee ∈ m.preorder :=
      Node.mem_preorder.mpr (.inr ⟨callee, hmem, callee.self_mem_preorder⟩)
    have hshaped : callee.Shaped := hroot callee (hreached.preorder_subset hbelow)
    obtain ⟨property, hproperty, -⟩ := hshaped.child?_key (r := .property) (by rw [hkind]; rfl)
    exact ⟨property, by rw [hkind]; exact hproperty⟩

/-- Every use-site of a file that is not passed over is reported once. -/
theorem extractFile_useSites {path content : String} {x : Extraction}
    (h : extractFile path content = .ok x) :
    ∃ p, parseFile path content = .ok p ∧
      ∀ parent n, Reached none p.root parent n → Reported x p parent n := by
  obtain ⟨p, hp, -, -⟩ := extractFile_eq_ok h
  obtain ⟨d, hparse⟩ := parse?_of_parseFile hp
  have hroot := allShaped_of_parse? hparse
  refine ⟨p, hp, fun parent n hreached => ⟨fun hkind hfree => ?_, fun callee hcallee hkind => ?_,
    fun specifier hspecifier => ?_⟩⟩
  · obtain ⟨_, ⟨kind, metadata, hbase, rfl⟩, hone⟩ := referencesAt_of_reached h hp hroot hreached
      (wanted_type hkind hfree) fun r ⟨_, _, _, hr⟩ => ⟨_, _, _, hr⟩
    exact ⟨_, hone, rfl, hbase⟩
  · obtain ⟨name, hname⟩ := exists_calledName? hroot hreached hcallee hkind
    obtain ⟨_, ⟨metadata, rfl⟩, hone⟩ := referencesAt_of_reached h hp hroot hreached
      (wanted_call hcallee hname) fun r ⟨_, hr⟩ => ⟨_, _, _, hr⟩
    exact ⟨name, hname, _, hone, rfl, rfl⟩
  · obtain ⟨_, rfl, hone⟩ := referencesAt_of_reached h hp hroot hreached
      (wanted_import hspecifier) fun r hr => ⟨_, _, _, hr⟩
    exact ⟨_, hone, rfl, rfl, rfl, rfl, rfl⟩

theorem exists_parsed {path content : String} {test : Parsed → Bool}
    (h : (parseFile path content).toOption.any test = true) :
    ∃ p, parseFile path content = .ok p ∧ extractFile path content = .ok (contents path p) ∧
      test p = true := by
  cases hp : parseFile path content with
  | error e => simp [hp, Except.toOption] at h
  | ok p =>
    rw [hp] at h
    exact ⟨p, rfl, by rw [extractFile, hp]; rfl, h⟩

/-- The type argument of a constructor call is reported. -/
theorem extractFile_useSites_constructed : ∃ x p parent n,
    extractFile "a.ts" "new C<A>();\n" = .ok x ∧ parseFile "a.ts" "new C<A>();\n" = .ok p ∧
      Reached none p.root parent n ∧ n.kind = .typeIdentifier ∧ p.text n = "A" ∧
      ∃ r, referencesAt x p n = [r] ∧ r.name = p.text n := by
  have hsite : (parseFile "a.ts" "new C<A>();\n").toOption.any (fun p =>
      isPlain p.root && p.root.children.any fun statement =>
        isPlain statement && statement.children.any fun call =>
          isPlain call && call.children.any fun types =>
            isPlain types && types.children.any fun n =>
              n.kind == .typeIdentifier && n.role == none && p.text n == "A") = true := by
    decide +kernel
  obtain ⟨p, hp, hx, hwalk⟩ := exists_parsed hsite
  simp only [Bool.and_eq_true, beq_iff_eq, List.any_eq_true] at hwalk
  obtain ⟨hroot, statement, hmem, hstatement, call, hmem₁, hcall, types, hmem₂, htypes, n, hmem₃,
    ⟨htype, hrole⟩, htext⟩ := hwalk
  have hreached : Reached none p.root (some types) n :=
    .child hmem (not_passedOver hroot) <| .child hmem₁ (not_passedOver hstatement) <|
      .child hmem₂ (not_passedOver hcall) <| .child hmem₃ (not_passedOver htypes) .here
  obtain ⟨q, hq, hreported⟩ := extractFile_useSites hx
  obtain rfl := Except.ok.inj (hp.symm.trans hq)
  obtain ⟨r, hone, hname, -⟩ := (hreported _ n hreached).typeName htype
    (by simp [declaredBy, hrole])
  exact ⟨_, p, _, n, hx, hp, hreached, htype, htext, r, hone, hname⟩

/-- The type argument of a call is not. -/
theorem callTypes_unreported : ∃ x p n,
    extractFile "a.ts" "f<A>(b);\n" = .ok x ∧ parseFile "a.ts" "f<A>(b);\n" = .ok p ∧
      n ∈ p.root.preorder ∧ n.kind = .typeIdentifier ∧ n.role ≠ some .name ∧ p.text n = "A" ∧
      referencesAt x p n = [] := by
  have hsite : (parseFile "a.ts" "f<A>(b);\n").toOption.any (fun p =>
      p.root.preorder.any fun n =>
        n.kind == .typeIdentifier && n.role == none && p.text n == "A" &&
          (referencesAt (contents "a.ts" p) p n).isEmpty) = true := by
    decide +kernel
  obtain ⟨p, hp, hx, hroot⟩ := exists_parsed hsite
  simp only [Bool.and_eq_true, beq_iff_eq, List.any_eq_true, List.isEmpty_iff] at hroot
  obtain ⟨n, hn, ⟨⟨hkind, hrole⟩, htext⟩, hnone⟩ := hroot
  exact ⟨_, p, n, hx, hp, hn, hkind, by simp [hrole], htext, hnone⟩

end CodeIndex.Extract
