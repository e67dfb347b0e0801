import CodeIndex.Proofs.Json.Members

/-!
Written objects with a tag are read back: the tag stands first, and the members after it are texts
and natural numbers.
-/
namespace CodeIndex.Json

/-- The values that the members of tagged records have. -/
inductive Plain : Value → Prop
  | text (s : String) : Plain (.text s)
  | number {n : Nat} : n ≤ maxWord → Plain (.int n)

namespace Plain

variable {v : Value}

theorem visible (h : Plain v) : ∀ c ∈ encodeChars v, 32 ≤ c.toNat := by
  cases h with
  | text s =>
    rw [encodeChars_text]
    exact visible_encodeText s
  | number _ =>
    rw [encodeChars_int, toString_int, if_pos (Int.natCast_nonneg _)]
    exact visible_toDigits _

theorem readScalar (h : Plain v) {rest : List Char} (hrest : Stops rest) :
    Takes readScalar (encodeChars v) rest v := by
  intro spot
  cases h with
  | text s =>
    obtain ⟨spot', hread⟩ := text_encodeText s rest spot
    exact ⟨spot', by simp only [encodeChars_text, Json.readScalar, peek_encodeText, hread]⟩
  | @number n hn =>
    obtain ⟨spot', hread⟩ := number_toDigits hn hrest true spot
    rw [numberTail_stops hrest, if_pos rfl] at hread
    refine ⟨spot', ?_⟩
    rw [encodeChars_int, toString_int, if_pos (Int.natCast_nonneg _), Int.toNat_natCast]
    obtain ⟨d, ds, hds, hdigit⟩ := exists_toDigits n
    rw [hds] at hread ⊢
    have hpeek : Cursor.peek ⟨d :: ds ++ rest, spot⟩ = some d := rfl
    simp only [Json.readScalar, hpeek]
    split
    all_goals next heq => simp_all

theorem head (h : Plain v) : ∃ c cs, encodeChars v = c :: cs ∧ Cursor.isSpace c = false ∧
    c ≠ '[' ∧ c ≠ '\x7b' := by
  cases h with
  | text s =>
    rw [encodeChars_text]
    exact ⟨'"', _, rfl, by decide, by decide, by decide⟩
  | @number n hn =>
    obtain ⟨d, ds, hds, hdigit⟩ := exists_toDigits n
    rw [encodeChars_int, toString_int, if_pos (Int.natCast_nonneg _), Int.toNat_natCast]
    exact ⟨d, ds, hds, isSpace_of_isDigit hdigit, ne_of_isDigit hdigit (by decide),
      ne_of_isDigit hdigit (by decide)⟩

/-- A plain value is read back whatever is expected. -/
theorem readAny (h : Plain v) {rest : List Char} (hrest : Stops rest) {n : Nat} (hn : 0 < n)
    (d : Nat) : Takes (readAny n d) (encodeChars v) rest v := by
  intro spot
  obtain ⟨m, rfl⟩ := Nat.exists_eq_succ_of_ne_zero (Nat.ne_zero_of_lt hn)
  obtain ⟨spot', hread⟩ := h.readScalar hrest spot
  obtain ⟨c, cs, hchars, hspace, hlist, hobject⟩ := h.head
  refine ⟨spot', ?_⟩
  rw [← hread, hchars, List.cons_append]
  have hpeek : Cursor.peek ⟨c :: (cs ++ rest), spot⟩ = some c := rfl
  simp only [Json.readAny, skipSpace_cons hspace, hpeek]
  split
  · next heq => exact absurd (Option.some.inj heq) hlist
  · next heq => exact absurd (Option.some.inj heq) hobject
  · next heq => exact absurd (Option.some.inj heq) hlist
  · next heq => exact absurd (Option.some.inj heq) hobject
  · rfl

end Plain

namespace Tagged

variable (t : Tagged)

/-- The tag is read back. -/
theorem readTag_text {variant : Variant} (h : t.variants.find? (fun v => v.tag == variant.tag) =
    some variant) (rest : List Char) :
    Takes t.readTag (encodeText variant.tag) rest variant := by
  intro spot
  obtain ⟨spot', hread⟩ := text_encodeText variant.tag rest spot
  exact ⟨spot', by simp only [readTag, skipSpace_encodeText, peek_encodeText, hread, h]⟩

/-- The members after the tag are set aside as they are. -/
theorem readMembers_plain (variant : Variant) {members : List (String × Value)}
    (hmembers : ∀ m ∈ members, m.1 ≠ t.tagField ∧ Plain m.2) {n : Nat} (hn : members.length < n)
    (aside : List (String × Value)) (rest : List Char) (spot : Spot) :
    ∃ spot', t.readMembers n false (some variant) aside
        ⟨membersFrom false members ++ '\x7d' :: rest, spot⟩ =
      .ok ((variant, .object (aside.reverse ++ members)), ⟨rest, spot'⟩) := by
  induction members generalizing n aside spot with
  | nil =>
    obtain ⟨m, rfl⟩ := Nat.exists_eq_succ_of_ne_zero (Nat.ne_zero_of_lt hn)
    refine ⟨Cursor.stepSpot spot '\x7d', ?_⟩
    simp only [membersFrom, List.nil_append, readMembers, nextKey_end, List.append_nil]
    rfl
  | cons member members ih =>
    obtain ⟨k, v⟩ := member
    obtain ⟨m, rfl⟩ := Nat.exists_eq_succ_of_ne_zero (Nat.ne_zero_of_lt hn)
    obtain ⟨hkey, hplain⟩ := hmembers (k, v) List.mem_cons_self
    obtain ⟨spot1, hread⟩ := nextKey_key false k
      (':' :: (encodeChars v ++ membersFrom false members) ++ '\x7d' :: rest) spot
    obtain ⟨spot2, hvalue⟩ := hplain.readAny (stops_membersFrom members rest)
      (n := stepsFor ⟨encodeChars v ++ (membersFrom false members ++ '\x7d' :: rest),
        Cursor.stepSpot spot1 ':'⟩) (by simp [stepsFor]) (maxDepth - 1) (Cursor.stepSpot spot1 ':')
    obtain ⟨spot3, hrest⟩ := ih (fun m hm => hmembers m (List.mem_cons_of_mem _ hm))
      (n := m) (by simpa using hn) ((k, v) :: aside) spot2
    refine ⟨spot3, ?_⟩
    have hne : (k == t.tagField) = false := by simpa using hkey
    rw [List.reverse_cons, List.append_assoc, List.singleton_append] at hrest
    simp only [membersFrom, List.append_assoc, List.cons_append] at hread hvalue hrest ⊢
    simp only [readMembers, hread, hne, colon_colon, hvalue, Bool.false_eq_true, ↓reduceIte]
    exact hrest

theorem length_le_membersFrom (first : Bool) (members : List (String × Value)) :
    members.length ≤ (membersFrom first members).length := by
  induction members generalizing first with
  | nil => simp [membersFrom]
  | cons m members ih =>
    obtain ⟨k, v⟩ := m
    have hrest := ih false
    simp only [membersFrom, List.length_append, List.length_cons]
    omega

/-- An object with the tag in front is read back. -/
theorem read_object {variant : Variant}
    (hvariant : t.variants.find? (fun v => v.tag == variant.tag) = some variant)
    {members : List (String × Value)} (hmembers : ∀ m ∈ members, m.1 ≠ t.tagField ∧ Plain m.2)
    (rest : List Char) :
    Takes t.read (encodeChars (.object ((t.tagField, .text variant.tag) :: members))) rest
      (variant, .object members) := by
  intro spot
  -- What follows the tag, and the whole text in front of it.
  let body := membersFrom false members ++ '\x7d' :: rest
  let whole := encodeText t.tagField ++ ':' :: (encodeText variant.tag ++ body)
  have htext : encodeChars (.object ((t.tagField, .text variant.tag) :: members)) ++ rest =
      '\x7b' :: whole := by
    rw [encodeChars_object, membersFrom, encodeChars_text]
    simp [whole, body, separator]
  have hsteps : members.length + 1 < stepsFor ⟨'\x7b' :: whole, spot⟩ := by
    have hle := length_le_membersFrom false members
    simp only [stepsFor, whole, body, List.length_cons, List.length_append]
    omega
  obtain ⟨n, hn⟩ := Nat.exists_eq_succ_of_ne_zero (Nat.ne_zero_of_lt hsteps)
  obtain ⟨spot1, hkey⟩ := nextKey_key true t.tagField (':' :: (encodeText variant.tag ++ body))
    (Cursor.stepSpot spot '\x7b')
  obtain ⟨spot2, htag⟩ := t.readTag_text hvariant body (Cursor.stepSpot spot1 ':')
  obtain ⟨spot3, hrest⟩ := t.readMembers_plain variant hmembers (n := n) (by omega) []
    rest spot2
  refine ⟨spot3, ?_⟩
  have hpeek : Cursor.peek ⟨'\x7b' :: whole, spot⟩ = some '\x7b' := rfl
  have hopen : Cursor.skip ⟨'\x7b' :: whole, spot⟩ = ⟨whole, Cursor.stepSpot spot '\x7b'⟩ := rfl
  have hfirst : nextKey true ⟨whole, Cursor.stepSpot spot '\x7b'⟩ =
      .ok (some t.tagField, ⟨':' :: (encodeText variant.tag ++ body), spot1⟩) := hkey
  rw [htext]
  simp only [read, skipSpace_cons (by decide : Cursor.isSpace '\x7b' = false), hpeek, hopen, hn,
    Nat.succ_eq_add_one, readMembers, hfirst, beq_self_eq_true, Option.isSome_none,
    Bool.false_eq_true, ↓reduceIte, colon_colon, htag]
  exact hrest

/-! The fields of what was set aside -/

/-- A field of a tagged record with its value. -/
structure Filled where
  name : String
  scalar : Scalar
  value : Value

namespace Filled

def field (f : Filled) : String × Scalar := (f.name, f.scalar)

def member (f : Filled) : String × Value := (f.name, f.value)

end Filled

section Fields

variable {fields : List Filled} (hnames : (fields.map Filled.name).Nodup)
include hnames

theorem find?_filled {f : Filled} (hf : f ∈ fields) :
    (fields.map Filled.field).find? (fun x => x.1 == f.name) = some f.field := by
  cases hfind : (fields.map Filled.field).find? fun x => x.1 == f.name with
  | none =>
    have hnone := List.find?_eq_none.mp hfind f.field (List.mem_map_of_mem hf)
    simp [Filled.field] at hnone
  | some x =>
    obtain ⟨g, hg, rfl⟩ := List.mem_map.mp (List.mem_of_find?_eq_some hfind)
    have hname : g.name = f.name := by simpa [Filled.field] using List.find?_some hfind
    rw [List.inj_on_of_nodup_map hnames hg hf hname]

theorem takeMembers_filled (hcheck : ∀ f ∈ fields, check f.scalar f.value = .ok f.value)
    {before after : List Filled} (hsplit : fields = before ++ after) :
    takeMembers (fields.map Filled.field) (before.map Filled.member).reverse
      (after.map Filled.member) = .ok (fields.map Filled.member).reverse := by
  induction after generalizing before with
  | nil =>
    rw [List.append_nil] at hsplit
    rw [hsplit, List.map_nil, takeMembers]
  | cons f after ih =>
    have hf : f ∈ fields := by
      rw [hsplit]
      exact List.mem_append_right _ List.mem_cons_self
    have hnew : ((before.map Filled.member).reverse.any fun m => m.1 == f.name) = false := by
      rw [List.any_eq_false]
      intro m hm
      obtain ⟨g, hg, rfl⟩ := List.mem_map.mp (List.mem_reverse.mp hm)
      rw [hsplit, List.map_append, List.nodup_append] at hnames
      have hne := hnames.2.2 _ (List.mem_map_of_mem hg) _ (List.mem_map_of_mem List.mem_cons_self)
      simpa [Filled.member] using hne
    have hsplit' : fields = before ++ [f] ++ after := by
      rw [hsplit]
      simp
    have hrest := ih hsplit'
    rw [List.map_append, List.reverse_append] at hrest
    change takeMembers _ _ ((f.name, f.value) :: after.map Filled.member) = _
    simp only [takeMembers, find?_filled hnames hf, Filled.field, hnew, hcheck f hf,
      Bool.false_eq_true, ↓reduceIte]
    exact hrest

theorem inOrder_filled {wanted : List Filled} (hsub : wanted ⊆ fields) :
    inOrder (fields.map Filled.member).reverse (wanted.map Filled.field) =
      .ok (wanted.map Filled.member) := by
  induction wanted with
  | nil => rfl
  | cons f wanted ih =>
    have hf : f ∈ fields := hsub List.mem_cons_self
    have hrest := ih fun x hx => hsub (List.mem_cons_of_mem _ hx)
    have hfind : (fields.map Filled.member).reverse.find? (fun m => m.1 == f.name) =
        some f.member := by
      cases hfind : (fields.map Filled.member).reverse.find? fun m => m.1 == f.name with
      | none =>
        have hnone := List.find?_eq_none.mp hfind f.member
          (List.mem_reverse.mpr (List.mem_map_of_mem hf))
        simp [Filled.member] at hnone
      | some m =>
        obtain ⟨g, hg, rfl⟩ := List.mem_map.mp
          (List.mem_reverse.mp (List.mem_of_find?_eq_some hfind))
        have hname : g.name = f.name := by simpa [Filled.member] using List.find?_some hfind
        rw [List.inj_on_of_nodup_map hnames hg hf hname]
    change inOrder _ ((f.name, f.scalar) :: wanted.map Filled.field) = _
    simp only [inOrder, hfind, hrest]
    rfl

/-- Members that stand for the fields of a variant are its fields. -/
theorem fieldsOf_filled {variant : Variant} (hvariant : variant.fields = fields.map Filled.field)
    (hcheck : ∀ f ∈ fields, check f.scalar f.value = .ok f.value) :
    fieldsOf variant (.object (fields.map Filled.member)) = .ok (fields.map Filled.member) := by
  have htake := takeMembers_filled hnames hcheck (List.nil_append fields).symm
  rw [List.map_nil, List.reverse_nil] at htake
  simp only [fieldsOf, hvariant, htake]
  exact inOrder_filled hnames (List.Subset.refl _)

end Fields

/-- A written text is decoded into the tag and the fields. -/
theorem decode_object {variant : Variant}
    (hvariant : t.variants.find? (fun v => v.tag == variant.tag) = some variant)
    {fields : List Filled} (hfields : variant.fields = fields.map Filled.field)
    (hnames : (t.tagField :: fields.map Filled.name).Nodup)
    (hplain : ∀ f ∈ fields, Plain f.value ∧ check f.scalar f.value = .ok f.value) :
    t.decode (encode (.object ((t.tagField, .text variant.tag) :: fields.map Filled.member))) =
      .ok (variant.tag, fields.map Filled.member) := by
  obtain ⟨htag, hnames⟩ := List.nodup_cons.mp hnames
  have hmembers : ∀ m ∈ fields.map Filled.member, m.1 ≠ t.tagField ∧ Plain m.2 := by
    intro m hm
    obtain ⟨f, hf, rfl⟩ := List.mem_map.mp hm
    refine ⟨fun heq => htag ?_, (hplain f hf).1⟩
    rw [← heq]
    exact List.mem_map_of_mem hf
  obtain ⟨spot', hread⟩ := t.read_object hvariant hmembers [] ⟨1, 0⟩
  rw [List.append_nil] at hread
  have hfieldsOf := fieldsOf_filled hnames hfields fun f hf => (hplain f hf).2
  simp only [decode, encode, Cursor.start, String.toList_ofList, hread, hfieldsOf]
  rfl

/-! Numbers that were read -/

/-- The whole numbers among the values are numbers of 32 bits. -/
def InBounds (members : List (String × Value)) : Prop :=
  ∀ m ∈ members, ∀ i, m.2 = .int i → 0 ≤ i ∧ i ≤ 0xffffffff

theorem inBounds_cons {m : String × Value} {members : List (String × Value)} :
    InBounds (m :: members) ↔
      (∀ i, m.2 = .int i → 0 ≤ i ∧ i ≤ 0xffffffff) ∧ InBounds members :=
  List.forall_mem_cons

theorem check_inBounds {scalar : Scalar} {v w : Value} (h : check scalar v = .ok w) {i : Int}
    (hw : w = .int i) : 0 ≤ i ∧ i ≤ 0xffffffff := by
  subst hw
  cases scalar with
  | text => cases v <;> simp [check] at h
  | u32 =>
    cases v with
    | int j =>
      rw [check] at h
      split at h
      · next hbounds =>
        cases h
        simpa using hbounds
      · simp at h
    | _ => simp [check] at h

theorem takeMembers_inBounds {fields : List (String × Scalar)}
    {read rest out : List (String × Value)} (hread : InBounds read)
    (h : takeMembers fields read rest = .ok out) : InBounds out := by
  induction rest generalizing read with
  | nil =>
    cases h
    exact hread
  | cons m rest ih =>
    rw [takeMembers] at h
    split at h
    · exact ih hread h
    · split at h
      · simp at h
      · split at h
        · next hcheck => exact ih (inBounds_cons.mpr ⟨fun i => check_inBounds hcheck, hread⟩) h
        · simp at h

theorem inOrder_subset {read : List (String × Value)} {fields : List (String × Scalar)}
    {out : List (String × Value)} (h : inOrder read fields = .ok out) : out ⊆ read := by
  induction fields generalizing out with
  | nil =>
    cases h
    exact List.nil_subset _
  | cons f fields ih =>
    rw [inOrder] at h
    split at h
    · next m hm =>
      cases hrest : inOrder read fields with
      | error e => simp [hrest, Except.map] at h
      | ok rest =>
        rw [hrest] at h
        cases h
        exact List.cons_subset.mpr ⟨List.mem_of_find?_eq_some hm, ih hrest⟩
    · simp at h

theorem takeItems_inBounds {title : String} {total k : Nat} {fields : List (String × Scalar)}
    {items : List Value} {out : List (String × Value)}
    (h : takeItems title total k fields items = .ok out) : InBounds out := by
  induction fields generalizing items k out with
  | nil =>
    cases items with
    | nil =>
      cases h
      exact fun m hm => absurd hm List.not_mem_nil
    | cons v vs => simp [takeItems] at h
  | cons f fields ih =>
    cases items with
    | nil => simp [takeItems] at h
    | cons v vs =>
      rw [takeItems] at h
      split at h
      · next w hcheck =>
        cases hrest : takeItems title total (k + 1) fields vs with
        | error e => simp [hrest, Except.map] at h
        | ok rest =>
          rw [hrest] at h
          cases h
          exact inBounds_cons.mpr ⟨fun i => check_inBounds hcheck, ih hrest⟩
      · simp at h

/-- The numbers of a tagged record that was read are in their range. -/
theorem decode_inBounds {s tag : String} {fields : List (String × Value)}
    (h : t.decode s = .ok (tag, fields)) : InBounds fields := by
  unfold decode at h
  split at h
  · simp at h
  · next variant content c hread =>
    split at h
    · simp at h
    · next out hfields =>
      split at h
      · cases h
        unfold fieldsOf at hfields
        split at hfields
        · exact takeItems_inBounds hfields
        · next members =>
          cases htaken : takeMembers variant.fields [] members with
          | error e => simp [htaken, Except.bind] at hfields
          | ok read =>
            rw [htaken] at hfields
            have hall := takeMembers_inBounds (fun m hm => absurd hm List.not_mem_nil) htaken
            exact fun m hm => hall m (inOrder_subset hfields hm)
        · cases hfields
          exact fun m hm => absurd hm List.not_mem_nil
      · simp at h

end Tagged

end CodeIndex.Json
