import CodeIndex.Proofs.Json.Writing
import Mathlib.Data.List.Nodup

/-!
Written records are read back. A record is a list of slots, one for each field: what is written
there, if anything, and what is read. A field that is not written must have a default.
-/
namespace CodeIndex.Json

/-! The text of members -/

/-- What stands before a member. -/
def separator (first : Bool) : List Char := if first then [] else [',']

/-- The text of members from one of them on. -/
def membersFrom (first : Bool) : List (String × Value) → List Char
  | [] => []
  | (k, v) :: ms =>
    separator first ++ encodeText k ++ ':' :: (encodeChars v ++ membersFrom false ms)

theorem encodeMembers_eq (ms : List (String × Value)) :
    encodeMembers ms = membersFrom true ms := by
  induction ms with
  | nil => simp [encodeMembers, membersFrom]
  | cons m ms ih =>
    obtain ⟨k, v⟩ := m
    cases ms with
    | nil => simp [encodeMembers, membersFrom, separator]
    | cons m' ms' =>
      obtain ⟨k', v'⟩ := m'
      rw [encodeMembers, ih]
      · simp [membersFrom, separator]
      · simp

theorem encodeChars_object (ms : List (String × Value)) :
    encodeChars (.object ms) = '\x7b' :: (membersFrom true ms ++ ['\x7d']) := by
  rw [encodeChars_members, encodeMembers_eq]
  rfl

theorem starts_object (ms : List (String × Value)) : Starts (.object ms) :=
  ⟨'\x7b', _, encodeChars_object ms, by decide, by decide⟩

theorem visible_membersFrom {ms : List (String × Value)}
    (h : ∀ m ∈ ms, ∀ c ∈ encodeChars m.2, 32 ≤ c.toNat) (first : Bool) :
    ∀ c ∈ membersFrom first ms, 32 ≤ c.toNat := by
  induction ms generalizing first with
  | nil => simp [membersFrom]
  | cons m ms ih =>
    obtain ⟨k, v⟩ := m
    intro c hc
    simp only [membersFrom, List.mem_append, List.mem_cons] at hc
    rcases hc with (hc | hc) | rfl | hc | hc
    · cases first with
      | true => simp [separator] at hc
      | false =>
        rw [List.mem_singleton.mp hc]
        decide
    · exact visible_encodeText k c hc
    · decide
    · exact h (k, v) List.mem_cons_self c hc
    · exact ih (fun m hm => h m (List.mem_cons_of_mem _ hm)) false c hc

theorem visible_object {ms : List (String × Value)}
    (h : ∀ m ∈ ms, ∀ c ∈ encodeChars m.2, 32 ≤ c.toNat) :
    ∀ c ∈ encodeChars (.object ms), 32 ≤ c.toNat := by
  intro c hc
  rw [encodeChars_object] at hc
  simp only [List.mem_cons, List.mem_append, List.not_mem_nil, or_false] at hc
  rcases hc with rfl | hc | rfl
  · decide
  · exact visible_membersFrom h true c hc
  · decide

theorem nextKey_end (first : Bool) (rest : List Char) (spot : Spot) :
    nextKey first ⟨'\x7d' :: rest, spot⟩ = .ok (none, ⟨'\x7d' :: rest, spot⟩) := by
  rw [nextKey, skipSpace_cons (by decide)]
  rfl

/-- The key of the next member is read back. -/
theorem nextKey_key (first : Bool) (k : String) (rest : List Char) (spot : Spot) :
    ∃ spot', nextKey first ⟨separator first ++ encodeText k ++ rest, spot⟩ =
      .ok (some k, ⟨rest, spot'⟩) := by
  cases first with
  | true =>
    obtain ⟨spot', hread⟩ := text_encodeText k rest spot
    have hnone : separator true ++ encodeText k ++ rest = encodeText k ++ rest := rfl
    refine ⟨spot', ?_⟩
    simp only [hnone, nextKey, skipSpace_encodeText, peek_encodeText, hread, ↓reduceIte]
    rfl
  | false =>
    obtain ⟨spot', hread⟩ := text_encodeText k rest (Cursor.stepSpot spot ',')
    have hcomma : Cursor.skipSpace ⟨separator false ++ encodeText k ++ rest, spot⟩ =
        ⟨',' :: (encodeText k ++ rest), spot⟩ := skipSpace_cons (by decide) _ _
    have hfirst : Cursor.peek ⟨',' :: (encodeText k ++ rest), spot⟩ = some ',' := rfl
    have hrest : Cursor.skip ⟨',' :: (encodeText k ++ rest), spot⟩ =
        ⟨encodeText k ++ rest, Cursor.stepSpot spot ','⟩ := rfl
    refine ⟨spot', ?_⟩
    simp only [nextKey, hcomma, hfirst, hrest, skipSpace_encodeText, peek_encodeText, hread,
      ↓reduceIte, Bool.false_eq_true]
    rfl

theorem colon_colon (rest : List Char) (spot : Spot) :
    colon ⟨':' :: rest, spot⟩ = .ok ⟨rest, Cursor.stepSpot spot ':'⟩ := by
  rw [colon, skipSpace_cons (by decide)]
  rfl

theorem stops_membersFrom (ms : List (String × Value)) (rest : List Char) :
    Stops (membersFrom false ms ++ '\x7d' :: rest) := by
  cases ms with
  | nil => exact stops_brace rest
  | cons m ms =>
    obtain ⟨k, v⟩ := m
    exact stops_comma _

/-! Slots -/

/-- A field of a record with what is written for it and what is read. -/
structure Slot where
  name : String
  absence : Absence
  schema : Schema
  written : Option Value
  value : Value

namespace Slot

def field (s : Slot) : String × Absence × Schema := (s.name, s.absence, s.schema)

/-- The member that is written. -/
def member (s : Slot) : Option (String × Value) := s.written.map fun v => (s.name, v)

/-- The member that is read from what is written. -/
def taken (s : Slot) : Option (String × Value) := s.written.map fun _ => (s.name, s.value)

/-- What is written is read back, and what is not written is the default. -/
def Fits (steps depth : Nat) (s : Slot) : Prop :=
  match s.written with
  | some v => Reads steps depth s.schema v s.value
  | none => s.absence = .default s.value

theorem taken_eq_some {s : Slot} {m : String × Value} (h : s.taken = some m) :
    m = (s.name, s.value) := by
  obtain ⟨v, -, rfl⟩ := Option.map_eq_some_iff.mp h
  rfl

end Slot

section Record

variable {slots : List Slot} (hnames : (slots.map Slot.name).Nodup)
include hnames

theorem find?_field {s : Slot} (hs : s ∈ slots) :
    (slots.map Slot.field).find? (fun f => f.1 == s.name) = some s.field := by
  cases hfind : (slots.map Slot.field).find? fun f => f.1 == s.name with
  | none =>
    have hnone := List.find?_eq_none.mp hfind s.field (List.mem_map_of_mem hs)
    simp [Slot.field] at hnone
  | some f =>
    obtain ⟨s', hs', rfl⟩ := List.mem_map.mp (List.mem_of_find?_eq_some hfind)
    have hname : s'.name = s.name := by simpa [Slot.field] using List.find?_some hfind
    rw [List.inj_on_of_nodup_map hnames hs' hs hname]

/-- The members that were read complete the record. -/
theorem complete_slots {steps depth : Nat} (hfits : ∀ s ∈ slots, s.Fits steps depth)
    {some' : List Slot} (hsub : some' ⊆ slots) :
    complete (slots.filterMap Slot.taken).reverse (some'.map Slot.field) =
      .ok (some'.map fun s => (s.name, s.value)) := by
  induction some' with
  | nil => rfl
  | cons s rest ih =>
    have hs : s ∈ slots := hsub List.mem_cons_self
    have hrest := ih fun x hx => hsub (List.mem_cons_of_mem _ hx)
    have hread : ∀ m, (slots.filterMap Slot.taken).reverse.find? (fun m => m.1 == s.name) = some m →
        m = (s.name, s.value) := by
      intro m hm
      obtain ⟨s', hs', htaken⟩ := List.mem_filterMap.mp
        (List.mem_reverse.mp (List.mem_of_find?_eq_some hm))
      have hname : m.1 = s.name := by simpa using List.find?_some hm
      rw [Slot.taken_eq_some htaken] at hname ⊢
      rw [List.inj_on_of_nodup_map hnames hs' hs hname]
    change complete _ ((s.name, s.absence, s.schema) :: rest.map Slot.field) = _
    unfold complete
    rw [hrest]
    cases hfind : (slots.filterMap Slot.taken).reverse.find? fun m => m.1 == s.name with
    | some m =>
      rw [hread m hfind]
      rfl
    | none =>
      have hwritten : s.written = none := by
        cases hw : s.written with
        | none => rfl
        | some v =>
          have htaken : (s.name, s.value) ∈ (slots.filterMap Slot.taken).reverse := by
            rw [List.mem_reverse]
            exact List.mem_filterMap.mpr ⟨s, hs, by simp [Slot.taken, hw]⟩
          have hnone := List.find?_eq_none.mp hfind _ htaken
          simp at hnone
      have hdefault := hfits s hs
      rw [Slot.Fits, hwritten] at hdefault
      dsimp only at hdefault
      rw [hdefault]
      rfl

/-- Reading the members of a record from one slot on. -/
theorem readMembers_slots {steps depth : Nat} (hfits : ∀ s ∈ slots, s.Fits steps depth)
    {before after : List Slot} (hsplit : slots = before ++ after) {n d : Nat}
    (hn : after.length + steps + 1 ≤ n) (hd : depth ≤ d) (first : Bool) (rest : List Char)
    (spot : Spot) :
    ∃ spot', readMembers n d (slots.map Slot.field) first
        (before.filterMap Slot.taken).reverse
        ⟨membersFrom first (after.filterMap Slot.member) ++ '\x7d' :: rest, spot⟩ =
      .ok (.object (slots.map fun s => (s.name, s.value)), ⟨rest, spot'⟩) := by
  induction after generalizing before n first spot with
  | nil =>
    obtain ⟨m, rfl⟩ := Nat.exists_eq_succ_of_ne_zero (Nat.ne_zero_of_lt hn)
    rw [List.append_nil] at hsplit
    subst hsplit
    refine ⟨Cursor.stepSpot spot '\x7d', ?_⟩
    simp only [List.filterMap_nil, membersFrom, List.nil_append, readMembers, nextKey_end,
      complete_slots hnames hfits (List.Subset.refl _)]
    rfl
  | cons s after ih =>
    have hs : s ∈ slots := by
      rw [hsplit]
      exact List.mem_append_right _ List.mem_cons_self
    have hnext : slots = (before ++ [s]) ++ after := by rw [hsplit]; simp
    cases hw : s.written with
    | none =>
      have hmember : s.member = none := by rw [Slot.member, hw]; rfl
      have htaken : s.taken = none := by rw [Slot.taken, hw]; rfl
      rw [List.filterMap_cons_none hmember]
      have hread := ih hnext (n := n) (by simp only [List.length_cons] at hn; omega) first spot
      rwa [List.filterMap_append, List.filterMap_cons_none htaken, List.filterMap_nil,
        List.append_nil] at hread
    | some v =>
      have hmember : s.member = some (s.name, v) := by rw [Slot.member, hw]; rfl
      have htaken : s.taken = some (s.name, s.value) := by rw [Slot.taken, hw]; rfl
      have hreads := hfits s hs
      rw [Slot.Fits, hw] at hreads
      dsimp only at hreads
      obtain ⟨m, rfl⟩ := Nat.exists_eq_succ_of_ne_zero (Nat.ne_zero_of_lt hn)
      rw [List.length_cons] at hn
      have hnew : ((before.filterMap Slot.taken).reverse.any fun x => x.1 == s.name) = false := by
        rw [List.any_eq_false]
        intro x hx
        obtain ⟨s', hs', htaken'⟩ := List.mem_filterMap.mp (List.mem_reverse.mp hx)
        rw [Slot.taken_eq_some htaken']
        simp only [beq_iff_eq]
        rw [hsplit, List.map_append, List.nodup_append] at hnames
        exact hnames.2.2 _ (List.mem_map_of_mem hs') _ (List.mem_map_of_mem List.mem_cons_self)
      rw [List.filterMap_cons_some hmember, membersFrom]
      obtain ⟨spot1, hkey⟩ := nextKey_key first s.name
        (':' :: (encodeChars v ++ membersFrom false (after.filterMap Slot.member)) ++
          '\x7d' :: rest) spot
      obtain ⟨spot2, hvalue⟩ := hreads.reads m d (by omega) hd
        (membersFrom false (after.filterMap Slot.member) ++ '\x7d' :: rest)
        (stops_membersFrom _ rest) (Cursor.stepSpot spot1 ':')
      obtain ⟨spot3, hrest⟩ := ih hnext (n := m) (by omega) false spot2
      refine ⟨spot3, ?_⟩
      rw [List.filterMap_append, List.filterMap_cons_some htaken, List.filterMap_nil,
        List.reverse_append] at hrest
      simp only [List.append_assoc, List.cons_append] at hkey hvalue hrest ⊢
      simp only [readMembers, hkey, find?_field hnames hs, Slot.field, hnew, colon_colon, hvalue,
        Bool.false_eq_true, ↓reduceIte]
      exact hrest

end Record

/-- A record whose slots fit is read back. -/
theorem Reads.record (slots : List Slot) (title : String) (hnames : (slots.map Slot.name).Nodup)
    {n d : Nat} (hfits : ∀ s ∈ slots, s.Fits n d) :
    Reads (slots.length + n + 2) (d + 1) (.record title (slots.map Slot.field))
      (.object (slots.filterMap Slot.member))
      (.object (slots.map fun s => (s.name, s.value))) := by
  constructor
  · apply visible_object
    intro m hm
    obtain ⟨s, hs, hmember⟩ := List.mem_filterMap.mp hm
    obtain ⟨v, hw, rfl⟩ := Option.map_eq_some_iff.mp hmember
    have hreads := hfits s hs
    rw [Slot.Fits, hw] at hreads
    exact hreads.visible
  · intro m e hm he rest _ spot
    obtain ⟨k, rfl⟩ := Nat.exists_eq_succ_of_ne_zero (Nat.ne_zero_of_lt hm)
    obtain ⟨f, rfl⟩ := Nat.exists_eq_succ_of_ne_zero (Nat.ne_zero_of_lt he)
    obtain ⟨spot', hread⟩ := readMembers_slots hnames hfits (List.nil_append slots).symm
      (n := k) (d := f) (by omega) (by omega) true rest (Cursor.stepSpot spot '\x7b')
    refine ⟨spot', ?_⟩
    rw [encodeChars_object]
    have hskip : Cursor.skipSpace ⟨'\x7b' :: (membersFrom true (slots.filterMap Slot.member) ++
        ['\x7d']) ++ rest, spot⟩ = ⟨'\x7b' :: (membersFrom true (slots.filterMap Slot.member) ++
        '\x7d' :: rest), spot⟩ := by
      rw [List.cons_append, skipSpace_cons (by decide), List.append_assoc]
      rfl
    have hpeek : Cursor.peek ⟨'\x7b' :: (membersFrom true (slots.filterMap Slot.member) ++
        '\x7d' :: rest), spot⟩ = Option.some '\x7b' := rfl
    have hopen : Cursor.skip ⟨'\x7b' :: (membersFrom true (slots.filterMap Slot.member) ++
        '\x7d' :: rest), spot⟩ = ⟨membersFrom true (slots.filterMap Slot.member) ++
        '\x7d' :: rest, Cursor.stepSpot spot '\x7b'⟩ := rfl
    simp only [readAs, hskip, hpeek, hopen]
    exact hread

/-- A text that is read as a whole. -/
theorem Reads.decode {n d : Nat} {schema : Schema} {v v' : Value} (h : Reads n d schema v v')
    (hn : n ≤ 64) (hd : d ≤ maxDepth) : decode schema (encode v) = .ok v' := by
  obtain ⟨spot', hread⟩ := h.reads (2 * (encodeChars v).length + 64) maxDepth (by omega) hd []
    stops_nil ⟨1, 0⟩
  rw [List.append_nil] at hread
  simp only [Json.decode, encode, Cursor.start, String.toList_ofList, hread]
  rfl

end CodeIndex.Json
