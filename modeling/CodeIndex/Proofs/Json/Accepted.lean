import CodeIndex.Json.Schema
import Mathlib.Data.List.Basic

/-!
What a schema lets through. A number that is read lies between the bounds of its schema, and every
member of a record was read as its field or stands there by default.
-/
namespace CodeIndex.Json

/-- A value that some text is read as. -/
def Accepted (schema : Schema) (v : Value) : Prop :=
  ∃ n depth c c', readAs n depth schema c = .ok (v, c')

/-- A member that was read as a field of a record or was not written. -/
def FromField (fields : List (String × Absence × Schema)) (m : String × Value) : Prop :=
  ∃ absence schema, (m.1, absence, schema) ∈ fields ∧
    (Accepted schema m.2 ∨ absence = .default m.2 ∨ (absence = .null ∧ m.2 = .null))

theorem readRow_eq_ok {n depth k : Nat} {expected : String}
    {fields rest : List (String × Absence × Schema)} {read : List (String × Value)} {c c' : Cursor}
    {v : Value} (hok : readRow n depth expected k rest read c = .ok (v, c'))
    (hrest : rest ⊆ fields) (hread : ∀ m ∈ read, FromField fields m) :
    ∃ members, v = .object members ∧ ∀ m ∈ members, FromField fields m := by
  induction n generalizing k rest read c with
  | zero => simp [readRow] at hok
  | succ n ih =>
    cases rest with
    | nil =>
      simp only [readRow] at hok
      split at hok
      · cases hok
        exact ⟨_, rfl, fun m hm => hread m (List.mem_reverse.mp hm)⟩
      · simp at hok
    | cons field rest =>
      obtain ⟨name, absence, schema⟩ := field
      have hfield : (name, absence, schema) ∈ fields := hrest List.mem_cons_self
      have hrest' : rest ⊆ fields := fun x hx => hrest (List.mem_cons_of_mem _ hx)
      simp only [readRow] at hok
      split at hok
      · simp at hok
      · split at hok
        · next value =>
          refine ih hok hrest' (List.forall_mem_cons.mpr ⟨?_, hread⟩)
          exact ⟨_, schema, hfield, .inr (.inl rfl)⟩
        · simp at hok
      · split at hok
        · simp at hok
        · next value c1 hvalue =>
          refine ih hok hrest' (List.forall_mem_cons.mpr ⟨?_, hread⟩)
          exact ⟨absence, schema, hfield, .inl ⟨_, _, _, _, hvalue⟩⟩

/-- A record is complete when every field was read or may be left out. -/
theorem complete_eq_ok {fields rest : List (String × Absence × Schema)}
    {read members : List (String × Value)} (hok : complete read rest = .ok members)
    (hrest : rest ⊆ fields) (hread : ∀ m ∈ read, FromField fields m) :
    ∀ m ∈ members, FromField fields m := by
  induction rest generalizing members with
  | nil =>
    cases hok
    simp
  | cons field rest ih =>
    obtain ⟨name, absence, schema⟩ := field
    have hfield : (name, absence, schema) ∈ fields := hrest List.mem_cons_self
    have hrest' : rest ⊆ fields := fun x hx => hrest (List.mem_cons_of_mem _ hx)
    simp only [complete] at hok
    split at hok
    · simp at hok
    · next value hvalue =>
      cases hmore : complete read rest with
      | error missing => simp [hmore, Except.map] at hok
      | ok more =>
        rw [hmore] at hok
        cases hok
        refine List.forall_mem_cons.mpr ⟨?_, ih hmore hrest'⟩
        split at hvalue
        · next m hm =>
          cases hvalue
          have hname := List.find?_some hm
          have hfrom := hread m (List.mem_of_find?_eq_some hm)
          rw [← beq_iff_eq.mp hname]
          exact hfrom
        · split at hvalue
          · simp at hvalue
          · cases hvalue
            exact ⟨_, schema, hfield, .inr (.inr ⟨rfl, rfl⟩)⟩
          · cases hvalue
            exact ⟨_, schema, hfield, .inr (.inl rfl)⟩

theorem readMembers_eq_ok {n depth : Nat} {fields : List (String × Absence × Schema)}
    {first : Bool} {read : List (String × Value)} {c c' : Cursor} {v : Value}
    (hok : readMembers n depth fields first read c = .ok (v, c'))
    (hread : ∀ m ∈ read, FromField fields m) :
    ∃ members, v = .object members ∧ ∀ m ∈ members, FromField fields m := by
  induction n generalizing first read c with
  | zero => simp [readMembers] at hok
  | succ n ih =>
    simp only [readMembers] at hok
    split at hok
    · simp at hok
    · split at hok
      · next members hcomplete =>
        cases hok
        exact ⟨_, rfl, complete_eq_ok hcomplete (List.Subset.refl _) hread⟩
      · simp at hok
    · next key c1 hkey =>
      split at hok
      · next name absence schema hfound =>
        split at hok
        · simp at hok
        · split at hok
          · simp at hok
          · split at hok
            · simp at hok
            · next value c2 hvalue =>
              have hmem := List.mem_of_find?_eq_some hfound
              have hname := List.find?_some hfound
              refine ih hok (List.forall_mem_cons.mpr ⟨?_, hread⟩)
              refine ⟨absence, schema, ?_, .inl ⟨_, _, _, _, hvalue⟩⟩
              rw [← beq_iff_eq.mp hname]
              exact hmem
      · split at hok
        · simp at hok
        · split at hok
          · simp at hok
          · exact ih hok hread

namespace Accepted

theorem record {title : String} {fields : List (String × Absence × Schema)} {v : Value}
    (h : Accepted (.record title fields) v) :
    ∃ members, v = .object members ∧ ∀ m ∈ members, FromField fields m := by
  obtain ⟨n, depth, c, c', hok⟩ := h
  cases n with
  | zero => simp [readAs] at hok
  | succ n =>
    unfold readAs at hok
    dsimp only at hok
    split at hok
    · simp at hok
    · simp at hok
    · simp at hok
    · exact readRow_eq_ok hok (List.Subset.refl _) (by simp)
    · exact readMembers_eq_ok hok (by simp)
    · simp at hok

/-- The member of a record that has the name of a field. -/
theorem get? {title name : String} {fields : List (String × Absence × Schema)} {v w : Value}
    (h : Accepted (.record title fields) v) (hget : v.get? name = some w) :
    FromField fields (name, w) := by
  obtain ⟨members, rfl, hfrom⟩ := h.record
  obtain ⟨m, hfound, rfl⟩ := Option.map_eq_some_iff.mp hget
  have hname := List.find?_some hfound
  rw [← beq_iff_eq.mp hname]
  exact hfrom m (List.mem_of_find?_eq_some hfound)

theorem optional {schema : Schema} {v : Value} (h : Accepted (.optional schema) v) :
    v = .null ∨ Accepted schema v := by
  obtain ⟨n, depth, c, c', hok⟩ := h
  cases n with
  | zero => simp [readAs] at hok
  | succ n =>
    simp only [readAs] at hok
    split at hok
    · split at hok
      · cases hok
        exact .inl rfl
      · simp at hok
    · exact .inr ⟨_, _, _, _, hok⟩

theorem whole {low high : Int} {name : String} {v : Value}
    (h : Accepted (.whole low high name) v) : ∃ i, v = .int i ∧ low ≤ i ∧ i ≤ high := by
  obtain ⟨n, depth, c, c', hok⟩ := h
  cases n with
  | zero => simp [readAs] at hok
  | succ n =>
    unfold readAs at hok
    dsimp only at hok
    split at hok
    · simp at hok
    · split at hok
      · simp at hok
      · split at hok
        · next hbounds =>
          cases hok
          exact ⟨_, rfl, by simpa using hbounds⟩
        · simp at hok
      · simp at hok
    · split at hok
      · split at hok
        · simp at hok
        · split at hok
          · next hbounds =>
            cases hok
            exact ⟨_, rfl, by simpa using hbounds⟩
          · simp at hok
        · simp at hok
      · simp at hok

end Accepted

theorem accepted_of_decode {schema : Schema} {s : String} {v : Value}
    (h : decode schema s = .ok v) : Accepted schema v := by
  unfold decode at h
  dsimp only at h
  split at h
  · simp at h
  · next v' c' hread =>
    split at h
    · cases h
      exact ⟨_, _, _, _, hread⟩
    · simp at h

end CodeIndex.Json
