import CodeIndex.Proofs.Json.Lexing

/-!
White space does not count. Two texts of the same tokens are read against a schema side by side:
each reader takes the same tokens of both, and the values agree, or both are refused. The steps that
a reader is given only have to suffice for the tokens.
-/
namespace CodeIndex.Json.Layout

variable {ts : List Token} {c c' : Cursor}

/-! Separators -/

/-- Two readers in lists agree on whether an item follows, and stand before it. -/
def SameNext (ts : List Token) (x y : Bool × Cursor) : Prop :=
  x.1 = y.1 ∧ ∃ us, us.length ≤ ts.length ∧ Front us x.2 y.2 ∧
    (x.1 = false → x.2.peek = some ']')

theorem nextItem_alike (first : Bool) (h : Both ts c c') :
    Alike (SameNext ts) (nextItem first c) (nextItem first c') := by
  have hfront := h.front
  unfold nextItem
  simp only [hfront.peek_eq]
  split
  next => exact .faults _ _
  next hpeek => exact .results ⟨rfl, ts, le_rfl, hfront, fun _ => hpeek⟩
  next x hne hpeek =>
    split
    · exact .results ⟨rfl, ts, le_rfl, hfront, nofun⟩
    · split
      next hcomma =>
        obtain rfl : x = ',' := by simpa using hcomma
        obtain ⟨us, hlt, hboth⟩ := hfront.skip hpeek rfl
        have hnext := hboth.front
        simp only [hnext.peek_eq]
        split
        · exact .faults _ _
        · exact .results ⟨rfl, us, hlt.le, hnext, nofun⟩
        · exact .faults _ _
      next => exact .faults _ _

theorem colon_alike (h : Both ts c c') : Alike (Ahead ts) (colon c) (colon c') := by
  have hfront := h.front
  unfold colon
  simp only [hfront.peek_eq]
  split
  next hpeek => exact .results (hfront.skip hpeek rfl)
  next => exact .faults _ _
  next => exact .faults _ _

theorem endList_alike (h : Both ts c c') : Alike (Ahead ts) (endList c) (endList c') := by
  have hfront := h.front
  unfold endList
  simp only [hfront.peek_eq]
  split
  next hpeek => exact .results (hfront.skip hpeek rfl)
  all_goals exact .faults _ _

/-- Two readers in objects agree on the next key, and stand behind it, or before the closing
bracket. -/
def SameKey (ts : List Token) (x y : Option String × Cursor) : Prop :=
  x.1 = y.1 ∧ match x.1 with
    | some _ => Ahead ts x.2 y.2
    | none => Front ts x.2 y.2 ∧ x.2.peek = some '\x7d'

theorem key_alike {us : List Token} (hle : us.length ≤ ts.length) (h : Front us c c')
    (hpeek : c.peek = some '"') :
    Alike (SameKey ts)
      (match text c.skip with
        | .ok (k, c) => .ok (some k, c)
        | .error f => .error f)
      (match text c'.skip with
        | .ok (k, c) => .ok (some k, c)
        | .error f => .error f) := by
  rcases h.text hpeek with ⟨f, g, hf, hg⟩ | ⟨⟨k, e⟩, ⟨k', e'⟩, hk, hk', rfl, hahead⟩
  · rw [hf, hg]
    exact .faults _ _
  · rw [hk, hk']
    exact .results ⟨rfl, hahead.mono hle⟩

theorem nextKey_alike (first : Bool) (h : Both ts c c') :
    Alike (SameKey ts) (nextKey first c) (nextKey first c') := by
  have hfront := h.front
  unfold nextKey
  simp only [hfront.peek_eq]
  split
  next => exact .faults _ _
  next hpeek => exact .results ⟨rfl, hfront, hpeek⟩
  next x hne hpeek =>
    split
    · split
      next hquote =>
        obtain rfl : x = '"' := by simpa using hquote
        exact key_alike le_rfl hfront hpeek
      next => exact .faults _ _
    · split
      next hcomma =>
        obtain rfl : x = ',' := by simpa using hcomma
        obtain ⟨us, hlt, hboth⟩ := hfront.skip hpeek rfl
        have hnext := hboth.front
        simp only [hnext.peek_eq]
        split
        next hquote => exact key_alike hlt.le hnext hquote
        all_goals exact .faults _ _
      next => exact .faults _ _

/-! Values whose content does not matter -/

theorem passKey_alike (h : Both ts c c') : Alike (Ahead ts) (passKey c) (passKey c') := by
  have hfront := h.front
  unfold passKey
  simp only [hfront.peek_eq]
  split
  next hpeek =>
    rcases hfront.passText hpeek with ⟨f, g, hf, hg⟩ | ⟨e, e', he, he', us, hlt, hboth⟩
    · rw [hf, hg]
      exact .faults _ _
    · rw [he, he']
      have hcolon := hboth.front
      simp only [hcolon.peek_eq]
      split
      next hpeek => exact .results ((hcolon.skip hpeek rfl).mono hlt.le)
      all_goals exact .faults _ _
  all_goals exact .faults _ _

theorem Strict.length_le {ts : List Token} {cs : List Char} (h : Strict ts cs) :
    ts.length ≤ cs.length := by
  induction h with
  | done => exact Nat.zero_le _
  | @token g cs t ts _ _ ih =>
    obtain ⟨x, xs, hx, -⟩ := t.exists_chars
    simp only [hx, List.length_append, List.length_cons]
    omega

theorem le_stepsFor {c : Cursor} (h : Strict ts c.rest) : 2 * ts.length + 1 ≤ stepsFor c := by
  have hle := h.length_le
  unfold stepsFor
  omega

mutual

theorem passValue_alike (n n' : Nat) {ts : List Token} {c c' : Cursor} (opened : List Char)
    (h : Both ts c c')
    (hn : 2 * ts.length + 1 ≤ n) (hn' : 2 * ts.length + 1 ≤ n') :
    Alike (Ahead ts) (passValue n opened c) (passValue n' opened c') := by
  obtain ⟨m, rfl⟩ : ∃ m, n = m + 1 := ⟨n - 1, by omega⟩
  obtain ⟨m', rfl⟩ : ∃ m', n' = m' + 1 := ⟨n' - 1, by omega⟩
  have hfront := h.front
  have hclose : ∀ {k k' : Cursor} (inner : List Char) (afterValue : Bool), Ahead ts k k' →
      Alike (Ahead ts) (passClose m inner afterValue k) (passClose m' inner afterValue k') := by
    rintro k k' inner afterValue ⟨us, hlt, hboth⟩
    exact passClose_alike m m' inner afterValue hboth hlt (by omega) (by omega)
  have hsimple : ∀ {x y : Except Fault Cursor}, Alike (Ahead ts) x y →
      Alike (Ahead ts)
        (match x with
          | .ok c => passClose m opened true c
          | .error f => .error f)
        (match y with
          | .ok c => passClose m' opened true c
          | .error f => .error f) := by
    rintro x y (⟨f, g, rfl, rfl⟩ | ⟨e, e', rfl, rfl, hahead⟩)
    · exact .faults _ _
    · exact hclose opened true hahead
  rw [passValue, passValue]
  simp only [hfront.peek_eq]
  split
  next => exact .faults _ _
  next hpeek => exact hsimple (hfront.word hpeek rfl rfl)
  next hpeek => exact hsimple (hfront.word hpeek rfl rfl)
  next hpeek => exact hsimple (hfront.word hpeek rfl rfl)
  next hpeek => exact hsimple (hfront.number hpeek (.inl rfl))
  next hpeek => exact hsimple (hfront.passText hpeek)
  next hpeek => exact hclose _ false (hfront.skip hpeek rfl)
  next hpeek => exact hclose _ false (hfront.skip hpeek rfl)
  next d _ _ _ _ _ _ hpeek =>
    split
    next hd =>
      have hnumber := hfront.number hpeek (.inr hd)
      rw [if_neg (ne_of_isDigit hd (by decide)), if_neg (ne_of_isDigit hd (by decide))] at hnumber
      exact hsimple hnumber
    next => exact .faults _ _
termination_by n

theorem passClose_alike (n n' : Nat) {ts us : List Token} {c c' : Cursor} (opened : List Char)
    (afterValue : Bool) (h : Both us c c') (hlt : us.length < ts.length)
    (hn : 2 * us.length + 2 ≤ n) (hn' : 2 * us.length + 2 ≤ n') :
    Alike (Ahead ts) (passClose n opened afterValue c) (passClose n' opened afterValue c') := by
  obtain ⟨m, rfl⟩ : ∃ m, n = m + 1 := ⟨n - 1, by omega⟩
  obtain ⟨m', rfl⟩ : ∃ m', n' = m' + 1 := ⟨n' - 1, by omega⟩
  cases opened with
  | nil => exact .results ⟨us, hlt, h⟩
  | cons frame opened =>
    have hfront := h.front
    have hvalue : ∀ {k k' : Cursor}, (∃ vs, vs.length ≤ us.length ∧ Both vs k k') →
        Alike (Ahead ts) (passValue m (frame :: opened) k) (passValue m' (frame :: opened) k') := by
      rintro k k' ⟨vs, hle, hboth⟩
      rcases passValue_alike m m' (frame :: opened) hboth (by omega) (by omega) with
        hfaults | ⟨e, e', he, he', hahead⟩
      · exact .inl hfaults
      · exact .inr ⟨e, e', he, he', hahead.mono (by omega)⟩
    have hinside : ∀ {k k' : Cursor}, (∃ vs, vs.length ≤ us.length ∧ Both vs k k') →
        Alike (Ahead ts)
          (if frame == '\x7b' then
            match passKey k with
            | .ok c => passValue m (frame :: opened) c
            | .error f => .error f
          else passValue m (frame :: opened) k)
          (if frame == '\x7b' then
            match passKey k' with
            | .ok c => passValue m' (frame :: opened) c
            | .error f => .error f
          else passValue m' (frame :: opened) k') := by
      rintro k k' ⟨vs, hle, hboth⟩
      split
      · rcases passKey_alike hboth with ⟨f, g, hf, hg⟩ | ⟨e, e', he, he', ws, hws, hboth'⟩
        · rw [hf, hg]
          exact .faults _ _
        · rw [he, he']
          exact hvalue ⟨ws, by omega, hboth'⟩
      · exact hvalue ⟨vs, hle, hboth⟩
    rw [passClose, passClose]
    simp only [hfront.peek_eq]
    split
    next => exact .faults _ _
    next x hpeek =>
      split
      next hcomma =>
        obtain ⟨rfl, -⟩ : x = ',' ∧ afterValue = true := by simpa using hcomma
        obtain ⟨vs, hvs, hboth⟩ := hfront.skip hpeek rfl
        exact hinside ⟨vs, hvs.le, hboth⟩
      next =>
        split
        next hend =>
          obtain ⟨vs, hvs, hboth⟩ : Ahead us c.skipSpace.skip c'.skipSpace.skip := by
            simp only [Bool.or_eq_true, Bool.and_eq_true, beq_iff_eq] at hend
            rcases hend with ⟨rfl, -⟩ | ⟨rfl, -⟩
            · exact hfront.skip hpeek rfl
            · exact hfront.skip hpeek rfl
          exact passClose_alike m m' opened true hboth (hvs.trans hlt) (by omega) (by omega)
        next =>
          split
          · exact .faults _ _
          · exact hinside ⟨us, le_rfl, hfront.both⟩
termination_by n

end

/-! Values of a schema -/

/-- How many steps a schema needs beyond those for the tokens. Flags, integers and words out of a
list are left out. -/
inductive Needs : Schema → Nat → Prop where
  | text {k : Nat} : Needs .text k
  | optional {s : Schema} {k : Nat} (h : Needs s k) : Needs (.optional s) (k + 1)
  | list {s : Schema} {k : Nat} (h : Needs s k) : Needs (.list s) k
  | dict {s : Schema} {k : Nat} (h : Needs s k) : Needs (.dict s) k
  | record {name : String} {fields : List (String × Absence × Schema)} {k : Nat}
      (h : ∀ f ∈ fields, Needs f.2.2 k) : Needs (.record name fields) (k + fields.length)

/-- Values are read alike with fewer steps than so many. -/
def ReadAlike (n : Nat) : Prop :=
  ∀ m < n, ∀ (m' depth k : Nat) (ts : List Token) (c c' : Cursor) (schema : Schema),
    Needs schema k → Both ts c c' → 2 * ts.length + k + 1 ≤ m → 2 * ts.length + k + 1 ≤ m' →
      Alike (SameRead ts) (readAs m depth schema c) (readAs m' depth schema c')

theorem ReadAlike.of_succ {n : Nat} (h : ReadAlike (n + 1)) : ReadAlike n :=
  fun m hm => h m (by omega)

/-- Two readers go on behind what both of them passed. -/
theorem alike_behind {S : Value × Cursor → Value × Cursor → Prop}
    {next next' : Cursor → Reading Value}
    (hnext : ∀ c c', Ahead ts c c' → Alike S (next c) (next' c')) {x y : Except Fault Cursor} :
    Alike (Ahead ts) x y → Alike S
      (match x with
        | .error f => .error f
        | .ok c => next c)
      (match y with
        | .error f => .error f
        | .ok c => next' c) := by
  rintro (⟨f, g, rfl, rfl⟩ | ⟨e, e', rfl, rfl, hahead⟩)
  · exact .faults f g
  · exact hnext e e' hahead

/-- Two readers go on with a value that both of them read. -/
theorem alike_with {S : Value × Cursor → Value × Cursor → Prop}
    {next next' : Value → Cursor → Reading Value}
    (hnext : ∀ v c c', Ahead ts c c' → Alike S (next v c) (next' v c')) {x y : Reading Value} :
    Alike (SameRead ts) x y → Alike S
      (match x with
        | .error f => .error f
        | .ok (v, c) => next v c)
      (match y with
        | .error f => .error f
        | .ok (v, c) => next' v c) := by
  rintro (⟨f, g, rfl, rfl⟩ | ⟨⟨v, e⟩, ⟨v', e'⟩, rfl, rfl, heq, hahead⟩)
  · exact .faults f g
  · obtain rfl : v = v' := heq
    exact hnext v e e' hahead

theorem readItems_alike {n k : Nat} {s : Schema} (hs : Needs s k) (hread : ReadAlike n)
    (n' depth : Nat) {us : List Token} (first : Bool) (read : List Value) (h : Both us c c')
    (hlt : us.length < ts.length) (hn : 2 * us.length + k + 2 ≤ n)
    (hn' : 2 * us.length + k + 2 ≤ n') :
    Alike (SameRead ts) (readItems n depth s first read c) (readItems n' depth s first read c') := by
  induction n generalizing n' us first read c c' with
  | zero => omega
  | succ m ih =>
    obtain ⟨m', rfl⟩ : ∃ m', n' = m' + 1 := ⟨n' - 1, by omega⟩
    rw [readItems, readItems]
    rcases nextItem_alike first h with
      ⟨f, g, hf, hg⟩ | ⟨⟨more, e⟩, ⟨more', e'⟩, he, he', rfl, vs, hle, hfront, hend⟩
    · rw [hf, hg]
      exact .faults _ _
    rw [he, he']
    cases more with
    | false => exact .results ⟨rfl, (hfront.skip (hend rfl) rfl).mono (by omega)⟩
    | true =>
      have hvalue := hread m (by omega) m' depth k vs e e' s hs hfront.both (by omega) (by omega)
      dsimp only
      refine alike_with ?_ hvalue
      rintro v e e' ⟨ws, hws, hboth⟩
      exact ih hread.of_succ m' false (v :: read) hboth (by omega) (by omega) (by omega)

theorem readDict_alike {n k : Nat} {s : Schema} (hs : Needs s k) (hread : ReadAlike n)
    (n' depth : Nat) {us : List Token} (first : Bool) (read : List (String × Value))
    (h : Both us c c') (hlt : us.length < ts.length) (hn : 2 * us.length + k + 2 ≤ n)
    (hn' : 2 * us.length + k + 2 ≤ n') :
    Alike (SameRead ts) (readDict n depth s first read c) (readDict n' depth s first read c') := by
  induction n generalizing n' us first read c c' with
  | zero => omega
  | succ m ih =>
    obtain ⟨m', rfl⟩ : ∃ m', n' = m' + 1 := ⟨n' - 1, by omega⟩
    rw [readDict, readDict]
    rcases nextKey_alike first h with
      ⟨f, g, hf, hg⟩ | ⟨⟨key, e⟩, ⟨key', e'⟩, he, he', rfl, hnext⟩
    · rw [hf, hg]
      exact .faults _ _
    rw [he, he']
    cases key with
    | none => exact .results ⟨rfl, (hnext.1.skip hnext.2 rfl).mono hlt.le⟩
    | some key =>
      obtain ⟨vs, hvs, hcolon⟩ := hnext
      dsimp only
      refine alike_behind ?_ (colon_alike hcolon)
      rintro e e' ⟨ws, hws, hboth⟩
      have hvalue := hread m (by omega) m' depth k ws e e' s hs hboth (by omega) (by omega)
      refine alike_with ?_ hvalue
      rintro v e e' ⟨xs, hxs, hboth⟩
      exact ih hread.of_succ m' false ((key, v) :: read) hboth (by omega) (by omega) (by omega)

theorem readRow_alike {n k : Nat} {fields : List (String × Absence × Schema)}
    (hs : ∀ f ∈ fields, Needs f.2.2 k) (hread : ReadAlike n) (n' depth : Nat) (expected : String)
    (place : Nat) {us : List Token} (read : List (String × Value)) (h : Both us c c')
    (hlt : us.length < ts.length) (hn : 2 * us.length + k + fields.length + 2 ≤ n)
    (hn' : 2 * us.length + k + fields.length + 2 ≤ n') :
    Alike (SameRead ts) (readRow n depth expected place fields read c)
      (readRow n' depth expected place fields read c') := by
  induction fields generalizing n n' place us read c c' with
  | nil =>
    obtain ⟨m, rfl⟩ : ∃ m, n = m + 1 := ⟨n - 1, by omega⟩
    obtain ⟨m', rfl⟩ : ∃ m', n' = m' + 1 := ⟨n' - 1, by omega⟩
    rw [readRow, readRow]
    rcases endList_alike h with ⟨f, g, hf, hg⟩ | ⟨e, e', he, he', hahead⟩
    · rw [hf, hg]
      exact .faults _ _
    · rw [he, he']
      exact .results ⟨rfl, hahead.mono hlt.le⟩
  | cons field rest ih =>
    obtain ⟨m, rfl⟩ : ∃ m, n = m + 1 := ⟨n - 1, by omega⟩
    obtain ⟨m', rfl⟩ : ∃ m', n' = m' + 1 := ⟨n' - 1, by omega⟩
    obtain ⟨name, absence, s⟩ := field
    obtain ⟨hfield, hrest⟩ := List.forall_mem_cons.mp hs
    simp only [List.length_cons] at hn hn'
    rw [readRow, readRow]
    rcases nextItem_alike (place == 0) h with
      ⟨f, g, hf, hg⟩ | ⟨⟨more, e⟩, ⟨more', e'⟩, he, he', rfl, vs, hle, hfront, hend⟩
    · rw [hf, hg]
      exact .faults _ _
    rw [he, he']
    cases more with
    | false =>
      cases absence with
      | fault => exact .faults _ _
      | null => exact .faults _ _
      | default v =>
        exact ih hrest hread.of_succ m' (place + 1) ((name, v) :: read) hfront.both (by omega)
          (by omega) (by omega)
    | true =>
      have hvalue := hread m (by omega) m' depth k vs e e' s hfield hfront.both (by omega)
        (by omega)
      dsimp only
      refine alike_with ?_ hvalue
      rintro v e e' ⟨ws, hws, hboth⟩
      exact ih hrest hread.of_succ m' (place + 1) ((name, v) :: read) hboth (by omega) (by omega)
        (by omega)

theorem readMembers_alike {n k : Nat} {fields : List (String × Absence × Schema)}
    (hs : ∀ f ∈ fields, Needs f.2.2 k) (hread : ReadAlike n) (n' depth : Nat) {us : List Token}
    (first : Bool) (read : List (String × Value)) (h : Both us c c')
    (hlt : us.length < ts.length) (hn : 2 * us.length + k + 2 ≤ n)
    (hn' : 2 * us.length + k + 2 ≤ n') :
    Alike (SameRead ts) (readMembers n depth fields first read c)
      (readMembers n' depth fields first read c') := by
  induction n generalizing n' us first read c c' with
  | zero => omega
  | succ m ih =>
    obtain ⟨m', rfl⟩ : ∃ m', n' = m' + 1 := ⟨n' - 1, by omega⟩
    rw [readMembers, readMembers]
    rcases nextKey_alike first h with
      ⟨f, g, hf, hg⟩ | ⟨⟨key, e⟩, ⟨key', e'⟩, he, he', rfl, hnext⟩
    · rw [hf, hg]
      exact .faults _ _
    rw [he, he']
    cases key with
    | none =>
      simp only
      split
      · exact .results ⟨rfl, (hnext.1.skip hnext.2 rfl).mono hlt.le⟩
      · exact .faults _ _
    | some key =>
      obtain ⟨vs, hvs, hcolon⟩ := hnext
      simp only
      split
      next name absence s hfind =>
        have hfield : Needs s k := hs _ (List.mem_of_find?_eq_some hfind)
        split
        · exact .faults _ _
        refine alike_behind ?_ (colon_alike hcolon)
        rintro e e' ⟨ws, hws, hboth⟩
        have hvalue := hread m (by omega) m' depth k ws e e' s hfield hboth (by omega) (by omega)
        refine alike_with ?_ hvalue
        rintro v e e' ⟨xs, hxs, hboth⟩
        exact ih hread.of_succ m' false ((key, v) :: read) hboth (by omega) (by omega) (by omega)
      next =>
        refine alike_behind ?_ (colon_alike hcolon)
        rintro e e' ⟨ws, hws, hboth⟩
        have hvalue := passValue_alike _ _ [] hboth (le_stepsFor hboth.left)
          (le_stepsFor hboth.right)
        refine alike_behind ?_ hvalue
        rintro e e' ⟨xs, hxs, hboth⟩
        exact ih hread.of_succ m' false read hboth (by omega) (by omega) (by omega)

/-- By induction on the steps: what a value is made of is read with fewer of them. -/
theorem readAs_alike (n n' depth : Nat) {k : Nat} {schema : Schema} (hs : Needs schema k)
    (h : Both ts c c') (hn : 2 * ts.length + k + 1 ≤ n) (hn' : 2 * ts.length + k + 1 ≤ n') :
    Alike (SameRead ts) (readAs n depth schema c) (readAs n' depth schema c') := by
  induction n using Nat.strong_induction_on generalizing n' depth k ts c c' schema with
  | h n ih =>
    obtain ⟨m, rfl⟩ : ∃ m, n = m + 1 := ⟨n - 1, by omega⟩
    obtain ⟨m', rfl⟩ : ∃ m', n' = m' + 1 := ⟨n' - 1, by omega⟩
    have hread : ReadAlike m := fun m hm n' depth k ts c c' schema hs h hn hn' =>
      ih m (by omega) n' depth hs h hn hn'
    have hfront := h.front
    rw [readAs.eq_def (m + 1) depth schema c, readAs.eq_def (m' + 1) depth schema c']
    cases hs with
    | text =>
      simp only [hfront.peek_eq]
      split
      next => exact .faults _ _
      next hpeek =>
        rcases hfront.text hpeek with ⟨f, g, hf, hg⟩ | ⟨⟨s, e⟩, ⟨s', e'⟩, he, he', rfl, hahead⟩
        · rw [hf, hg]
          exact .faults _ _
        · rw [he, he']
          exact .results ⟨rfl, hahead⟩
      next => exact .faults _ _
    | @optional s k hs =>
      simp only [hfront.peek_eq]
      split
      next hnull =>
        have hpeek : c.skipSpace.peek = some 'n' := by simpa using hnull
        have hword : Alike (Ahead ts) (c.skipSpace.skip.word "ull".toList)
            (c'.skipSpace.skip.word "ull".toList) := hfront.word hpeek rfl rfl
        rcases hword with ⟨f, g, hf, hg⟩ | ⟨e, e', he, he', hahead⟩
        · rw [hf, hg]
          exact .faults _ _
        · rw [he, he']
          exact .results ⟨rfl, hahead⟩
      next => exact ih m (by omega) m' depth hs hfront.both (by omega) (by omega)
    | @list s k hs =>
      simp only [hfront.peek_eq]
      split
      next => exact .faults _ _
      next => exact .faults _ _
      next hpeek =>
        obtain ⟨us, hlt, hboth⟩ := hfront.skip hpeek rfl
        exact readItems_alike hs hread m' _ true [] hboth hlt (by omega) (by omega)
      next => exact .faults _ _
    | @dict s k hs =>
      simp only [hfront.peek_eq]
      split
      next => exact .faults _ _
      next => exact .faults _ _
      next hpeek =>
        obtain ⟨us, hlt, hboth⟩ := hfront.skip hpeek rfl
        exact readDict_alike hs hread m' _ true [] hboth hlt (by omega) (by omega)
      next => exact .faults _ _
    | @record name fields k hs =>
      simp only [hfront.peek_eq]
      split
      next => exact .faults _ _
      next => exact .faults _ _
      next => exact .faults _ _
      next hpeek =>
        obtain ⟨us, hlt, hboth⟩ := hfront.skip hpeek rfl
        exact readRow_alike hs hread m' _ _ 0 [] hboth hlt (by omega) (by omega)
      next hpeek =>
        obtain ⟨us, hlt, hboth⟩ := hfront.skip hpeek rfl
        exact readMembers_alike hs hread m' _ true [] hboth hlt (by omega) (by omega)
      next => exact .faults _ _

theorem finish_alike (h : Both ts c c') : Alike Eq (finish c) (finish c') := by
  have hfront := h.front
  unfold finish
  simp only [hfront.peek_eq]
  split
  · exact .faults _ _
  · exact .results rfl

/-- Two texts of the same tokens are read to the same value, or both are refused. -/
theorem decode_toOption {schema : Schema} {k : Nat} (hs : Needs schema k) (hk : k ≤ 63)
    (hts : Separated ts) {s s' : String} (h : Strict ts s.toList) (h' : Strict ts s'.toList) :
    (decode schema s).toOption = (decode schema s').toOption := by
  have hboth : Both ts (Cursor.start s) (Cursor.start s') := ⟨hts, h, h'⟩
  have hsteps : ∀ {r : String}, Strict ts r.toList →
      2 * ts.length + k + 1 ≤ 2 * (Cursor.start r).rest.length + 64 := by
    intro r hr
    have hle : ts.length ≤ (Cursor.start r).rest.length := hr.length_le
    omega
  unfold decode
  rcases readAs_alike _ _ maxDepth hs hboth (hsteps h) (hsteps h') with
    ⟨f, g, hf, hg⟩ | ⟨⟨v, e⟩, ⟨v', e'⟩, hv, hv', rfl, us, -, hend⟩
  · simp only [hf, hg]
    rfl
  · simp only [hv, hv']
    rcases finish_alike hend with ⟨f, g, hf, hg⟩ | ⟨_, _, hu, hu', -⟩
    · rw [hf, hg]
      rfl
    · rw [hu, hu']

end CodeIndex.Json.Layout
