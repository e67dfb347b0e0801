import CodeIndex.Source.Form

/-!
Derivations. What a form has read is related to the positions around it, without the bound that a
run takes. The relation says what was read and by which form; that a choice takes the first form
that fits, and that a repetition goes on as long as it can, is left to the run. So what holds of all
that a grammar reads is proved by induction on a derivation, with one case for each way to read.
-/
namespace CodeIndex.Source

variable {Rule : Type} {grammar : Rule → Form Rule} {t : Input}

/-- The nodes that a form reads between two positions. -/
inductive Reads (grammar : Rule → Form Rule) (t : Input) :
    Form Rule → Mode → Nat → List Node → Nat → Prop where
  | empty {mode : Mode} {pos : Nat} : Reads grammar t .empty mode pos [] pos
  | lexeme {kind : Kind} {scan : Scan} {mode : Mode} {pos start stop : Nat}
      (hscan : scan t mode pos = some (start, stop)) :
      Reads grammar t (.lexeme kind scan) mode pos [Node.leaf kind start stop] stop
  | rule {r : Rule} {mode : Mode} {pos q : Nat} {xs : List Node}
      (h : Reads grammar t (grammar r) mode pos xs q) : Reads grammar t (.rule r) mode pos xs q
  | both {f g : Form Rule} {mode : Mode} {pos p q : Nat} {xs ys : List Node}
      (hf : Reads grammar t f mode pos xs p) (hg : Reads grammar t g mode p ys q) :
      Reads grammar t (.both f g) mode pos (xs ++ ys) q
  | left {f g : Form Rule} {mode : Mode} {pos q : Nat} {xs : List Node}
      (hf : Reads grammar t f mode pos xs q) : Reads grammar t (.either f g) mode pos xs q
  | right {f g : Form Rule} {mode : Mode} {pos q : Nat} {xs : List Node}
      (hg : Reads grammar t g mode pos xs q) : Reads grammar t (.either f g) mode pos xs q
  | many_nil {f : Form Rule} {mode : Mode} {pos : Nat} : Reads grammar t (.many f) mode pos [] pos
  | many_append {f : Form Rule} {mode : Mode} {pos p q : Nat} {xs ys : List Node}
      (hf : Reads grammar t f mode pos xs p) (hmany : Reads grammar t (.many f) mode p ys q) :
      Reads grammar t (.many f) mode pos (xs ++ ys) q
  | node {kind : Kind} {f : Form Rule} {mode : Mode} {pos q : Nat} {xs : List Node}
      (hf : Reads grammar t f mode pos xs q) :
      Reads grammar t (.node kind f) mode pos [assemble t kind pos xs] q
  | role {r : Role} {f : Form Rule} {mode : Mode} {pos q : Nat} {xs : List Node}
      (hf : Reads grammar t f mode pos xs q) :
      Reads grammar t (.role r f) mode pos (xs.map (Node.withRole r)) q
  | ahead {f : Form Rule} {mode : Mode} {pos : Nat} : Reads grammar t (.ahead f) mode pos [] pos
  | notAhead {f : Form Rule} {mode : Mode} {pos : Nat} :
      Reads grammar t (.notAhead f) mode pos [] pos
  | given {test : Mode → Bool} {f : Form Rule} {mode : Mode} {pos q : Nat} {xs : List Node}
      (hf : Reads grammar t f mode pos xs q) : Reads grammar t (.given test f) mode pos xs q
  | inMode {change : Mode → Mode} {f : Form Rule} {mode : Mode} {pos q : Nat} {xs : List Node}
      (hf : Reads grammar t f (change mode) pos xs q) :
      Reads grammar t (.inMode change f) mode pos xs q
  | keeping {test : Node → Bool} {f : Form Rule} {mode : Mode} {pos q : Nat} {xs : List Node}
      (hf : Reads grammar t f mode pos xs q) : Reads grammar t (.keeping test f) mode pos xs q
  | grow_base {base : Form Rule} {steps : List (Kind × Option Role × (Node → Bool) × Form Rule)}
      {mode : Mode} {pos q : Nat} {x : Node} (hbase : Reads grammar t base mode pos [x] q) :
      Reads grammar t (.grow base steps) mode pos [x] q
  | grow_step {base : Form Rule} {steps : List (Kind × Option Role × (Node → Bool) × Form Rule)}
      {mode : Mode} {pos p q : Nat} {x : Node} {ys : List Node} {kind : Kind} {role : Option Role}
      {test : Node → Bool} {f : Form Rule} (hx : Reads grammar t (.grow base steps) mode pos [x] p)
      (hstep : (kind, role, test, f) ∈ steps) (hf : Reads grammar t f mode p ys q) :
      Reads grammar t (.grow base steps) mode pos
        [assemble t kind x.start ((role.map fun r => x.withRole r).getD x :: ys)] q
  | operators {operand pair : Form Rule} {mode : Mode} {pos p q : Nat} {x : Node} {ys : List Node}
      (hx : Reads grammar t operand mode pos [x] p)
      (hpairs : Reads grammar t (.many pair) mode p ys q) :
      Reads grammar t (.operators operand pair) mode pos
        [(group t (ys.length + 1) x 0 (pairsOf ys)).1] q
  | terminated {test : Node → Bool} {f : Form Rule} {mode : Mode} {pos p start stop : Nat}
      {xs : List Node} {after : Bool} (hf : Reads grammar t f mode pos xs p)
      (hend : Semicolon.find? mode.dialect after t p = some (start, stop)) :
      Reads grammar t (.terminated test f) mode pos (xs ++ [Node.leaf .token start stop]) stop

/-- Runs with a number of steps read what the relation says. -/
def RunsRead (grammar : Rule → Form Rule) (t : Input) (n : Nat) : Prop :=
  ∀ (f : Form Rule) (mode : Mode) (pos : Nat) (xs : List Node) (q : Nat),
    run grammar t n f mode pos = some (xs, q) → Reads grammar t f mode pos xs q

/-- A node that has been read up to a position goes on growing from there. -/
def StepsRead (grammar : Rule → Form Rule) (t : Input) (n : Nat) : Prop :=
  ∀ (base : Form Rule) (all steps : List (Kind × Option Role × (Node → Bool) × Form Rule))
    (mode : Mode) (pos p q : Nat) (x : Node) (xs : List Node), steps ⊆ all →
    Reads grammar t (.grow base all) mode pos [x] p →
      runSteps grammar t n all steps mode x p = (xs, q) →
        Reads grammar t (.grow base all) mode pos xs q

theorem stepsRead_succ {n : Nat} (hrun : RunsRead grammar t n) (ih : StepsRead grammar t n) :
    StepsRead grammar t (n + 1) := by
  intro base all steps mode pos p q x xs hsub hx h
  cases steps with
  | nil =>
    rw [runSteps] at h
    cases h
    exact hx
  | cons step others =>
    obtain ⟨kind, role, test, f⟩ := step
    rw [runSteps.eq_def] at h
    dsimp only at h
    split at h
    · next y p' hnext =>
      refine ih base all all mode pos p' q y xs (List.Subset.refl all) ?_ h
      split at hnext
      · split at hnext
        · next ys r hf =>
          split at hnext
          · cases hnext
            have hgrown := hx.grow_step (hsub List.mem_cons_self) (hrun f mode p ys p' hf)
            cases role <;> exact hgrown
          · cases hnext
        · cases hnext
      · cases hnext
    · exact ih base all others mode pos p q x xs (fun s hs => hsub (List.mem_cons_of_mem _ hs)) hx h

/-- One case for each form. -/
theorem runsRead_succ {n : Nat} (ih : RunsRead grammar t n) (hsteps : StepsRead grammar t n) :
    RunsRead grammar t (n + 1) := by
  intro f mode pos xs q h
  cases f with
  | empty =>
    rw [run] at h
    cases h
    exact .empty
  | never =>
    rw [run] at h
    cases h
  | lexeme k scan =>
    rw [run] at h
    split at h
    · next hscan =>
      cases h
      exact .lexeme hscan
    · cases h
  | rule r =>
    rw [run] at h
    exact .rule (ih _ _ _ _ _ h)
  | both f g =>
    rw [run] at h
    split at h
    · next hf =>
      split at h
      · next hg =>
        cases h
        exact .both (ih f _ _ _ _ hf) (ih g _ _ _ _ hg)
      · cases h
    · cases h
  | either f g =>
    rw [run] at h
    split at h
    · next hf =>
      cases h
      exact .left (ih f _ _ _ _ hf)
    · exact .right (ih g _ _ _ _ h)
  | many f =>
    rw [run] at h
    split at h
    · next hf =>
      split at h
      · split at h
        · next hmany =>
          cases h
          exact .many_append (ih f _ _ _ _ hf) (ih (.many f) _ _ _ _ hmany)
        · cases h
      · cases h
        exact .many_nil
    · cases h
      exact .many_nil
  | node k f =>
    rw [run] at h
    split at h
    · next hf =>
      cases h
      exact .node (ih f _ _ _ _ hf)
    · cases h
  | role r f =>
    rw [run] at h
    split at h
    · next hf =>
      cases h
      exact .role (ih f _ _ _ _ hf)
    · cases h
  | ahead f =>
    rw [run] at h
    split at h
    · cases h
      exact .ahead
    · cases h
  | notAhead f =>
    rw [run] at h
    split at h
    · cases h
    · cases h
      exact .notAhead
  | given test f =>
    rw [run] at h
    split at h
    · exact .given (ih f _ _ _ _ h)
    · cases h
  | inMode change f =>
    rw [run] at h
    exact .inMode (ih f _ _ _ _ h)
  | keeping test f =>
    rw [run] at h
    split at h
    · next hf =>
      split at h
      · split at h
        · cases h
          exact .keeping (ih f _ _ _ _ hf)
        · cases h
      · cases h
    · cases h
  | grow base steps =>
    rw [run] at h
    split at h
    · next hbase =>
      exact hsteps base steps steps _ _ _ _ _ _ (List.Subset.refl steps)
        (.grow_base (ih base _ _ _ _ hbase)) (Option.some.inj h)
    · cases h
    · cases h
  | operators operand pair =>
    rw [run] at h
    split at h
    · next hx =>
      split at h
      · next hpairs =>
        cases h
        exact .operators (ih operand _ _ _ _ hx) (ih (.many pair) _ _ _ _ hpairs)
      · cases h
    · cases h
    · cases h
  | terminated test f =>
    rw [run] at h
    split at h
    · next hf =>
      dsimp only at h
      split at h
      · next hend =>
        cases h
        exact .terminated (ih f _ _ _ _ hf) hend
      · cases h
    · cases h

/-- By induction on the steps, for forms and for growing nodes together. -/
theorem runsRead_and_stepsRead (grammar : Rule → Form Rule) (t : Input) (n : Nat) :
    RunsRead grammar t n ∧ StepsRead grammar t n := by
  induction n with
  | zero =>
    refine ⟨fun f mode pos xs q h => ?_, fun base all steps mode pos p q x xs _ hx h => ?_⟩
    · rw [run] at h
      cases h
    · rw [runSteps] at h
      cases h
      exact hx
  | succ n ih =>
    exact ⟨runsRead_succ ih.1 ih.2, stepsRead_succ ih.1 ih.2⟩

/-- What a run yields was read. -/
theorem reads_of_run {n : Nat} {f : Form Rule} {mode : Mode} {pos q : Nat} {xs : List Node}
    (h : run grammar t n f mode pos = some (xs, q)) : Reads grammar t f mode pos xs q :=
  (runsRead_and_stepsRead grammar t n).1 f mode pos xs q h

end CodeIndex.Source
