import CodeIndex.Proofs.Graph.Cycles

/-!
The normal form of closed walks. A closed walk can be written from each of its files on; the lists
that come of it are rotations of each other and follow the same imports. The normal form starts at
the first smallest file. Where no file is passed twice it is the same for all rotations; a walk that
passes its smallest file twice has one for each of the two places.
-/
namespace CodeIndex.Graph

variable {nodes nodes' : List String}

namespace Cycle

/-- The imports that a closed walk follows; the last one leads back to its first file. -/
def imports (nodes : List String) : List (String × String) := nodes.zip (nodes.rotate 1)

theorem imports_rotate (nodes : List String) (n : Nat) :
    imports (nodes.rotate n) = (imports nodes).rotate n := by
  have hlength : nodes.length = (nodes.rotate 1).length := (List.length_rotate ..).symm
  have hturned : (nodes.rotate n).rotate 1 = (nodes.rotate 1).rotate n := by
    rw [List.rotate_rotate, List.rotate_rotate, Nat.add_comm]
  rw [imports, hturned]
  exact (List.zipWith_rotate_distrib Prod.mk nodes (nodes.rotate 1) n hlength).symm

/-- Rotations follow the same imports in the same cyclic order. -/
theorem isRotated_imports (h : nodes ~r nodes') : imports nodes ~r imports nodes' := by
  obtain ⟨n, rfl⟩ := h
  exact ⟨n, (imports_rotate nodes n).symm⟩

end Cycle

theorem isRotated_rotateLeft (nodes : List String) (k : Nat) : nodes ~r nodes.rotateLeft k :=
  ⟨k, (rotateLeft_eq_rotate nodes k).symm⟩

/-- Rotations of different files have one normal form. -/
theorem normalized_eq_of_isRotated (hnodup : nodes.Nodup) (h : nodes ~r nodes') :
    Cycle.normalized nodes = Cycle.normalized nodes' := by
  obtain ⟨hrotated, hleast⟩ := normalized_spec nodes
  obtain ⟨hrotated', hleast'⟩ := normalized_spec nodes'
  have hboth : (Cycle.normalized nodes).nodes ~r (Cycle.normalized nodes').nodes :=
    hrotated.symm.trans (h.trans hrotated')
  have hdistinct : (Cycle.normalized nodes).nodes.Nodup := hrotated.nodup_iff.mp hnodup
  exact congrArg Cycle.mk (hleast.eq_of_isRotated hleast' hdistinct hboth)

/-- The normal form of any list is a rotation of it, so it follows the same imports in the same
cyclic order. It starts with a smallest file and is its own normal form. It is canonical for
different files: they have the normal form of each of their rotations, and of no other list. -/
theorem normalized_canonical (nodes : List String) :
    (nodes ~r (Cycle.normalized nodes).nodes ∧
        Cycle.imports nodes ~r Cycle.imports (Cycle.normalized nodes).nodes) ∧
      StartsLeast (Cycle.normalized nodes).nodes ∧
      Cycle.normalized (Cycle.normalized nodes).nodes = Cycle.normalized nodes ∧
      (nodes.Nodup →
        (∀ k, Cycle.normalized (nodes.rotateLeft k) = Cycle.normalized nodes) ∧
          ∀ nodes', Cycle.normalized nodes = Cycle.normalized nodes' ↔ nodes ~r nodes') := by
  obtain ⟨hrotated, hleast⟩ := normalized_spec nodes
  refine ⟨⟨hrotated, Cycle.isRotated_imports hrotated⟩, hleast, normalized_eq_self hleast, ?_⟩
  intro hnodup
  constructor
  · intro k
    exact (normalized_eq_of_isRotated hnodup (isRotated_rotateLeft nodes k)).symm
  · intro nodes'
    constructor
    · intro hsame
      have hrotated' := (normalized_spec nodes').1
      exact (hsame ▸ hrotated).trans hrotated'.symm
    · exact normalized_eq_of_isRotated hnodup

/-- A rotation past the end of the list. -/
theorem normalized_canonical_threeFiles : ["b.ts", "c.ts", "a.ts"].Nodup ∧
    Cycle.normalized (["b.ts", "c.ts", "a.ts"].rotateLeft 5) =
      Cycle.normalized ["b.ts", "c.ts", "a.ts"] ∧
    Cycle.normalized ["b.ts", "c.ts", "a.ts"] = ⟨["a.ts", "b.ts", "c.ts"]⟩ := by
  have hnodup : ["b.ts", "c.ts", "a.ts"].Nodup := by decide
  obtain ⟨-, -, -, hcanonical⟩ := normalized_canonical ["b.ts", "c.ts", "a.ts"]
  exact ⟨hnodup, (hcanonical hnodup).1 5, by decide⟩

/-- Two rotations of a walk that passes its smallest file twice. -/
example : Cycle.normalized ["a.ts", "b.ts", "a.ts", "c.ts"] ≠
    Cycle.normalized (["a.ts", "b.ts", "a.ts", "c.ts"].rotateLeft 2) := by decide

end CodeIndex.Graph
