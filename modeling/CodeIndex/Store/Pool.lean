import CodeIndex.Config
import CodeIndex.Store.Basic

/-!
Access to a store: one writer and a number of readers. A store with a file has readers of its own,
which cannot write; a store in memory has none, and reading goes through its writer.
-/
namespace CodeIndex

structure Pool where
  store : Store
  path : Option String
  readers : Nat

namespace Pool

def inMemory (s : Store) : Pool := ⟨s, none, 0⟩

/-- The pool of a file; the number of readers is brought into the allowed range. -/
def ofFile (s : Store) (path : String) (readers : Nat) : Pool :=
  ⟨s, some path, clampReaders readers⟩

/-- Changes the store through the writer. -/
def write {α : Type} (p : Pool) (f : Store → Except Error (α × Store)) :
    Except Error (α × Pool) := do
  let (a, s) ← f p.store
  return (a, { p with store := s })

/-- Tries to change the store through a reader. -/
def writeAsReader {α : Type} (p : Pool) (f : Store → Except Error (α × Store)) :
    Except Error (α × Pool) :=
  if p.readers = 0 then p.write f else .error (.storage .readOnly)

/-- Asks the same of the store through as many readers as there are, one after the other. -/
def readAll {α : Type} (p : Pool) (f : Store → α) : List α :=
  (List.range p.readers).map fun _ => f p.store

end Pool

end CodeIndex
