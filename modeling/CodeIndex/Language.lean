import CodeIndex.Text.Pieces

/-!
The source languages and how a path tells its language. Extensions compare without regard to case;
no character outside ASCII has a lower-case form inside the extensions, so folding ASCII letters
is enough.
-/
namespace CodeIndex

inductive Language where
  | typescript
  | tsx
  | javascript
  | jsx
  | unknown
  deriving DecidableEq, Repr, Inhabited

namespace Language

def all : List Language := [typescript, tsx, javascript, jsx, unknown]

def name : Language → String
  | typescript => "typescript"
  | tsx => "tsx"
  | javascript => "javascript"
  | jsx => "jsx"
  | unknown => "unknown"

/-- The language stored under a name; any other name stands for an unknown language. -/
def ofName (s : String) : Language :=
  (all.find? fun l => l.name == s).getD unknown

def ofExtension (ext : String) : Language :=
  match String.ofList (ext.toList.map Char.toLower) with
  | "ts" => typescript
  | "tsx" => tsx
  | "js" | "mjs" | "cjs" => javascript
  | "jsx" => jsx
  | _ => unknown

/-- Indexed extensions, in the order in which an import tries them. -/
def extensions : List String := ["ts", "tsx", "js", "jsx", "mjs", "cjs"]

/-- The exact test on an extension, which minds case. -/
def isSupportedExtension (ext : String) : Bool := extensions.contains ext

/-- What follows the last full stop of a path, provided that something stands before it and that
it does not reach into a directory name. -/
def extensionOf? (path : String) : Option String :=
  match Text.Pieces.cutLast '.' path with
  | some (stem, ext) => if !stem.isEmpty && !ext.toList.contains '/' then some ext else none
  | none => none

def ofPath (path : String) : Language :=
  match extensionOf? path with
  | some ext => ofExtension ext
  | none => unknown

theorem ofName_name (l : Language) : ofName l.name = l := by cases l <;> rfl

end Language

end CodeIndex
