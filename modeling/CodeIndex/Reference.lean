import CodeIndex.Symbol

/-!
Use-sites: an imported binding, a call, a property access, a type, a heritage clause or a variable
passed as an argument.
-/
namespace CodeIndex

inductive ReferenceKind where
  | import
  | call
  | extends
  | implements
  | propertyAccess
  | typeReference
  | variableReference
  deriving DecidableEq, Repr

namespace ReferenceKind

def all : List ReferenceKind :=
  [«import», call, «extends», implements, propertyAccess, typeReference, variableReference]

def name : ReferenceKind → String
  | «import» => "import"
  | call => "call"
  | «extends» => "extends"
  | implements => "implements"
  | propertyAccess => "property_access"
  | typeReference => "type_reference"
  | variableReference => "variable_reference"

def ofName? (s : String) : Option ReferenceKind := all.find? fun k => k.name == s

/-- The kinds that become a symbol usage when their name matches a symbol. -/
def linksSymbols : ReferenceKind → Bool
  | call | propertyAccess | typeReference => true
  | _ => false

theorem ofName?_name (k : ReferenceKind) : ofName? k.name = some k := by cases k <;> rfl

end ReferenceKind

/-- How a binding was imported. -/
inductive ImportStyle where
  | named
  | default
  | namespace
  | sideEffect
  | aliased
  | dynamic
  deriving DecidableEq, Repr

namespace ImportStyle

def all : List ImportStyle := [named, default, «namespace», sideEffect, aliased, dynamic]

def name : ImportStyle → String
  | named => "named"
  | default => "default"
  | «namespace» => "namespace"
  | sideEffect => "side_effect"
  | aliased => "aliased"
  | dynamic => "dynamic"

def ofName? (s : String) : Option ImportStyle := all.find? fun k => k.name == s

end ImportStyle

/-- The declaration that a reference stands in. -/
structure Enclosing where
  name : String
  line : Nat
  deriving DecidableEq, Repr

/-- What is known of a reference beyond its name and place. -/
structure Metadata where
  importSource : Option String := none
  importStyle : Option ImportStyle := none
  «alias» : Option String := none
  isMethodCall : Bool := false
  receiver : Option String := none
  optionalChain : Bool := false
  constructor : Bool := false
  dynamic : Bool := false
  enclosing : Option Enclosing := none
  deriving DecidableEq, Repr, Inhabited

structure Reference where
  filePath : String
  name : String
  kind : ReferenceKind
  line : Nat
  column : Nat
  targetFilePath : Option String := none
  targetSymbol : Option SymbolKey := none
  metadata : Metadata := {}
  deriving DecidableEq, Repr

namespace Reference

/-- The key of the symbol that the reference stands in. -/
def enclosingKey (r : Reference) : Option SymbolKey :=
  r.metadata.enclosing.map fun e => ⟨r.filePath, e.name, e.line⟩

end Reference

end CodeIndex
