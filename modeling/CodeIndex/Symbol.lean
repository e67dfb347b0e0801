/-!
Declared symbols. A symbol is identified by the file that holds it, its name and the line on which
its declaration starts.
-/
namespace CodeIndex

inductive SymbolKind where
  | function
  | classType
  | interface
  | type
  | variable
  | constant
  | method
  | property
  | module
  | namespace
  | enum
  | enumMember
  deriving DecidableEq, Repr

namespace SymbolKind

def all : List SymbolKind :=
  [function, classType, interface, type, «variable», constant, method, property, module,
    «namespace», enum, enumMember]

def name : SymbolKind → String
  | function => "function"
  | classType => "class"
  | interface => "interface"
  | type => "type"
  | «variable» => "variable"
  | constant => "constant"
  | method => "method"
  | property => "property"
  | module => "module"
  | «namespace» => "namespace"
  | enum => "enum"
  | enumMember => "enum_member"

def ofName? (s : String) : Option SymbolKind := all.find? fun k => k.name == s

/-- Members of a class, an interface or an enumeration are reached through their owner. -/
def isMember : SymbolKind → Bool
  | method | property | enumMember => true
  | _ => false

theorem ofName?_name (k : SymbolKind) : ofName? k.name = some k := by cases k <;> rfl

end SymbolKind

/-- What identifies a symbol within a repository. -/
structure SymbolKey where
  filePath : String
  name : String
  lineStart : Nat
  deriving DecidableEq, Repr, Hashable

structure Symbol where
  filePath : String
  name : String
  kind : SymbolKind
  lineStart : Nat
  lineEnd : Nat
  signature : Option String
  documentation : Option String
  isExported : Bool
  deriving DecidableEq, Repr

namespace Symbol

def key (s : Symbol) : SymbolKey := ⟨s.filePath, s.name, s.lineStart⟩

/-- Whether the lines of the declaration hold the given line. -/
def covers (s : Symbol) (line : Nat) : Bool := s.lineStart ≤ line && line ≤ s.lineEnd

end Symbol

end CodeIndex
