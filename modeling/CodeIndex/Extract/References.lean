import CodeIndex.Extract.Symbols
import CodeIndex.Reference

/-!
The use-sites of a file. Each node is visited once, with the use that its parent makes of it; a
member expression is reported before the object it is taken from.
-/
namespace CodeIndex.Extract.References

open Source Symbols

/-- What the parent uses a node for. -/
inductive Use where
  | plain
  | callee (optional : Bool)
  | constructed
  | argumentList
  | importArguments
  | heritage (kind : ReferenceKind)

structure File where
  path : String
  parsed : Parsed

def File.text (f : File) (n : Node) : String := f.parsed.text n

def reference (f : File) (n : Node) (name : String) (kind : ReferenceKind) (metadata : Metadata) :
    Reference :=
  let place := f.parsed.input.place n.start
  { filePath := f.path, name, kind, line := place.line, column := place.column, metadata }

/-- The kinds whose name is a type identifier that declares and does not refer. -/
def declaresTypeName : Kind → Bool
  | .classDeclaration | .abstractClassDeclaration | .interfaceDeclaration
  | .typeAliasDeclaration | .classExpression | .typeParameter => true
  | _ => false

/-- The member that is called or constructed. -/
def memberCall (f : File) (n : Node) (metadata : Metadata) : List Reference :=
  match n.child? .property with
  | some property =>
    [reference f property (f.text property) .call
      { metadata with receiver := (n.child? .object).map f.text }]
  | none => []

/-- One reference for every entry of an import or export list. -/
def specifiers (f : File) (base : Metadata) (list : Node) : List Reference :=
  list.named.filterMap fun spec =>
    (spec.child? .name).map fun name =>
      let localName := (spec.child? .localName).map f.text
      reference f spec (nameText f.parsed name) .import
        { base with
          «alias» := localName
          importStyle := some (if localName.isSome then .aliased else .named) }

def importPart (f : File) (base : Metadata) (part : Node) : List Reference :=
  match part.kind with
  | .identifier =>
    [reference f part (f.text part) .import { base with importStyle := some .default }]
  | .namespaceImport =>
    let localName := part.named.find? fun c => c.kind == .identifier
    [reference f part "*" .import
      { base with importStyle := some .namespace, «alias» := localName.map f.text }]
  | .namedImports => specifiers f base part
  | _ => []

/-- An import that assigns the result of a `require` call. -/
def requireClause (f : File) (clause : Node) : List Reference :=
  match clause.child? .source, clause.named.find? fun c => c.kind == .identifier with
  | some source, some localName =>
    [reference f localName (f.text localName) .import
      { importSource := some (unquote (f.text source)), importStyle := some .default }]
  | _, _ => []

def importStatement (f : File) (n : Node) : List Reference :=
  match n.child? .source with
  | none =>
    (n.named.filter fun c => c.kind == .importRequireClause).flatMap (requireClause f)
  | some source =>
    let specifier := unquote (f.text source)
    let base : Metadata := { importSource := some specifier }
    match n.named.find? fun c => c.kind == .importClause with
    | none => [reference f n specifier .import { base with importStyle := some .sideEffect }]
    | some clause => clause.named.flatMap (importPart f base)

/-- A re-export: its entries, its namespace, or everything. -/
def reexport (f : File) (n source : Node) : List Reference :=
  let base : Metadata := { importSource := some (unquote (f.text source)) }
  let parts := n.named.filter fun c => c.kind == .exportClause || c.kind == .namespaceExport
  if parts.isEmpty then
    [reference f n "*" .import { base with importStyle := some .namespace }]
  else
    parts.flatMap fun c =>
      if c.kind == .exportClause then specifiers f base c
      else
        [reference f c "*" .import
          { base with importStyle := some .namespace, «alias» := c.named.head?.map f.text }]

/-- The string that a dynamic import names. -/
def importedString? (arguments : Node) : Option Node :=
  match arguments.named with
  | first :: _ => if first.kind == .string then some first else none
  | [] => none

/-- How a call uses its children. -/
def callUse (isImport optional : Bool) (c : Node) : Option Use :=
  match c.role with
  | some .function => if isImport then none else some (.callee optional)
  | some .arguments => some (if isImport then .importArguments else .argumentList)
  | _ => none

def newUse (c : Node) : Option Use :=
  match c.role with
  | some .constructor => some .constructed
  | some .typeArguments => some .plain
  | some .arguments => some .argumentList
  | _ => none

def onlyRole (r : Role) (use : Use) (c : Node) : Option Use :=
  if c.role == some r then some use else none

def allNamed (use : Use) (c : Node) : Option Use := if c.isNamed then some use else none

/-- The clauses of a class's heritage; without clauses the base stands there itself. -/
def heritageUse (c : Node) : Option Use :=
  match c.kind with
  | .token => none
  | .extendsClause | .implementsClause => some .plain
  | _ => some (.heritage .extends)

def genericUse (kind : ReferenceKind) (c : Node) : Option Use :=
  match c.role with
  | some .name => some (.heritage kind)
  | some .typeArguments => some .plain
  | _ => none

mutual

def visit (f : File) (use : Use) (parent : Kind) : Node → List Reference
  | .mk k r s e cs =>
    let n := Node.mk k r s e cs
    match use, k with
    | .callee optional, .identifier =>
      [reference f n (f.text n) .call { optionalChain := optional }]
    | .callee optional, .memberExpression =>
      memberCall f n
          { isMethodCall := true, optionalChain := optional || n.hasChild .optionalChain }
        ++ visitAll f (onlyRole .object .plain) k cs
    | .constructed, .identifier => [reference f n (f.text n) .call { constructor := true }]
    | .constructed, .memberExpression =>
      memberCall f n { constructor := true } ++ visitAll f (onlyRole .object .plain) k cs
    | .argumentList, _ => visitArguments f k cs
    | .importArguments, _ => visitFirst f k cs
    | .heritage kind, .identifier => [reference f n (f.text n) kind {}]
    | .heritage kind, .typeIdentifier => [reference f n (f.text n) kind {}]
    | .heritage kind, .memberExpression =>
      ((n.child? .property).map fun property =>
        reference f property (f.text property) kind
          { receiver := (n.child? .object).map f.text }).toList
    | .heritage kind, .nestedTypeIdentifier =>
      ((n.child? .name).map fun name =>
        reference f name (f.text name) kind { receiver := (n.child? .module).map f.text }).toList
    | .heritage kind, .genericType => visitAll f (genericUse kind) k cs
    | _, .importStatement => importStatement f n
    | _, .exportStatement =>
      match n.child? .source with
      | some source => reexport f n source
      | none => visitAll f (allNamed .plain) k cs
    | _, .callExpression =>
      let isImport := ((n.child? .function).map Node.kind) == some .importKeyword
      match isImport, (n.child? .arguments).bind importedString? with
      | true, some specifier =>
        let text := unquote (f.text specifier)
        [reference f n text .import
          { importSource := some text, importStyle := some .dynamic, dynamic := true }]
      | _, _ => visitAll f (callUse isImport (n.hasChild .optionalChain)) k cs
    | _, .newExpression => visitAll f newUse k cs
    | _, .memberExpression =>
      ((n.child? .property).map fun property =>
        reference f property (f.text property) .propertyAccess
          { receiver := (n.child? .object).map f.text
            optionalChain := n.hasChild .optionalChain }).toList
        ++ visitAll f (onlyRole .object .plain) k cs
    | _, .typeIdentifier =>
      if r == some .name && declaresTypeName parent then []
      else [reference f n (f.text n) .typeReference {}]
    | _, .classHeritage => visitAll f heritageUse k cs
    | _, .extendsClause =>
      visitAll f (onlyRole .value (.heritage .extends)) k cs
        ++ visitAll f (onlyRole .typeArguments .plain) k cs
    | _, .implementsClause => visitAll f (allNamed (.heritage .implements)) k cs
    | _, .extendsTypeClause => visitAll f (allNamed (.heritage .extends)) k cs
    | _, .comment => []
    | _, _ => visitAll f (allNamed .plain) k cs

/-- Visits the nodes of a list that have a use. -/
def visitAll (f : File) (use : Node → Option Use) (parent : Kind) : List Node → List Reference
  | [] => []
  | c :: cs =>
    (match use c with
      | some u => visit f u parent c
      | none => []) ++ visitAll f use parent cs

/-- Visits arguments; a bare name among them is a use of a variable. -/
def visitArguments (f : File) (parent : Kind) : List Node → List Reference
  | [] => []
  | c :: cs =>
    (if c.kind == .token then []
      else if c.kind == .identifier then [reference f c (f.text c) .variableReference {}]
      else visit f .plain parent c) ++ visitArguments f parent cs

/-- Visits the first named node. -/
def visitFirst (f : File) (parent : Kind) : List Node → List Reference
  | [] => []
  | c :: cs => if c.kind == .token then visitFirst f parent cs else visit f .plain parent c

end

/-- The references of a parsed file. -/
def extract (path : String) (p : Parsed) : List Reference :=
  visit ⟨path, p⟩ .plain .program p.root

end CodeIndex.Extract.References
