import CodeIndex.Extract.Documentation
import CodeIndex.Symbol

/-!
The symbols that a file declares, in document order. Declarations inside functions are not symbols.
What an `export` clause or a default export names is marked as exported afterwards.
-/
namespace CodeIndex.Extract.Symbols

open Source Documentation

/-- The kind of body that a declaration stands in. -/
inductive Container where
  | module
  | classBody
  | interface
  | enum
  deriving DecidableEq, Repr

structure Context where
  container : Container := .module
  exported : Bool := false
  /-- The export statement that the declaration is the content of, directly or through an ambient
  declaration. -/
  exportScope : Option Anchor := none
  /-- The export statement that is the parent of the node at hand. -/
  exportParent : Option Anchor := none

/-- A declared symbol, or a name that the file exports by itself. -/
inductive Found where
  | symbol (s : Symbol)
  | localExport (name : String)

/-- What all declarations of a file share. -/
structure File where
  path : String
  parsed : Parsed
  comments : List Node

def isQuote (c : Char) : Bool := c == '"' || c == '\'' || c == '`'

/-- The value of a string literal without its quotes. -/
def unquote (s : String) : String :=
  match s.toList with
  | c :: rest =>
    if isQuote c && (rest.getLast?.map isQuote).getD false then String.ofList rest.dropLast else s
  | [] => s

/-- The text of a name; a quoted one stands for its content. -/
def nameText (p : Parsed) (n : Node) : String :=
  if n.kind == .string then unquote (p.text n) else p.text n

/-- The longest beginning of a text with at most the given number of bytes. -/
def takeBytes : Nat → List Char → List Char
  | _, [] => []
  | room, c :: cs => if c.utf8Size ≤ room then c :: takeBytes (room - c.utf8Size) cs else []

def maxSignature : Nat := 200

def shorten (s : String) : String :=
  if s.utf8ByteSize > maxSignature then
    String.ofList (takeBytes maxSignature s.toList) ++ "..."
  else s

/-- Type parameters, parameters and return type of a function value. -/
def signatureOf (p : Parsed) (callable : Node) : Option String :=
  match (callable.child? .parameters).or (callable.child? .parameter) with
  | none => none
  | some params =>
    let types := ((callable.child? .typeParameters).map p.text).getD ""
    let list := if params.kind == .identifier then "(" ++ p.text params ++ ")" else p.text params
    let result := ((callable.child? .returnType).map p.text).getD ""
    some (shorten (Text.Blank.squeeze (types ++ list ++ result)))

def signature? (p : Parsed) (n : Node) (kind : SymbolKind) : Option String :=
  if kind == .function || kind == .method then
    match n.kind with
    | .variableDeclarator | .fieldDefinition => (n.child? .value).bind (signatureOf p)
    | _ => signatureOf p n
  else none

/-- The name of a declaration. A nameless default export is called `default`. -/
def name? (p : Parsed) (ctx : Context) (n : Node) : Option String :=
  if n.kind == .propertyIdentifier then some (p.text n)
  else
    let named := [Role.name, Role.property].filterMap fun r => (n.child? r).map (nameText p)
    match named.find? fun s => !s.isEmpty with
    | some s => some s
    | none => if ctx.exportParent.isSome then some "default" else none

/-- The symbol of a declaration; documentation belongs to the outermost statement around it. -/
def declare (f : File) (ctx : Context) (n : Node) (anchor : Anchor) (kind : SymbolKind) :
    Option Symbol :=
  (name? f.parsed ctx n).map fun name =>
    { filePath := f.path
      name
      kind
      lineStart := f.parsed.startLine n
      lineEnd := f.parsed.endLine n
      signature := signature? f.parsed n kind
      documentation := Documentation.of? f.parsed f.comments anchor
      isExported := ctx.exported }

/-- The statement that the documentation of a declaration stands above. -/
def Context.docAnchor (ctx : Context) (own : Anchor) : Anchor := ctx.exportScope.getD own

/-- The symbols of one `var`, `let` or `const` statement. Destructuring patterns name none. -/
def variableSymbols (f : File) (ctx : Context) (own : Anchor) (n : Node) : List Found :=
  let isConst := ((n.child? .kind).map f.parsed.text).getD "" == "const"
  n.named.filterMap fun d =>
    if d.kind == .variableDeclarator && ((d.child? .name).map Node.kind) == some .identifier then
      let kind : SymbolKind :=
        if ((d.child? .value).map fun v => v.kind.isFunctionValue).getD false then .function
        else if isConst then .constant
        else .variable
      (declare f { ctx with exportParent := none } d (ctx.exportParent.getD own) kind).map
        Found.symbol
    else none

/-- The names of an `export` clause. -/
def clauseNames (p : Parsed) (n : Node) : List Found :=
  ((n.named.filter fun c => c.kind == .exportClause).flatMap Node.named).filterMap fun spec =>
    (spec.child? .name).map fun name => Found.localExport (p.text name)

/-- The symbol kind that a node declares within a container. -/
def declaredKind (container : Container) (n : Node) : Option SymbolKind :=
  match container, n.kind with
  | .module, .functionDeclaration => some .function
  | .module, .generatorFunctionDeclaration => some .function
  | .module, .functionSignature => some .function
  | .module, .classDeclaration => some .classType
  | .module, .abstractClassDeclaration => some .classType
  | .module, .interfaceDeclaration => some .interface
  | .module, .typeAliasDeclaration => some .type
  | .module, .enumDeclaration => some .enum
  | .module, .internalModule => some .namespace
  | .module, .module => some .module
  | .classBody, .methodDefinition => some .method
  | .classBody, .abstractMethodSignature => some .method
  | .classBody, .methodSignature => some .method
  | .interface, .methodSignature => some .method
  | .interface, .propertySignature => some .property
  | .classBody, .fieldDefinition =>
    if ((n.child? .value).map fun v => v.kind.isFunctionValue).getD false then some .method
    else some .property
  | .enum, .enumAssignment => some .enumMember
  | .enum, .propertyIdentifier => some .enumMember
  | _, _ => none

/-- The container that the body of a symbol of the given kind is. -/
def bodyContainer : SymbolKind → Option Container
  | .classType => some .classBody
  | .interface => some .interface
  | .enum => some .enum
  | .namespace | .module => some .module
  | _ => none

mutual

def visit (f : File) (ctx : Context) (own : Anchor) : Node → List Found
  | .mk k r s e cs =>
    let n := Node.mk k r s e cs
    match k, ctx.container with
    | .exportStatement, _ =>
      let inner := { ctx with exported := true, exportScope := some own, exportParent := some own }
      if n.hasChild .source then []
      else if n.hasChild .declaration then visitDeclared f inner none cs
      else if n.hasChild .value then visitValues f inner own cs
      else clauseNames f.parsed n
    | .ambientDeclaration, _ => visitAll f { ctx with exportParent := none } none cs
    | .statementBlock, .module => visitAll f { ctx with exportParent := none } none cs
    | .lexicalDeclaration, .module => variableSymbols f ctx own n
    | .variableDeclaration, .module => variableSymbols f ctx own n
    | .expressionStatement, .module => visitNamespaces f { ctx with exportParent := none } none cs
    | _, _ =>
      match declaredKind ctx.container n with
      | none => []
      | some kind =>
        match declare f ctx n (ctx.docAnchor own) kind with
        | none => []
        | some symbol =>
          .symbol symbol ::
            match bodyContainer kind with
            | some container =>
              visitBody f
                { ctx with container, exportScope := none, exportParent := none } cs
            | none => []

/-- Visits the named nodes of a list, each with its own anchor. -/
def visitAll (f : File) (ctx : Context) (before : Option Nat) : List Node → List Found
  | [] => []
  | c :: cs =>
    if c.kind == .token then visitAll f ctx before cs
    else if c.kind == .comment then visitAll f ctx before cs
    else visit f ctx ⟨c.start, before⟩ c ++ visitAll f ctx (some c.stop) cs

/-- Visits the children of a node. -/
def visitInside (f : File) (ctx : Context) : Node → List Found
  | .mk _ _ _ _ cs => visitAll f ctx none cs

/-- Visits what the body among some children holds. -/
def visitBody (f : File) (ctx : Context) : List Node → List Found
  | [] => []
  | c :: cs => if c.role == some .body then visitInside f ctx c else visitBody f ctx cs

/-- Visits the declaration among the children of an export statement. -/
def visitDeclared (f : File) (ctx : Context) (before : Option Nat) : List Node → List Found
  | [] => []
  | c :: cs =>
    if c.role == some .declaration then visit f ctx ⟨c.start, before⟩ c
    else visitDeclared f ctx (if c.isNamed && c.kind != .comment then some c.stop else before) cs

/-- Visits the value of a default export. -/
def visitValues (f : File) (ctx : Context) (own : Anchor) : List Node → List Found
  | [] => []
  | c :: cs =>
    if c.role == some .value then visitValue f ctx own c else visitValues f ctx own cs

def visitValue (f : File) (ctx : Context) (own : Anchor) : Node → List Found
  | .mk k r s e cs =>
    let n := Node.mk k r s e cs
    if k.isFunctionValue then ((declare f ctx n own .function).map Found.symbol).toList
    else if k == .classExpression then
      match declare f ctx n own .classType with
      | none => []
      | some symbol =>
        .symbol symbol ::
          visitBody f
            { ctx with container := .classBody, exportScope := none, exportParent := none } cs
    else if k == .identifier then [.localExport (f.parsed.text n)]
    else []

/-- Visits the namespaces among the children of an expression statement. -/
def visitNamespaces (f : File) (ctx : Context) (before : Option Nat) : List Node → List Found
  | [] => []
  | c :: cs =>
    (if c.kind == .internalModule then visit f ctx ⟨c.start, before⟩ c else [])
      ++ visitNamespaces f ctx (if c.isNamed && c.kind != .comment then some c.stop else before) cs

end

/-- The first symbol of every name and start line. -/
def distinct (seen : List (String × Nat)) : List Symbol → List Symbol
  | [] => []
  | s :: rest =>
    if seen.contains (s.name, s.lineStart) then distinct seen rest
    else s :: distinct ((s.name, s.lineStart) :: seen) rest

def symbolsOf (found : List Found) : List Symbol :=
  found.filterMap fun
    | .symbol s => some s
    | .localExport _ => none

def exportsOf (found : List Found) : List String :=
  found.filterMap fun
    | .symbol _ => none
    | .localExport name => some name

/-- Marks the symbols that the file exports by name. Members are not exported by name. -/
def markExported (names : List String) (s : Symbol) : Symbol :=
  if !s.kind.isMember && names.contains s.name then { s with isExported := true } else s

/-- The symbols of a parsed file. -/
def extract (path : String) (p : Parsed) : List Symbol :=
  let f : File := ⟨path, p, p.comments⟩
  let found := visitInside f {} p.root
  (distinct [] (symbolsOf found)).map (markExported (exportsOf found))

end CodeIndex.Extract.Symbols
