/-!
Concrete trees of source files. A node has a kind, the role it plays in its parent, the range of
positions it covers and its children in order. Punctuation and keywords are nodes of the kind
`token`; all other nodes are called named.
-/
namespace CodeIndex.Source

inductive Kind where
  | token
  | comment
  | program
  | hashBangLine
  -- modules
  | exportStatement
  | namespaceExport
  | exportClause
  | exportSpecifier
  | importStatement
  | importClause
  | namespaceImport
  | namedImports
  | importSpecifier
  | importAttribute
  | importRequireClause
  | importAlias
  -- statements
  | expressionStatement
  | variableDeclaration
  | lexicalDeclaration
  | variableDeclarator
  | statementBlock
  | ifStatement
  | elseClause
  | switchStatement
  | switchBody
  | switchCase
  | switchDefault
  | forStatement
  | forInStatement
  | whileStatement
  | doStatement
  | tryStatement
  | catchClause
  | finallyClause
  | withStatement
  | breakStatement
  | continueStatement
  | debuggerStatement
  | returnStatement
  | throwStatement
  | emptyStatement
  | labeledStatement
  | statementIdentifier
  -- functions and classes
  | functionDeclaration
  | generatorFunctionDeclaration
  | functionSignature
  | functionExpression
  | generatorFunction
  | arrowFunction
  | formalParameters
  | requiredParameter
  | optionalParameter
  | assignmentPattern
  | classDeclaration
  | abstractClassDeclaration
  | classExpression
  | classHeritage
  | extendsClause
  | implementsClause
  | classBody
  | classStaticBlock
  | methodDefinition
  | methodSignature
  | abstractMethodSignature
  | fieldDefinition
  | accessibilityModifier
  | overrideModifier
  | decorator
  -- patterns and names
  | objectPattern
  | arrayPattern
  | pairPattern
  | objectAssignmentPattern
  | restPattern
  | identifier
  | propertyIdentifier
  | privatePropertyIdentifier
  | shorthandPropertyIdentifier
  | shorthandPropertyIdentifierPattern
  | computedPropertyName
  | nestedIdentifier
  -- expressions
  | parenthesizedExpression
  | sequenceExpression
  | assignmentExpression
  | augmentedAssignmentExpression
  | ternaryExpression
  | binaryExpression
  | unaryExpression
  | updateExpression
  | awaitExpression
  | yieldExpression
  | callExpression
  | newExpression
  | memberExpression
  | subscriptExpression
  | nonNullExpression
  | asExpression
  | satisfiesExpression
  | instantiationExpression
  | typeAssertion
  | metaProperty
  | arguments
  | spreadElement
  | optionalChain
  | importKeyword
  | object
  | pair
  | array
  | templateString
  | templateSubstitution
  | stringFragment
  | string
  | regex
  | number
  | this
  | super
  | trueLiteral
  | falseLiteral
  | nullLiteral
  | undefinedLiteral
  -- declarations of types and modules
  | typeAliasDeclaration
  | interfaceDeclaration
  | interfaceBody
  | extendsTypeClause
  | enumDeclaration
  | enumBody
  | enumAssignment
  | module
  | internalModule
  | ambientDeclaration
  -- types
  | typeAscription
  | typePredicateAscription
  | typePredicate
  | assertsAscription
  | asserts
  | typeIdentifier
  | nestedTypeIdentifier
  | genericType
  | typeArguments
  | typeParameters
  | typeParameter
  | constraint
  | defaultType
  | predefinedType
  | literalType
  | templateLiteralType
  | templateType
  | objectType
  | propertySignature
  | callSignature
  | constructSignature
  | indexSignature
  | mappedTypeClause
  | arrayType
  | lookupType
  | tupleType
  | optionalType
  | restType
  | unionType
  | intersectionType
  | conditionalType
  | functionType
  | constructorType
  | parenthesizedType
  | readonlyType
  | inferType
  | indexTypeQuery
  | typeQuery
  | thisType
  | existentialType
  | flowMaybeType
  -- markup
  | markupElement
  | markupSelfClosingElement
  | markupOpeningElement
  | markupClosingElement
  | markupAttribute
  | markupExpression
  | markupText
  | markupNamespaceName
  deriving DecidableEq, Repr

namespace Kind

/-- Expressions whose value is a function. -/
def isFunctionValue : Kind → Bool
  | arrowFunction | functionExpression | generatorFunction => true
  | _ => false

end Kind

/-- The roles of children that other parts of the library ask for. -/
inductive Role where
  | name
  | body
  | value
  | kind
  | source
  | declaration
  | function
  | arguments
  | object
  | property
  | optionalChain
  | constructor
  | typeArguments
  | typeParameters
  | parameters
  | parameter
  | returnType
  | localName
  | module
  deriving DecidableEq, Repr

inductive Node where
  | mk (kind : Kind) (role : Option Role) (start stop : Nat) (children : List Node)

namespace Node

def kind : Node → Kind
  | mk k _ _ _ _ => k

def role : Node → Option Role
  | mk _ r _ _ _ => r

def start : Node → Nat
  | mk _ _ s _ _ => s

def stop : Node → Nat
  | mk _ _ _ e _ => e

def children : Node → List Node
  | mk _ _ _ _ cs => cs

def withRole (r : Role) : Node → Node
  | mk k _ s e cs => mk k (some r) s e cs

def leaf (k : Kind) (start stop : Nat) : Node := mk k none start stop []

def isNamed (n : Node) : Bool := n.kind != .token

def named (n : Node) : List Node := n.children.filter isNamed

/-- The first child with the given role. -/
def child? (n : Node) (r : Role) : Option Node := n.children.find? fun c => c.role == some r

def hasChild (n : Node) (r : Role) : Bool := (n.child? r).isSome

mutual

/-- The nodes of a tree in document order, each before its children. -/
def preorder : Node → List Node
  | mk k r s e cs => mk k r s e cs :: preorderAll cs

def preorderAll : List Node → List Node
  | [] => []
  | c :: cs => preorder c ++ preorderAll cs

end

mutual

/-- Children follow each other without overlap and lie inside their parent's range. Only
punctuation that plays no role may be empty. -/
def nests : Node → Bool
  | mk k r s e cs =>
    (if k == .token && r.isNone then s ≤ e else s < e) && nestsFrom s e cs

def nestsFrom (low high : Nat) : List Node → Bool
  | [] => low ≤ high
  | c :: cs => low ≤ c.start && nests c && nestsFrom c.stop high cs

end

/-- The children of a node nest in its range. -/
def nestsInside (n : Node) : Bool := nestsFrom n.start n.stop n.children

end Node

end CodeIndex.Source
