import CodeIndex.Source.Grammar.Type

/-!
Statements, declarations and module syntax.
-/
namespace CodeIndex.Source.Grammar.Statement

open Form Pattern

/-- Words that start a statement of their own, so that no expression statement starts with them. -/
def reserved : List String :=
  ["if", "for", "while", "do", "switch", "try", "with", "break", "continue", "return", "throw",
    "debugger", "var", "const", "case", "default"]

def typedReserved : List String := ["interface", "enum", "abstract"]

def never : Node → Bool := fun _ => false

def block : Shape :=
  node .statementBlock
    (seq [tok "\x7b", fresh (many (rule .statement)), tok "\x7d", opt (lineEnd false)])

/-! Variables. -/

def declarator : Shape :=
  choice
    [typed (node .variableDeclarator
        (seq [role .name (name .identifier), tok "!", rule .typeAscription])),
      node .variableDeclarator
        (seq [role .name binding, typedOpt (rule .typeAscription), opt initializer])]

def declarators : Shape := separated (tok ",") declarator

def variableDeclaration : Shape :=
  node .variableDeclaration (terminated hasValue (seq [word "var", declarators]))

def lexicalDeclaration : Shape :=
  node .lexicalDeclaration
    (terminated hasValue (seq [role .kind (anyWord ["let", "const"]), declarators]))

/-! Declarations of types and modules. -/

def typeParameters : Shape := opt (role .typeParameters (rule .typeParameters))

def typeAlias : Shape :=
  node .typeAliasDeclaration
    (terminated never
      (seq [word "type", role .name (name .typeIdentifier), typeParameters, tok "=",
        role .value (rule .type)]))

def interface : Shape :=
  node .interfaceDeclaration
    (seq [word "interface", role .name (name .typeIdentifier), typeParameters,
      opt (node .extendsTypeClause
        (seq [word "extends", separated (tok ",") Type.namedType])),
      role .body (Type.objectTypeWith .interfaceBody)])

def enumMember : Shape :=
  choice
    [node .enumAssignment (seq [role .name (rule .propertyName), initializer]),
      role .name (rule .propertyName)]

def enumeration : Shape :=
  node .enumDeclaration
    (seq [opt (word "const"), word "enum", role .name (name .identifier),
      role .body
        (node .enumBody (seq [tok "\x7b", bracketed (commaList enumMember), tok "\x7d"]))])

def moduleRest : Shape :=
  seq [role .name (choice [string, Type.dottedName]), opt (role .body (rule .block))]

def module : Shape := node .module (seq [word "module", sameLine, moduleRest])

def internalModule : Shape := node .internalModule (seq [word "namespace", sameLine, moduleRest])

def importAlias : Shape :=
  node .importAlias
    (terminated never (seq [word "import", name .identifier, tok "=", Type.dottedName]))

def ambient : Shape :=
  node .ambientDeclaration
    (seq [word "declare", sameLine,
      choice
        [rule .declaration,
          seq [word "global", rule .block],
          terminated never
            (seq [word "module", tok ".", name .propertyIdentifier, tok ":", rule .type])]])

def declaration : Shape :=
  choice
    [Function.functionDeclaration, Function.classDeclaration,
      typed (choice [enumeration, typeAlias, interface, module, internalModule, ambient,
        importAlias]),
      lexicalDeclaration, variableDeclaration]

/-! Module syntax. -/

def exportName (r : Role) : Shape := role r (choice [name .identifier, string])

def fromClause : Shape := seq [word "from", role .source string]

def exportSpecifierBody : Shape :=
  seq [exportName .name, opt (seq [word "as", exportName .localName])]

def specifierEnd : Shape := ahead (anyTok [",", "\x7d"])

def exportSpecifier : Shape :=
  node .exportSpecifier
    (choice
      [typed (seq [anyWord ["type", "typeof"], exportSpecifierBody, specifierEnd]),
        exportSpecifierBody])

def exportClause : Shape :=
  node .exportClause (seq [tok "\x7b", bracketed (commaList exportSpecifier), tok "\x7d"])

def namespaceExport : Shape :=
  node .namespaceExport (seq [tok "*", word "as", choice [name .identifier, string]])

def exportStatement : Shape :=
  node .exportStatement
    (choice
      [terminated never
          (seq [word "export",
            choice
              [seq [namespaceExport, fromClause], seq [tok "*", fromClause],
                seq [exportClause, fromClause], exportClause]]),
        typed (terminated never
          (seq [word "export", word "type", exportClause, opt fromClause])),
        typed (terminated always (seq [word "export", tok "=", rule .expression])),
        typed (terminated never
          (seq [word "export", word "as", word "namespace", name .identifier])),
        seq [many (rule .decorator), word "export",
          choice
            [role .declaration (rule .declaration),
              seq [word "default", role .declaration (rule .declaration)],
              terminated always (seq [word "default", role .value (rule .expression)])]]])

def importSpecifierBody : Shape :=
  choice
    [seq [exportName .name, word "as", role .localName (name .identifier)],
      role .name (name .identifier)]

def importSpecifier : Shape :=
  node .importSpecifier
    (choice
      [typed (seq [anyWord ["type", "typeof"], importSpecifierBody, specifierEnd]),
        importSpecifierBody])

def namedImports : Shape :=
  node .namedImports (seq [tok "\x7b", bracketed (commaList importSpecifier), tok "\x7d"])

def namespaceImport : Shape :=
  node .namespaceImport (seq [tok "*", word "as", name .identifier])

def importClause : Shape :=
  node .importClause
    (choice
      [namespaceImport, namedImports,
        seq [name .identifier, opt (seq [tok ",", choice [namespaceImport, namedImports]])]])

def requireClause : Shape :=
  node .importRequireClause
    (seq [name .identifier, tok "=", word "require", tok "(", role .source string, tok ")"])

def importAttribute : Shape := node .importAttribute (seq [word "with", rule .object])

def importBody : Shape :=
  seq [choice [seq [importClause, fromClause], typed requireClause, role .source string],
    opt importAttribute]

def importStatement : Shape :=
  node .importStatement
    (choice
      [typed (terminated never (seq [word "import", anyWord ["type", "typeof"], importBody])),
        terminated never (seq [word "import", importBody])])

/-! Control flow. -/

def condition : Shape := Expression.parenthesized

def ifStatement : Shape :=
  node .ifStatement
    (seq [word "if", condition, rule .statement,
      opt (node .elseClause (seq [word "else", rule .statement]))])

def switchStatement : Shape :=
  node .switchStatement
    (seq [word "switch", condition,
      role .body (node .switchBody
        (seq [tok "\x7b",
          fresh (many (choice
            [node .switchCase
                (seq [word "case", rule .sequence, tok ":", many (rule .statement)]),
              node .switchDefault (seq [word "default", tok ":", many (rule .statement)])])),
          tok "\x7d"]))])

def emptyStatement : Shape := node .emptyStatement (tok ";")

def loopBinding : Shape :=
  choice
    [seq [role .kind (word "var"), binding,
        opt (inMode (fun m => { m with noIn := true }) initializer)],
      seq [role .kind (anyWord ["let", "const"]), binding],
      keeping Expression.isTarget (rule .access),
      rule .destructuring]

def forInStatement : Shape :=
  node .forInStatement
    (seq [word "for", opt (word "await"), tok "(",
      bracketed (seq [loopBinding, anyWord ["in", "of"], rule .sequence]), tok ")",
      role .body (rule .statement)])

def forStatement : Shape :=
  node .forStatement
    (seq [word "for", tok "(",
      bracketed (seq
        [choice [lexicalDeclaration, variableDeclaration, emptyStatement,
            seq [rule .sequence, tok ";"]],
          choice [emptyStatement, seq [rule .sequence, tok ";"]],
          opt (rule .sequence)]),
      tok ")", role .body (rule .statement)])

def whileStatement : Shape :=
  node .whileStatement (seq [word "while", condition, role .body (rule .statement)])

def doStatement : Shape :=
  node .doStatement
    (seq [word "do", role .body (rule .statement), word "while", condition,
      opt (choice [lineEnd false, tok ";"])])

def catchClause : Shape :=
  node .catchClause
    (seq [word "catch",
      opt (seq [tok "(", bracketed (seq [binding, typedOpt (rule .typeAscription)]), tok ")"]),
      role .body (rule .block)])

def tryStatement : Shape :=
  node .tryStatement
    (seq [word "try", role .body (rule .block), opt catchClause,
      opt (node .finallyClause (seq [word "finally", role .body (rule .block)]))])

/-- A statement that a word starts and that may have something after it on the same line. -/
def wordStatement (kind : Kind) (w : String) (after : Node → Bool) (f : Shape) : Shape :=
  node kind
    (choice
      [seq [word w, lineEnd false], terminated after (seq [word w, f]),
        seq [word w, tok ";"]])

def labelName : Shape :=
  nameExcept .statementIdentifier ("case" :: "default" :: Expression.reserved)

def labeledStatement : Shape :=
  node .labeledStatement (seq [labelName, tok ":", rule .statement])

def expressionStatement : Shape :=
  node .expressionStatement
    (seq [notAhead (anyWord reserved), notAhead (typed (anyWord typedReserved)),
      terminated always (rule .sequence)])

/-- A namespace that nothing else precedes reads as an expression. -/
def namespaceStatement : Shape :=
  typed (node .expressionStatement (terminated always internalModule))

def statement : Shape :=
  choice
    [exportStatement, importStatement, namespaceStatement, rule .declaration, rule .block,
      ifStatement, switchStatement, forInStatement, forStatement, whileStatement, doStatement,
      tryStatement,
      node .withStatement (seq [word "with", condition, role .body (rule .statement)]),
      wordStatement .breakStatement "break" never (name .statementIdentifier),
      wordStatement .continueStatement "continue" never (name .statementIdentifier),
      node .debuggerStatement (terminated never (word "debugger")),
      wordStatement .returnStatement "return" always (rule .sequence),
      node .throwStatement (terminated always (seq [word "throw", rule .sequence])),
      emptyStatement, labeledStatement, expressionStatement]

end CodeIndex.Source.Grammar.Statement
