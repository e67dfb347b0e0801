import CodeIndex.Source.Grammar.Rule

/-!
Expressions, from assignments down to literals and names.
-/
namespace CodeIndex.Source.Grammar.Expression

open Form

/-- Words that start an expression of their own and so are no names there. -/
def reserved : List String :=
  ["function", "class", "new", "this", "super", "true", "false", "null", "undefined", "typeof",
    "void", "delete", "await", "yield", "import"]

def identifier : Shape := nameExcept .identifier reserved

/-- What may stand on the left of an assignment. -/
def isTarget (n : Node) : Bool :=
  match n.kind with
  | .memberExpression | .subscriptExpression | .identifier | .undefinedLiteral
  | .parenthesizedExpression | .nonNullExpression => true
  | _ => false

def augmentedAssignments : List String :=
  ["+=", "-=", "*=", "/=", "%=", "^=", "&=", "|=", ">>=", ">>>=", "<<=", "**=", "&&=", "||=",
    "??="]

def yielding : Shape :=
  node .yieldExpression
    (seq [word "yield", choice [seq [tok "*", rule .expression], seq [sameLine, rule .expression],
      empty]])

/-- A resource declaration reads as an assignment. -/
def resource : Shape :=
  node .assignmentExpression
    (seq [word "using", sameLine, name .identifier, tok "=", rule .expression])

def assignment : Shape :=
  grow (rule .conditional)
    [(.assignmentExpression, none, isTarget, seq [tok "=", rule .expression]),
      (.augmentedAssignmentExpression, none, isTarget,
        seq [anyTok augmentedAssignments, rule .expression])]

def expression : Shape :=
  choice
    [yielding, resource,
      seq [assignment, notAhead (tok "=")],
      node .assignmentExpression (seq [rule .destructuring, tok "=", rule .expression])]

def sequence : Shape :=
  grow (rule .expression) [(.sequenceExpression, none, always, seq [tok ",", rule .expression])]

/-- The middle of a conditional expression may hold an arrow function with a return type, unless
the colon is needed. -/
def conditional : Shape :=
  grow (rule .binary)
    [(.ternaryExpression, none, always,
      choice
        [seq [tok "?", rule .expression, tok ":", rule .expression],
          seq [tok "?", inMode (fun m => { m with noReturnType := true }) (rule .expression),
            tok ":", rule .expression]])]

def binaryOperators : List String :=
  ["&&", "||", "??", "|", "^", "&", "==", "!=", "===", "!==", "<", "<=", ">", ">=", "<<", ">>",
    ">>>", "+", "-", "*", "/", "%", "**"]

def binary : Shape :=
  operators (rule .operand)
    (choice
      [seq [anyTok binaryOperators, rule .operand],
        seq [word "instanceof", rule .operand],
        given (fun m => !m.noIn) (seq [word "in", rule .operand]),
        typed (seq [unbroken, anyWord ["as"], choice [word "const", rule .type]]),
        typed (seq [unbroken, anyWord ["satisfies"], rule .type])])

def operand : Shape :=
  choice
    [node .unaryExpression
        (seq [choice [anyTok ["!", "~", "-", "+"], anyWord ["typeof", "void", "delete"]],
          rule .operand]),
      node .updateExpression (seq [anyTok ["++", "--"], rule .operand]),
      node .awaitExpression (seq [word "await", rule .operand]),
      given (fun m => m.dialect == .typescript)
        (seq [ahead (tok "<"),
          choice [rule .arrow,
            node .typeAssertion (seq [rule .typeArguments, rule .operand])]]),
      seq [privateName, ahead (word "in")],
      grow (rule .access) [(.updateExpression, none, always, seq [sameLine, anyTok ["++", "--"]])]]

def optionalChain : Shape :=
  role .optionalChain
    (lexeme .optionalChain (next fun t i =>
      if Lexeme.punctuationAt? t i == some "?." then some (i + 2) else none))

def memberStep : Kind × Option Role × (Node → Bool) × Shape :=
  (.memberExpression, some .object, always,
    seq [choice [tok ".", optionalChain],
      role .property (choice [privateName, name .propertyIdentifier])])

def subscriptStep : Kind × Option Role × (Node → Bool) × Shape :=
  (.subscriptExpression, some .object, always,
    seq [opt optionalChain, tok "[", bracketed (rule .sequence), tok "]"])

def nonNullStep : Kind × Option Role × (Node → Bool) × Shape :=
  (.nonNullExpression, none, always, typed (seq [unbroken, tok "!"]))

def callArguments : Shape := role .arguments (rule .arguments)

def typeArguments : Shape := role .typeArguments (rule .typeArguments)

/-- What may follow type arguments that no call follows. -/
def afterInstantiation : Shape :=
  choice
    [anyTok [";", ",", ")", "]", "\x7d", ":", ".", "?.", "?", "=", "==", "!=", "===", "!==", "&&",
        "||", "??"],
      lineEnd true]

def access : Shape :=
  grow (choice [rule .construction, rule .primary])
    [memberStep,
      subscriptStep,
      (.callExpression, some .function, always, callArguments),
      (.callExpression, some .function, always, typed (seq [typeArguments, callArguments])),
      (.callExpression, some .function, always, untyped (seq [optionalChain, callArguments])),
      (.callExpression, some .function, always,
        typed (seq [tok "?.", opt typeArguments, callArguments])),
      (.callExpression, some .function, always, role .arguments (rule .template)),
      nonNullStep,
      (.instantiationExpression, none, always,
        given (fun m => m.dialect.isTyped && !m.noInstantiation)
          (seq [typeArguments, ahead afterInstantiation]))]

def construction : Shape :=
  seq [ahead (word "new"),
    choice
      [node .metaProperty (seq [word "new", tok ".", word "target"]),
        node .newExpression
          (seq [word "new",
            role .constructor
              (choice [rule .construction,
                grow (rule .primary) [memberStep, subscriptStep, nonNullStep]]),
            typedOpt typeArguments,
            opt callArguments])]]

def parenthesized : Shape :=
  node .parenthesizedExpression
    (seq [tok "(",
      bracketed (seq [rule .sequence, typedOpt (rule .typeAscription)]),
      tok ")"])

/-- The body of an arrow function: a block where one can be read, otherwise an expression. -/
def arrowBody : Shape := role .body (choice [rule .block, rule .expression])

def shortArrow : Shape :=
  node .arrowFunction (seq [role .parameter (name .identifier), tok "=>", arrowBody])

def shortAsyncArrow : Shape :=
  node .arrowFunction
    (seq [word "async", sameLine, role .parameter (name .identifier), tok "=>", arrowBody])

def arrow : Shape :=
  node .arrowFunction
    (seq [opt (seq [word "async", sameLine, ahead (anyTok ["(", "<"])]), rule .signature,
      tok "=>", arrowBody])

/-- A bracketed expression, unless what follows shows that it is a list of parameters. -/
def bracketedOrArrow : Shape :=
  seq [ahead (tok "("),
    choice
      [seq [parenthesized, notAhead (tok "=>"),
          notAhead (given (fun m => m.dialect.isTyped && !m.noReturnType) (tok ":"))],
        rule .arrow,
        parenthesized]]

def regex : Shape := lexeme .regex (next Lexeme.regexEnd?)

def primary : Shape :=
  choice
    [shortArrow, shortAsyncArrow, bracketedOrArrow,
      seq [ahead (seq [word "async", sameLine, anyTok ["(", "<"]]), rule .arrow],
      rule .functionExpression, rule .classExpression,
      typed (seq [ahead (tok "<"), rule .arrow]),
      given (fun m => m.dialect.hasMarkup) (rule .markup),
      string, number, rule .template, rule .object, rule .array, regex,
      wordNode .this "this", wordNode .super "super", wordNode .trueLiteral "true",
      wordNode .falseLiteral "false", wordNode .nullLiteral "null",
      wordNode .undefinedLiteral "undefined",
      node .metaProperty (seq [word "import", tok ".", word "meta"]),
      seq [wordNode .importKeyword "import", ahead (anyTok ["(", "."])],
      identifier]

def spread : Shape := node .spreadElement (seq [tok "...", rule .expression])

def arguments : Shape :=
  node .arguments
    (seq [tok "(", bracketed (sparseList (choice [spread, rule .expression])), tok ")"])

def array : Shape :=
  node .array (seq [tok "[", bracketed (sparseList (choice [spread, rule .expression])), tok "]"])

def substitution : Shape :=
  node .templateSubstitution (seq [glued "$\x7b", bracketed (rule .sequence), tok "\x7d"])

def template : Shape :=
  node .templateString
    (seq [raw "`",
      many (choice [substitution, lexeme .stringFragment (here Lexeme.templateTextEnd?)]),
      glued "`"])

def computedName : Shape :=
  node .computedPropertyName (seq [tok "[", bracketed (rule .expression), tok "]"])

def propertyName : Shape :=
  choice [name .propertyIdentifier, privateName, string, number, computedName]

/-- A word before a member's name; alone it is the name itself. -/
def modifier (f : Shape) : Shape :=
  seq [f, notAhead (anyTok ["(", "=", ";", ",", "\x7d", ":", "?", "!", "<"])]

def method : Shape :=
  node .methodDefinition
    (seq [many (choice [modifier (anyWord ["async", "get", "set", "static"]), tok "*"]),
      role .name (rule .propertyName), typedOpt (tok "?"), rule .signature,
      role .body (rule .block)])

def objectMember : Shape :=
  choice
    [spread, method,
      node .pair (seq [rule .propertyName, tok ":", role .value (rule .expression)]),
      name .shorthandPropertyIdentifier]

def object : Shape :=
  node .object (seq [tok "\x7b", bracketed (sparseList objectMember), tok "\x7d"])

end CodeIndex.Source.Grammar.Expression
