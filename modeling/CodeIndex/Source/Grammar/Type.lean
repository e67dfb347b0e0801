import CodeIndex.Source.Grammar.Function

/-!
Types, type parameters and the members of object types.
-/
namespace CodeIndex.Source.Grammar.Type

open Form

def predefined : List String :=
  ["any", "number", "boolean", "string", "symbol", "void", "unknown", "never", "object"]

/-- Words that start a type of their own and so name no type. -/
def reserved : List String :=
  predefined ++
    ["typeof", "keyof", "infer", "readonly", "unique", "new", "this", "true", "false", "null",
      "undefined", "import"]

def typeAscription : Shape := node .typeAscription (seq [tok ":", rule .type])

def typeArguments : Shape :=
  node .typeArguments
    (seq [tok "<", bracketed (seq [separated (tok ",") (rule .type), opt (tok ",")]), raw ">"])

def typeParameter : Shape :=
  node .typeParameter
    (seq [opt (seq [word "const", ahead (name .identifier)]),
      role .name (name .typeIdentifier),
      opt (node .constraint (seq [choice [word "extends", tok ":"], rule .type])),
      opt (node .defaultType (seq [tok "=", rule .type]))])

def typeParameters : Shape :=
  node .typeParameters
    (seq [tok "<", bracketed (seq [separated (tok ",") typeParameter, opt (tok ",")]), raw ">"])

/-- A dotted name. Its last pair is a nested identifier; the pairs before it read as member
expressions. -/
def dottedName : Shape :=
  grow
    (grow (name .identifier)
      [(.memberExpression, some .object, always,
        seq [tok ".", role .property (name .propertyIdentifier), ahead (tok ".")])])
    [(.nestedIdentifier, some .object, fun n => n.kind != .nestedIdentifier,
      seq [tok ".", role .property (name .propertyIdentifier)])]

/-- The part of a dotted type name before the last full stop. -/
def qualifier : Shape :=
  grow
    (grow (name .identifier)
      [(.memberExpression, some .object, always,
        seq [tok ".", role .property (name .propertyIdentifier),
          ahead (seq [tok ".", name .identifier, tok "."])])])
    [(.nestedIdentifier, some .object,
      fun n => n.kind != .nestedIdentifier,
      seq [tok ".", role .property (name .propertyIdentifier), ahead (tok ".")])]

def typeName : Shape :=
  choice
    [node .nestedTypeIdentifier
        (seq [role .module qualifier, tok ".", role .name (name .typeIdentifier)]),
      nameExcept .typeIdentifier reserved]

/-- A type name with or without arguments. -/
def namedType : Shape :=
  choice
    [node .genericType
        (seq [role .name typeName, role .typeArguments (rule .typeArguments)]),
      typeName]

def functionType : Shape :=
  node .functionType
    (seq [opt (role .typeParameters (rule .typeParameters)), role .parameters (rule .parameters),
      tok "=>", role .returnType (Function.result (rule .type))])

def constructorType : Shape :=
  node .constructorType
    (seq [opt (word "abstract"), word "new", opt (role .typeParameters (rule .typeParameters)),
      role .parameters (rule .parameters), tok "=>", rule .type])

/-- A union or an intersection, whose first bar or ampersand may stand in front. -/
def joined (kind : Kind) (sign : String) (part : Shape) : Shape :=
  choice
    [grow (node kind (seq [tok sign, part])) [(kind, none, always, seq [tok sign, part])],
      grow part [(kind, none, always, seq [tok sign, part])]]

def intersection : Shape := joined .intersectionType "&" (rule .typeOperand)

def union : Shape := joined .unionType "|" intersection

def inferred : Shape :=
  node .inferType
    (seq [word "infer", name .typeIdentifier,
      opt (seq [word "extends", rule .type])])

def type : Shape :=
  grow union
    [(.conditionalType, none, always,
      seq [unbroken, word "extends", union, tok "?", rule .type, tok ":", rule .type])]

/-- The names and calls that may follow `typeof` or start with `import` in a type. -/
def query : Shape :=
  grow
    (choice [seq [wordNode .importKeyword "import", ahead (tok "(")], wordNode .this "this",
      name .identifier])
    [(.memberExpression, some .object, fun n => n.kind != .importKeyword,
        seq [choice [tok ".", tok "?."],
          role .property (choice [privateName, name .propertyIdentifier])]),
      (.callExpression, some .function, fun n => n.kind == .importKeyword,
        Expression.callArguments)]

def typeQuery : Shape :=
  node .typeQuery
    (seq [word "typeof",
      choice [node .instantiationExpression (seq [query, Expression.typeArguments]), query]])

def importedType : Shape :=
  seq [ahead (seq [word "import", tok "("]), query]

def literal : Shape :=
  node .literalType
    (choice
      [node .unaryExpression (seq [anyTok ["-", "+"], number]), number, string,
        wordNode .trueLiteral "true", wordNode .falseLiteral "false",
        wordNode .nullLiteral "null", wordNode .undefinedLiteral "undefined"])

def templateLiteral : Shape :=
  node .templateLiteralType
    (seq [raw "`",
      many (choice
        [node .templateType (seq [glued "$\x7b", bracketed (rule .type), tok "\x7d"]),
          lexeme .stringFragment (here Lexeme.templateTextEnd?)]),
      glued "`"])

def tupleMember : Shape :=
  choice
    [node .requiredParameter
        (seq [role .name (choice [node .restPattern (seq [tok "...", name .identifier]),
          name .identifier]), rule .typeAscription]),
      node .optionalParameter (seq [role .name (name .identifier), raw "?", rule .typeAscription]),
      node .restType (seq [tok "...", rule .type]),
      node .optionalType (seq [rule .type, raw "?"]),
      rule .type]

def tuple : Shape :=
  node .tupleType (seq [tok "[", bracketed (commaList tupleMember), tok "]"])

def predefinedType : Shape :=
  choice
    [node .predefinedType (seq [word "unique", word "symbol"]),
      lexeme .predefinedType (next fun t i => predefined.findSome? fun w => wordEnd? w t i)]

def atom : Shape :=
  choice
    [node .parenthesizedType (seq [tok "(", bracketed (rule .type), tok ")"]),
      predefinedType, typeQuery, importedType,
      node .indexTypeQuery (seq [word "keyof", rule .typeOperand]),
      node .flowMaybeType (seq [raw "?", rule .typeOperand]),
      wordNode .thisType "this",
      lexeme .existentialType (next (literally "*")),
      literal, templateLiteral, rule .objectType, tuple, namedType, word "const"]

def typeOperand : Shape :=
  choice
    [functionType, constructorType,
      node .readonlyType (seq [word "readonly", rule .typeOperand]), inferred,
      grow atom
        [(.arrayType, none, always, seq [unbroken, tok "[", tok "]"]),
          (.lookupType, none, always,
            seq [unbroken, tok "[", bracketed (rule .type), tok "]"])]]

def propertySignature : Shape :=
  node .propertySignature
    (seq [many (Function.typedModifier ["static", "readonly"]), role .name (rule .propertyName),
      opt (tok "?"), opt (rule .typeAscription)])

def constructSignature : Shape :=
  node .constructSignature
    (seq [opt (word "abstract"), word "new", opt (role .typeParameters (rule .typeParameters)),
      role .parameters (rule .parameters), opt (rule .typeAscription)])

def objectTypeMember : Shape :=
  choice
    [constructSignature, Function.indexSignature, Function.methodSignature,
      node .callSignature (rule .signature), propertySignature]

/-- The mark after a member of an object type. -/
def memberEnd : Shape := choice [tok ",", tok ";", lineEnd false]

def objectTypeWith (kind : Kind) : Shape :=
  node kind
    (seq [choice [raw "\x7b|", tok "\x7b"], opt (anyTok [",", ";"]),
      fresh (opt (seq [objectTypeMember, many (seq [memberEnd, objectTypeMember]),
        opt memberEnd])),
      choice [raw "|\x7d", tok "\x7d"]])

def objectType : Shape := objectTypeWith .objectType

end CodeIndex.Source.Grammar.Type
