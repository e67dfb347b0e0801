import CodeIndex.Source.Grammar.Pattern

/-!
Parameters, functions, classes and their members.
-/
namespace CodeIndex.Source.Grammar.Function

open Form Pattern

def accessibility : Shape :=
  lexeme .accessibilityModifier (next fun t i =>
    (["public", "private", "protected"].findSome? fun w => wordEnd? w t i))

/-- A word before a parameter's pattern; alone it is the parameter itself. -/
def parameterModifier (f : Shape) : Shape :=
  seq [f, notAhead (anyTok [",", ")", ":", "=", "?"])]

def parameterName : Shape :=
  seq [many (rule .decorator),
    many (choice
      [parameterModifier accessibility,
        parameterModifier (wordNode .overrideModifier "override"),
        parameterModifier (word "readonly")]),
    choice [rest, seq [wordNode .this "this", notAhead (anyTok [".", "["])], rule .pattern]]

def typedParameter : Shape :=
  choice
    [node .optionalParameter
        (seq [parameterName, tok "?", opt (rule .typeAscription), opt initializer]),
      node .requiredParameter (seq [parameterName, opt (rule .typeAscription), opt initializer])]

def parameter : Shape :=
  choice [typed typedParameter, untyped (choice [rest, withDefault])]

def parameters : Shape :=
  node .formalParameters (seq [tok "(", bracketed (commaList parameter), tok ")"])

def assertion : Shape :=
  node .asserts
    (seq [word "asserts",
      choice
        [node .typePredicate
            (seq [choice [wordNode .this "this", name .identifier], word "is", rule .type]),
          wordNode .this "this", name .identifier]])

def predicate : Shape :=
  node .typePredicate
    (seq [choice [wordNode .this "this", name .identifier], sameLine, word "is", rule .type])

/-- What a function type gives. In this place `asserts` always opens an assertion. -/
def result (type : Shape) : Shape :=
  choice [assertion, predicate, seq [notAhead (word "asserts"), type]]

def returnType : Shape :=
  role .returnType
    (choice
      [node .assertsAscription (seq [tok ":", assertion]),
        node .typePredicateAscription (seq [tok ":", predicate]),
        seq [notAhead (seq [tok ":", word "asserts"]), rule .typeAscription]])

/-- The parameters of a function with what the typed grammars put around them. -/
def signature : Shape :=
  choice
    [typed (seq [opt (role .typeParameters (rule .typeParameters)),
        role .parameters (rule .parameters), opt returnType]),
      untyped (role .parameters (rule .parameters))]

def functionBody : Shape := role .body (rule .block)

def functionHead (nameForm : Shape) (star : Shape) : Shape :=
  seq [opt (seq [word "async", sameLine]), word "function", star, nameForm, rule .signature]

def functionExpression : Shape :=
  seq [ahead (anyWord ["function", "async"]),
    choice
      [node .functionExpression
          (seq [functionHead (opt (role .name (name .identifier))) empty, functionBody]),
        node .generatorFunction
          (seq [functionHead (opt (role .name (name .identifier))) (tok "*"), functionBody])]]

def functionDeclaration : Shape :=
  seq [ahead (anyWord ["function", "async"]),
    choice
      [node .functionDeclaration
          (seq [functionHead (role .name (name .identifier)) empty, functionBody,
            opt (lineEnd false)]),
        node .generatorFunctionDeclaration
          (seq [functionHead (role .name (name .identifier)) (tok "*"), functionBody,
            opt (lineEnd false)]),
        typed (node .functionSignature
          (terminated (fun _ => false)
            (seq [functionHead (role .name (name .identifier)) empty, notAhead (tok "\x7b")])))]]

def decoratorCallee : Shape :=
  grow (name .identifier)
    [(.memberExpression, some .object, always,
        seq [tok ".", role .property (name .propertyIdentifier)]),
      (.callExpression, some .function, always,
        seq [typedOpt Expression.typeArguments, Expression.callArguments])]

def decorator : Shape :=
  node .decorator (seq [tok "@", choice [decoratorCallee, Expression.parenthesized]])

def extendsClause : Shape :=
  node .extendsClause
    (seq [word "extends",
      separated (tok ",")
        (seq [role .value (inMode (fun m => { m with noInstantiation := true }) (rule .access)),
          opt Expression.typeArguments])])

def implementsClause : Shape :=
  node .implementsClause (seq [word "implements", separated (tok ",") (rule .type)])

def heritage : Shape :=
  node .classHeritage
    (choice
      [typed (seq [extendsClause, opt implementsClause]), typed implementsClause,
        untyped (seq [word "extends", rule .access])])

def staticBlock : Shape :=
  node .classStaticBlock (seq [word "static", role .body (rule .block)])

/-- The marker of a generator, an asynchronous method or an accessor. -/
def methodMarker : Shape :=
  choice [Expression.modifier (anyWord ["async", "get", "set"]), tok "*"]

def scriptMember : Shape :=
  choice
    [seq [node .methodDefinition
          (seq [many (rule .decorator), opt (Expression.modifier (word "static")),
            many methodMarker, role .name (rule .propertyName), rule .signature, functionBody]),
        opt (tok ";")],
      staticBlock,
      terminated hasValue
        (node .fieldDefinition
          (seq [many (rule .decorator), opt (Expression.modifier (word "static")),
            role .property (rule .propertyName), opt initializer])),
      tok ";"]

def typedModifier (others : List String) : Shape :=
  choice
    [Expression.modifier accessibility,
      Expression.modifier (wordNode .overrideModifier "override"),
      Expression.modifier (anyWord others)]

def memberSignature : Shape :=
  seq [many methodMarker, role .name (rule .propertyName), opt (tok "?"), rule .signature]

def methodSignature : Shape :=
  node .methodSignature (seq [many (typedModifier ["static", "readonly"]), memberSignature])

def mappedClause : Shape :=
  node .mappedTypeClause
    (seq [role .name (name .typeIdentifier), word "in", rule .type,
      opt (seq [word "as", role .localName (rule .type)])])

def indexSignature : Shape :=
  node .indexSignature
    (seq [opt (seq [opt (anyTok ["-", "+"]), word "readonly"]), tok "[",
      bracketed (choice [mappedClause, seq [role .name (name .identifier), tok ":", rule .type]]),
      tok "]",
      choice [rule .typeAscription,
        node .typeAscription (seq [opt (anyTok ["-", "+"]), raw "?", tok ":", rule .type])]])

def typedField : Shape :=
  node .fieldDefinition
    (seq [many (rule .decorator),
      many (typedModifier ["static", "readonly", "declare", "abstract", "accessor"]),
      role .name (rule .propertyName), opt (anyTok ["?", "!"]), opt (rule .typeAscription),
      opt initializer])

/-- A member that a semicolon, a line end or a comma follows. -/
def endedMember (f : Shape) : Shape :=
  choice [terminated hasValue f, seq [f, tok ","]]

def typedMember : Shape :=
  choice
    [seq [many (rule .decorator),
        node .methodDefinition
          (seq [many (typedModifier ["static", "readonly"]), memberSignature, functionBody]),
        opt (choice [lineEnd false, tok ";"])],
      staticBlock,
      endedMember
        (node .abstractMethodSignature
          (seq [opt (Expression.modifier accessibility), Expression.modifier (word "abstract"),
            opt (Expression.modifier (wordNode .overrideModifier "override")), memberSignature])),
      endedMember (seq [opt (Expression.modifier (word "static")), indexSignature]),
      endedMember (seq [methodSignature, notAhead (tok "\x7b")]),
      endedMember typedField,
      tok ";"]

def classBody : Shape :=
  node .classBody
    (seq [tok "\x7b", fresh (many (choice [typed typedMember, untyped scriptMember])),
      tok "\x7d"])

/-- In the typed grammars the name of a class is the name of a type. -/
def className : Shape :=
  choice
    [typed (nameExcept .typeIdentifier ["extends", "implements"]),
      untyped (nameExcept .identifier ["extends"])]

def classRest : Shape :=
  seq [typedOpt (role .typeParameters (rule .typeParameters)), opt heritage,
    role .body (rule .classBody)]

def classExpression : Shape :=
  node .classExpression
    (seq [many (rule .decorator), word "class", opt (role .name className), classRest])

def classDeclaration : Shape :=
  choice
    [node .classDeclaration
        (seq [many (rule .decorator), word "class", role .name className, classRest,
          opt (lineEnd false)]),
      typed (node .abstractClassDeclaration
        (seq [many (rule .decorator), word "abstract", word "class", role .name className,
          classRest]))]

end CodeIndex.Source.Grammar.Function
