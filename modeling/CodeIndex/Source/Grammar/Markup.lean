import CodeIndex.Source.Grammar.Type

/-!
Markup elements inside expressions.
-/
namespace CodeIndex.Source.Grammar.Markup

open Form

def tagWord : Shape := lexeme .identifier (next Lexeme.markupNameEnd?)

def namespaceName : Shape :=
  node .markupNamespaceName (seq [tagWord, tok ":", tagWord])

/-- A tag's name; the pairs of a dotted one read as member expressions. -/
def tagName : Shape :=
  choice
    [namespaceName,
      seq [tagWord, notAhead (tok ".")],
      grow (name .identifier)
        [(.memberExpression, some .object, always,
          seq [tok ".", role .property (name .propertyIdentifier)])]]

def expression : Shape :=
  node .markupExpression
    (seq [tok "\x7b", bracketed (opt (choice [Expression.spread, rule .sequence])), tok "\x7d"])

def attributeValue : Shape :=
  choice [lexeme .string (next Lexeme.markupStringEnd?), expression, rule .markup]

def tagAttribute : Shape :=
  choice
    [expression,
      node .markupAttribute
        (seq [choice [namespaceName, lexeme .propertyIdentifier (next Lexeme.markupNameEnd?)],
          opt (seq [raw "=", attributeValue])])]

def tagHead : Shape :=
  seq [role .name tagName, typedOpt Expression.typeArguments, many tagAttribute]

def openingTag : Shape :=
  node .markupOpeningElement (seq [raw "<", choice [seq [tagHead, raw ">"], raw ">"]])

def closingTag : Shape :=
  node .markupClosingElement (seq [raw "</", opt tagName, raw ">"])

def child : Shape :=
  choice
    [lexeme .markupText (here Lexeme.markupTextEnd?), expression,
      seq [notAhead (raw "</"), rule .markup]]

def markup : Shape :=
  seq [ahead (tok "<"),
    choice
      [node .markupSelfClosingElement (seq [raw "<", tagHead, raw "/>"]),
        node .markupElement (seq [openingTag, bracketed (many child), closingTag])]]

end CodeIndex.Source.Grammar.Markup
