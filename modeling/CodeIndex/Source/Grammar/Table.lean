import CodeIndex.Source.Grammar.Markup
import CodeIndex.Source.Grammar.Statement

/-!
The form of every rule, and the form of a whole file.
-/
namespace CodeIndex.Source.Grammar

def form : Rule → Shape
  | .statement => Statement.statement
  | .block => Statement.block
  | .declaration => Statement.declaration
  | .expression => Expression.expression
  | .sequence => Expression.sequence
  | .conditional => Expression.conditional
  | .binary => Expression.binary
  | .operand => Expression.operand
  | .access => Expression.access
  | .primary => Expression.primary
  | .construction => Expression.construction
  | .arrow => Expression.arrow
  | .arguments => Expression.arguments
  | .template => Expression.template
  | .object => Expression.object
  | .array => Expression.array
  | .destructuring => Pattern.destructuring
  | .pattern => Pattern.pattern
  | .propertyName => Expression.propertyName
  | .parameters => Function.parameters
  | .signature => Function.signature
  | .classBody => Function.classBody
  | .decorator => Function.decorator
  | .type => Type.type
  | .typeOperand => Type.typeOperand
  | .typeArguments => Type.typeArguments
  | .typeParameters => Type.typeParameters
  | .typeAscription => Type.typeAscription
  | .objectType => Type.objectType
  | .functionExpression => Function.functionExpression
  | .classExpression => Function.classExpression
  | .markup => Markup.markup

def hashBang : Shape :=
  .lexeme .hashBangLine fun t _ pos =>
    if pos == 0 && t.standsAt 0 ['#', '!'] then some (0, t.scanWhile (· != '\n') 0) else none

def file : Shape := .seq [.opt hashBang, .many (.rule .statement)]

end CodeIndex.Source.Grammar
