import CodeIndex.Source.Grammar.Expression

/-!
Patterns: what values are bound or assigned to.
-/
namespace CodeIndex.Source.Grammar.Pattern

open Form

def initializer : Shape := seq [tok "=", role .value (rule .expression)]

def rest : Shape :=
  node .restPattern (seq [tok "...", rule .pattern])

/-- A pattern that takes a default for a missing value. -/
def withDefault : Shape :=
  choice
    [node .assignmentPattern (seq [rule .pattern, tok "=", rule .expression]), rule .pattern]

def objectPatternMember : Shape :=
  choice
    [rest,
      node .pairPattern (seq [rule .propertyName, tok ":", withDefault]),
      node .objectAssignmentPattern
        (seq [name .shorthandPropertyIdentifierPattern, tok "=", rule .expression]),
      name .shorthandPropertyIdentifierPattern]

def objectPattern : Shape :=
  node .objectPattern (seq [tok "\x7b", bracketed (sparseList objectPatternMember), tok "\x7d"])

def arrayPattern : Shape :=
  node .arrayPattern
    (seq [tok "[", bracketed (sparseList (choice [rest, withDefault])), tok "]"])

def destructuring : Shape := choice [objectPattern, arrayPattern]

/-- A pattern inside another one: a name, a nested pattern, or any place that can be assigned. -/
def pattern : Shape :=
  choice
    [destructuring,
      seq [name .identifier, notAhead (anyTok [".", "[", "(", "?.", "!"])],
      keeping Expression.isTarget (rule .access)]

/-- What a declaration binds. -/
def binding : Shape := choice [destructuring, name .identifier]

end CodeIndex.Source.Grammar.Pattern
