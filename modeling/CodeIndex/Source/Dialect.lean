import CodeIndex.Language

/-!
The three grammars that source files are read with. Markup elements belong to the JavaScript
grammar and to the TSX grammar; plain TypeScript has prefix type assertions instead.
-/
namespace CodeIndex.Source

inductive Dialect where
  | javascript
  | typescript
  | tsx
  deriving DecidableEq, Repr

namespace Dialect

def isTyped : Dialect → Bool
  | javascript => false
  | typescript | tsx => true

def hasMarkup : Dialect → Bool
  | typescript => false
  | javascript | tsx => true

def ofLanguage? : Language → Option Dialect
  | .typescript => some typescript
  | .tsx => some tsx
  | .javascript | .jsx => some javascript
  | .unknown => none

end Dialect

end CodeIndex.Source
