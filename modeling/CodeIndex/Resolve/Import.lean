import CodeIndex.Language
import CodeIndex.Resolve.Specifier

/-!
From a relative specifier to a file: the path itself if it has an indexed extension, then the path
with each extension, then an index file in the directory of that name.
-/
namespace CodeIndex.Resolve

def hasIndexedExtension (path : String) : Bool :=
  ((Language.extensionOf? path).map Language.isSupportedExtension).getD false

/-- The files that a folded path may stand for, best first. -/
def candidates (base : String) : List String :=
  let exact := if hasIndexedExtension base then [base] else []
  let extended :=
    if base.isEmpty then [] else Language.extensions.map fun e => base ++ "." ++ e
  let index := Language.extensions.map fun e =>
    if base.isEmpty then "index." ++ e else base ++ "/index." ++ e
  exact ++ extended ++ index

/-- The known file that a relative specifier names; other specifiers name none. -/
def resolveImport (known : List String) (specifier fromFile : String) : Option String :=
  if isRelative specifier then
    (join? (Path.directory fromFile) specifier).bind fun base =>
      (candidates base).find? known.contains
  else none

end CodeIndex.Resolve
