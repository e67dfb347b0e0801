import CodeIndex.Digest.Sha256
import CodeIndex.Language

/-!
A source file with its content and what is computed from it.
-/
namespace CodeIndex

structure SourceFile where
  path : String
  content : String
  language : Language
  size : Nat
  contentHash : String
  indexedAt : Int
  deriving DecidableEq, Repr

namespace SourceFile

/-- A file is described by its path and content alone; its size counts bytes. -/
def of (path content : String) (indexedAt : Int) : SourceFile :=
  { path, content, language := Language.ofPath path, size := content.utf8ByteSize,
    contentHash := Digest.Sha256.hex content, indexedAt }

end SourceFile

end CodeIndex
