/-
What the rest of the library asks of files. Paths and contents are text; an operation that fails
gives no reason. Files on a disk are one instance, a tree of files in memory another
(`FormProgram.File.Tree`).
-/
set_option autoImplicit false

namespace FormProgram

class FileAccess (m : Type → Type) where
  /-- There is a file or directory. -/
  isThere : String → m Bool
  /-- The text of a file; none also if its bytes are no text. -/
  readText : String → m (Option String)
  /-- Replaces the contents of a file, which need not be there yet. -/
  writeText : String → String → m Bool
  /-- Makes a directory and those on the way to it, as far as they are not there. -/
  createDirectories : String → m Bool
  /-- Moves a file; one that is at the new path is replaced. -/
  rename : String → String → m Bool

end FormProgram
