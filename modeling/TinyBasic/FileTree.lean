import TinyBasic.Path

/-!
# File trees

A `FileTree` holds regular files and directories below a root, and a working directory where
relative paths start.  A place in it is the list of names on the way from the root.  Paths are
resolved piece by piece (`FileTree.resolve`), and every piece has to be looked up in a directory.
`FileTree.read` and `FileTree.write` answer as the file functions of a system without links do.
-/

namespace TinyBasic

/-- Why a file cannot be read or written. -/
inductive FileError where
  /-- Some piece of the path names nothing. -/
  | notFound
  /-- Some piece of the path is looked up in a regular file. -/
  | notDirectory
  /-- The path names a directory. -/
  | isDirectory
  /-- The file does not hold text. -/
  | invalidText
  deriving DecidableEq

namespace FileError

/-- The text of the error. -/
def message : FileError → String
  | .notFound => "No such file or directory (os error 2)"
  | .notDirectory => "Not a directory (os error 20)"
  | .isDirectory => "Is a directory (os error 21)"
  | .invalidText => "stream did not contain valid UTF-8"

end FileError

/-- What stands at a place. -/
inductive Entry where
  | directory
  | file (bytes : ByteArray)

/-- Files and directories. -/
structure FileTree where
  /-- The place where relative paths start. -/
  workingDirectory : List String
  /-- What stands at the places other than the root. -/
  entries : List (List String × Entry)

namespace FileTree

/-- What stands at a place.  The root is a directory. -/
def find? (t : FileTree) (place : List String) : Option Entry :=
  if place = [] then some .directory else t.entries.lookup place

/-- Succeeds at a directory. -/
def checkDirectory (t : FileTree) (place : List String) : Except FileError Unit :=
  match t.find? place with
  | some .directory => .ok ()
  | some (.file _) => .error .notDirectory
  | none => .error .notFound

/-- The place that a piece of a path leads to, seen from a directory. -/
def descend (t : FileTree) (place : List String) (piece : String) :
    Except FileError (List String) := do
  t.checkDirectory place
  if Path.isIdle piece then return place
  else if piece = ".." then return place.dropLast
  else if (t.find? (place ++ [piece])).isSome then return place ++ [piece]
  else throw .notFound

/-- The place where a path starts. -/
def origin (t : FileTree) (p : Path) : List String :=
  if p.isAbsolute then [] else t.workingDirectory

/-- The place that a path leads to. -/
def resolve (t : FileTree) (p : Path) : Except FileError (List String) :=
  if p.text = "" then .error .notFound else p.pieces.foldlM t.descend (t.origin p)

/-- The text of a file. -/
def read (t : FileTree) (p : Path) : Except FileError String := do
  match t.find? (← t.resolve p) with
  | some (.file bytes) =>
    match String.fromUTF8? bytes with
    | some text => return text
    | none => throw .invalidText
  | some .directory => throw .isDirectory
  | none => throw .notFound

/-- The place that a path leads to for writing.  Its last piece has to be a name with no slash
after it, and what it names need not exist, but must not be a directory. -/
def resolveTarget (t : FileTree) (p : Path) : Except FileError (List String) := do
  if p.text = "" then throw .notFound
  let solid := (p.pieces.reverse.dropWhile (· == "")).reverse
  match solid.getLast? with
  | none => throw .isDirectory
  | some last =>
    if Path.isName last then
      let parent ← solid.dropLast.foldlM t.descend (t.origin p)
      t.checkDirectory parent
      if solid.length < p.pieces.length then throw .isDirectory
      match t.find? (parent ++ [last]) with
      | some .directory => throw .isDirectory
      | _ => return parent ++ [last]
    else
      let _ ← t.resolve p
      throw .isDirectory

/-- The tree with other bytes at a place. -/
def put (t : FileTree) (place : List String) (bytes : ByteArray) : FileTree :=
  { t with entries := (place, .file bytes) :: t.entries.filter (·.1 != place) }

/-- Creates a file, or replaces what it holds. -/
def write (t : FileTree) (p : Path) (text : String) : Except FileError FileTree :=
  (t.resolveTarget p).map fun place => t.put place text.toUTF8

/-- **Writing a file changes what stands at its place, and nothing else.** -/
theorem find?_put (t : FileTree) (place other : List String) (bytes : ByteArray)
    (h : place ≠ []) :
    (t.put place bytes).find? other =
      if other = place then some (.file bytes) else t.find? other := by
  by_cases ho : other = []
  · subst ho
    simp [find?, Ne.symm h]
  · simp only [find?, ho, if_false, put, List.lookup_cons]
    by_cases hp : other = place
    · simp [hp]
    · simp only [hp, if_false]
      rw [beq_eq_false_iff_ne.2 hp]
      induction t.entries with
      | nil => rfl
      | cons e es ih =>
        obtain ⟨q, v⟩ := e
        by_cases hq : q = place
        · subst hq
          simpa [List.lookup_cons, beq_eq_false_iff_ne.2 hp] using ih
        · simp only [List.filter_cons, bne_iff_ne, ne_eq, hq, not_false_eq_true, if_true,
            List.lookup_cons]
          split
          · rfl
          · exact ih

end FileTree

end TinyBasic
