/-!
# Paths

A `Path` is a text in which slashes separate pieces (`Path.pieces`).

* `Path.components` are the pieces that count when two paths are compared by sight
  (`Path.resembles`): repeated slashes, a slash at the end and a single dot count for nothing,
  except that a dot at the very front of a relative path does.  No piece is resolved, so a path
  and a detour to the same place have different components.
* `Path.sibling` is the path of another name in the same directory.  The directory is written as
  in the first path.
-/

namespace TinyBasic

/-- A path, as it is written. -/
structure Path where
  /-- The text of the path. -/
  text : String
  deriving DecidableEq

namespace Path

/-- The pieces of a text between its slashes. -/
def split : List Char → List (List Char)
  | [] => [[]]
  | c :: cs =>
    if c = '/' then [] :: split cs
    else
      match split cs with
      | [] => [[c]]
      | p :: ps => (c :: p) :: ps

/-- The pieces of a path, empty ones included.  The first piece of an absolute path is empty. -/
def pieces (p : Path) : List String := (split p.text.toList).map String.ofList

/-- A path is absolute if it starts with a slash. -/
def isAbsolute (p : Path) : Bool := p.text.toList.head? == some '/'

/-- A piece of a path that counts in a comparison. -/
inductive Component where
  /-- The slash at the front of an absolute path. -/
  | root
  /-- The dot at the front of a relative path. -/
  | here
  /-- Two dots. -/
  | parent
  /-- Any other piece. -/
  | name (s : String)
  deriving DecidableEq

/-- A piece that stands for the directory it is in. -/
def isIdle (piece : String) : Bool := piece == "" || piece == "."

/-- A piece that names something in a directory. -/
def isName (piece : String) : Bool := !isIdle piece && piece != ".."

/-- The component of a piece that is not idle. -/
def component (piece : String) : Component := if piece = ".." then .parent else .name piece

/-- The components of a path. -/
def components (p : Path) : List Component :=
  let counted := (p.pieces.filter (!isIdle ·)).map component
  if p.isAbsolute then .root :: counted
  else if p.pieces.head? = some "." then .here :: counted
  else counted

/-- Whether two paths have the same components. -/
def resembles (p q : Path) : Bool := p.components == q.components

/-- Pieces without the idle ones at the end. -/
def trim (pieces : List String) : List String := (pieces.reverse.dropWhile isIdle).reverse

/-- The directory that a path names something in, as the path writes it.  It is empty for a single
name, and the path itself if that does not end with a name. -/
def directory (p : Path) : String :=
  match p.pieces with
  | [] => ""
  | first :: rest =>
    match (trim rest).getLast? with
    | some last =>
      if isName last then
        let above := trim (trim rest).dropLast
        if first = "" ∧ above = [] then "/" else "/".intercalate (first :: above)
      else p.text
    | none => if isName first then "" else p.text

/-- The path of another name in the same directory. -/
def sibling (p : Path) (name : String) : Path :=
  let d := p.directory
  if d = "" ∨ d.toList.getLast? = some '/' then ⟨d ++ name⟩ else ⟨d ++ "/" ++ name⟩

instance : ToString Path := ⟨text⟩

end Path

end TinyBasic
