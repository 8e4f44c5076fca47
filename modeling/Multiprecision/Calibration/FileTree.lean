import Multiprecision.Calibration.Store

/-!
# Multiprecision.Calibration.FileTree

A tree of files held in memory.  A path is followed part by part from the
top:

1. a name leads into the folder reached so far;
2. an empty part and a single dot stay there, two dots lead back out;
3. a part that follows a file, or a name that is missing, leads nowhere, and
   so does one that would leave the tree.

The last name alone may be missing, as that of a file to be written.  A
slash or a dot behind it asks for a folder.
-/

namespace Multiprecision.Calibration

/-- Files with their texts, and folders.  The folder that paths start from is
always there. -/
structure FileTree where
  files : List (List String × String) := []
  folders : List (List String) := []
deriving DecidableEq, Repr, Inhabited

namespace FileTree

def isFile (t : FileTree) (p : List String) : Bool := t.files.any (·.1 == p)

def isFolder (t : FileTree) (p : List String) : Bool := p.isEmpty || t.folders.contains p

/-! ## Paths -/

/-- Follows one part of a path from the place `p`. -/
def enter (t : FileTree) (p : List String) (part : String) : Option (List String) :=
  if !t.isFolder p || part.contains '\x00' then none
  else if part.isEmpty || part = "." then some p
  else if part ≠ ".." then some (p ++ [part])
  else if p.isEmpty then none
  else some p.dropLast

/-- The parts of a path from the top.  One that starts with a slash does not
start there. -/
def parts (path : String) : Option (List String) :=
  if path.startsWith "/" then none else some (path.splitOn "/")

/-- The place that a path leads to. -/
def locate (t : FileTree) (path : String) : Option (List String) := do
  (← parts path).foldlM t.enter []

/-- The path of the folder that the last part of a path stands in. -/
def around (path : String) : String :=
  "/".intercalate
    ((path.splitOn "/").filter fun part => !part.isEmpty && part ≠ ".").dropLast

/-! ## Actions -/

def exist (t : FileTree) (path : String) : Bool :=
  (t.locate path).any fun p => t.isFile p || t.isFolder p

/-- The text of a file. -/
def read (t : FileTree) (path : String) : Except String String := do
  let some p := t.locate path | throw "no such file"
  match List.lookup p t.files with
  | some text => return text
  | none => throw (if t.isFolder p then "is a folder" else "no such file")

/-- Puts a file into its folder, in the place of an older one. -/
def write (t : FileTree) (path text : String) : Except String FileTree := do
  let some p := t.locate path | throw "no such folder"
  if t.isFolder p then throw "is a folder"
  return { t with files := (p, text) :: t.files.filter (·.1 != p) }

/-- Follows one part of a path from the place `p`, and makes the folder that
it names if there is none. -/
def enterOrMake : FileTree × List String → String → Except String (FileTree × List String)
  | (t, p), part => do
    let some p := t.enter p part | throw "no such folder"
    if t.isFile p then throw "is a file"
    return (if t.isFolder p then t else { t with folders := p :: t.folders }, p)

/-- Makes the folders on a path. -/
def makeFolder (t : FileTree) (path : String) : Except String FileTree := do
  let some parts := parts path | throw "no such folder"
  return (← parts.foldlM enterOrMake (t, [])).1

/-- Removes a file. -/
def remove (t : FileTree) (path : String) : Except String FileTree := do
  let some p := t.locate path | throw "no such file"
  if t.isFile p then return { t with files := t.files.filter (·.1 != p) }
  throw (if t.isFolder p then "is a folder" else "no such file")

/-- Goes on with the tree that a change gives, or with the old one. -/
def change (f : FileTree → Except String FileTree) : StateM FileTree (Except String Unit) :=
  fun t => match f t with
    | .ok t => (.ok (), t)
    | .error reason => (.error reason, t)

/-- The actions on the files of a tree. -/
def actions : Files (StateM FileTree) where
  exist path := fun t => (t.exist path, t)
  read path := fun t => (t.read path, t)
  write path text := change (·.write path text)
  makeFolder path := change (·.makeFolder path)
  remove path := change (·.remove path)

end FileTree

end Multiprecision.Calibration
