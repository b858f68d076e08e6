import MathNotes.Path

/-!
# Hosts

What the command line needs of the machine that it runs on: to read, make, write and rename files. A
`Folder` is a host in memory.
-/

namespace MathNotes

/-- Why a file could not be used. -/
inductive FileFault where
  | missing
  | isFolder
  | notFolder
  | alreadyFile
  | badName
  | notUtf8
  deriving Repr, DecidableEq

/-- The file operations of a machine. -/
structure Host (m : Type → Type) where
  /-- The bytes of a file. -/
  read : Path → m (Except FileFault ByteArray)
  /-- Makes a folder, with the folders that it lies in, unless it is there. -/
  makeFolder : Path → m (Except FileFault Unit)
  /-- Writes a file anew. -/
  write : Path → Text → m (Except FileFault Unit)
  /-- Writes at the end of a file. -/
  append : Path → Text → m (Except FileFault Unit)
  /-- Gives a file another name, in place of the file that had it. -/
  rename : Path → Path → m (Except FileFault Unit)

/-- The files and folders below a working folder, by the parts of their paths. -/
structure Folder where
  files : List (List Text × ByteArray) := []
  folders : List (List Text) := []

namespace Folder

/-- Where a path leads: to a file, to a folder, to a place inside an existing folder where nothing
is, out of the working folder, or nowhere. -/
inductive Place where
  | file (place : List Text)
  | folder (place : List Text)
  | free (place : List Text)
  | outside
  | nowhere (fault : FileFault)

/-- What there is at a place. -/
def lookAt (folder : Folder) (place : List Text) : Place :=
  if folder.files.any (·.1 == place) then .file place
  else if place.isEmpty || folder.folders.contains place
      || folder.files.any (fun file => place.isPrefixOf file.1) then .folder place
  else .free place

/-- Where one more part leads. -/
def follow (folder : Folder) (part : Text) : Place → Place
  | .folder place =>
    if part = ".." then (if place.isEmpty then .outside else folder.lookAt place.dropLast)
    else folder.lookAt (place ++ [part])
  | .file _ => .nowhere .notFolder
  | .free _ => .nowhere .missing
  | .outside => .outside
  | .nowhere fault => .nowhere fault

/-- Where a path leads. -/
def locate (folder : Folder) (path : Path) : Place :=
  if path.parts.any (·.contains '\x00') then .nowhere .badName
  else if path.root.isEmpty then
    path.parts.foldl (fun place part => folder.follow part place) (.folder [])
  else .outside

/-- The bytes of a file. -/
def read (folder : Folder) (path : Path) : Except FileFault ByteArray :=
  match folder.locate path with
  | .file place => (folder.files.lookup place).elim (.error .missing) .ok
  | .folder _ => .error .isFolder
  | .free _ | .outside => .error .missing
  | .nowhere fault => .error fault

/-- The folder with one more folder in it at the end of a path whose other parts are there. -/
def makeLast (folder : Folder) (path : Path) : Except FileFault Folder :=
  match folder.locate path with
  | .free place => .ok { folder with folders := place :: folder.folders }
  | .folder _ | .outside => .ok folder
  | .file _ => .error .alreadyFile
  | .nowhere fault => .error fault

/-- The folder with the folders along a path made, after the parts `done`. -/
def makeAlong (root : Text) (done : List Text) : List Text → Folder → Except FileFault Folder
  | [], folder => .ok folder
  | part :: rest, folder => do
    let folder ← match folder.makeLast ⟨root, done ++ [part]⟩ with
      | .error .alreadyFile => .error (if rest.isEmpty then .alreadyFile else .notFolder)
      | result => result
    makeAlong root (done ++ [part]) rest folder

/-- The folder with a folder made. -/
def makeFolder (folder : Folder) (path : Path) : Except FileFault Folder :=
  makeAlong path.root [] path.parts folder

/-- The folder with the bytes of a file changed; what is written outside is not kept. -/
def update (folder : Folder) (path : Path) (change : ByteArray → ByteArray) :
    Except FileFault Folder :=
  let put (place : List Text) (bytes : ByteArray) : Folder :=
    { folder with files := (place, change bytes) :: folder.files.filter (·.1 != place) }
  match folder.locate path with
  | .file place => .ok (put place ((folder.files.lookup place).getD .empty))
  | .free place => .ok (put place .empty)
  | .folder _ => .error .isFolder
  | .outside => .ok folder
  | .nowhere fault => .error fault

/-- The folder without the file at the end of a path. -/
def remove (folder : Folder) (path : Path) : Folder :=
  match folder.locate path with
  | .file place => { folder with files := folder.files.filter (·.1 != place) }
  | _ => folder

/-- The folder with a file moved to another path. -/
def move (folder : Folder) (old new : Path) : Except FileFault Folder := do
  let bytes ← folder.read old
  (folder.remove old).update new fun _ => bytes

/-- Runs a change of the folder. -/
def apply (change : Folder → Except FileFault Folder) : StateM Folder (Except FileFault Unit) :=
  fun folder =>
    match change folder with
    | .ok folder => (.ok (), folder)
    | .error fault => (.error fault, folder)

/-- A folder as a host. -/
def host : Host (StateM Folder) where
  read path := fun folder => (folder.read path, folder)
  makeFolder path := apply (·.makeFolder path)
  write path text := apply (·.update path fun _ => (String.ofList text).toUTF8)
  append path text := apply (·.update path fun bytes => bytes ++ (String.ofList text).toUTF8)
  rename old new := apply (·.move old new)

end Folder

end MathNotes
