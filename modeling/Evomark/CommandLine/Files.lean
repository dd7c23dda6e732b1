import Evomark.Table
/-!
# Files

What a run of the command line needs of files is a `Files`, for any monad. A `Directory` is a
model of it: text files by their paths below the working directory. `Directory.locate` says what
a path leads to, and `Directory.files` reads and writes there.
-/

namespace Evomark

/-- Why a file cannot be read or written. -/
inductive FileError
  | notFound
  | notDirectory
  | isDirectory
  /-- Any other reason, in words. -/
  | other (reason : String)
  deriving DecidableEq, Repr

/-- The wording of an error. -/
def FileError.message : FileError → String
  | notFound => "No such file or directory (os error 2)"
  | notDirectory => "Not a directory (os error 20)"
  | isDirectory => "Is a directory (os error 21)"
  | other reason => reason

/-- Access to files. -/
structure Files (m : Type → Type) where
  /-- The text of a file. -/
  read : String → m (Except FileError String)
  /-- Replaces the text of a file, which begins to be if it is missing. -/
  write : String → String → m (Except FileError Unit)
  /-- There is a file or a directory. -/
  isPresent : String → m Bool

/-- The text files below a directory, by their paths. A directory is there if a file is in it. -/
structure Directory where
  files : Table String
  deriving DecidableEq, Repr

/-- What a path leads to. -/
inductive Spot
  | file (path : String) (text : String)
  | directory
  /-- Nothing, in a directory. -/
  | vacant (path : String)
  deriving DecidableEq, Repr

namespace Directory

/-- The path of parts. -/
def join (parts : List String) : String := String.intercalate "/" parts

/-- There is a file below a path. -/
def hasFilesBelow (d : Directory) (parts : List String) : Bool :=
  parts.isEmpty || d.files.any fun (path, _) => (join parts ++ "/").isPrefixOf path

/-- What the parts of a path lead to from the directory `here`. -/
def locate (d : Directory) : List String → (here : List String) → Except FileError Spot
  | [], _ => .ok .directory
  | part :: rest, here =>
    if part = "" || part = "." then d.locate rest here
    else if part = ".." then
      if here.isEmpty then .error .notFound else d.locate rest here.dropLast
    else
      let path := join (here ++ [part])
      match Table.get? path d.files with
      | some text => if rest.isEmpty then .ok (.file path text) else .error .notDirectory
      | none =>
        if d.hasFilesBelow (here ++ [part]) then d.locate rest (here ++ [part])
        else if rest.isEmpty then .ok (.vacant path)
        else .error .notFound

/-- What a path leads to. Paths that lead out of the directory lead nowhere. -/
def spot (d : Directory) (path : String) : Except FileError Spot :=
  if path = "" || path.startsWith "/" then .error .notFound else d.locate (path.splitOn "/") []

/-- The text of the file at a path. -/
def read (d : Directory) (path : String) : Except FileError String :=
  match d.spot path with
  | .ok (.file _ text) => .ok text
  | .ok .directory => .error .isDirectory
  | .ok (.vacant _) => .error .notFound
  | .error e => .error e

/-- The directory with the text of the file at a path replaced. -/
def write (d : Directory) (path text : String) : Except FileError Directory :=
  match d.spot path with
  | .ok (.file name _) => .ok ⟨Table.insert name text d.files⟩
  | .ok (.vacant name) => .ok ⟨Table.insert name text d.files⟩
  | .ok .directory => .error .isDirectory
  | .error e => .error e

/-- A path leads to a file or a directory. -/
def isPresent (d : Directory) (path : String) : Bool :=
  match d.spot path with
  | .ok (.file ..) | .ok .directory => true
  | _ => false

/-- Access to the files of a directory. -/
def access : Files (StateM Directory) where
  read path := do return (← get).read path
  write path text := do
    match (← get).write path text with
    | .ok d => set d; return .ok ()
    | .error e => return .error e
  isPresent path := do return (← get).isPresent path

end Directory

end Evomark
