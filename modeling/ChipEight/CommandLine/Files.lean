import Std.Data.TreeMap.Lemmas

/-!
# Files

What a command may do with files, whichever way they are kept, and a folder of files
that is kept in memory.
-/

namespace ChipEight.CommandLine

/-- Why a file cannot be read or written. -/
inductive FileError
  | notFound
  | isDirectory
  | notDirectory
  | nameTooLong
  | permissionDenied
  | other (text : String)
  deriving DecidableEq, Repr

/-- The wording of a failure. -/
def FileError.message : FileError → String
  | notFound => "No such file or directory (os error 2)"
  | permissionDenied => "Permission denied (os error 13)"
  | notDirectory => "Not a directory (os error 20)"
  | isDirectory => "Is a directory (os error 21)"
  | nameTooLong => "File name too long (os error 36)"
  | other text => text

/-- The file operations of a command. -/
structure Files (m : Type → Type) where
  read : String → m (Except FileError (Array UInt8))
  write : String → Array UInt8 → m (Except FileError Unit)

/-- A folder of files; it has no folders inside. -/
abbrev Folder := Std.TreeMap String (Array UInt8)

namespace Folder

/-- What a path leads to. -/
inductive Place
  /-- The folder itself, or a folder around it. -/
  | directory
  | file (name : String)
  /-- A folder inside, of which there is none. -/
  | missingFolder
  deriving DecidableEq, Repr

/-- The longest name of a file in bytes. -/
def nameLimit : Nat := 255

/-- The longest path in bytes. -/
def pathLimit : Nat := 4095

/-- Whether a part of a path stays where the path has led so far. -/
def isIdle (part : String) : Bool :=
  part == "" || part == "."

/-- Follows the parts of a path from the folder. Around the folder only folders are
known. -/
def locate (folder : Folder) : List String → Except FileError Place
  | [] => .ok .directory
  | part :: parts =>
    if isIdle part then locate folder parts
    else if part = ".." then
      if parts.all fun later => isIdle later || later == ".." then .ok .directory
      else .error .notFound
    else if part.utf8ByteSize > nameLimit then .error .nameTooLong
    else if parts.isEmpty then .ok (.file part)
    else if folder.contains part then .error .notDirectory
    else if parts.all (· == "") then .ok .missingFolder
    else .error .notFound

/-- What a path leads to. -/
def resolve (folder : Folder) (path : String) : Except FileError Place :=
  if path.utf8ByteSize > pathLimit then .error .nameTooLong
  else
    match path.splitOn "/" with
    | "" :: parts =>
      if parts.isEmpty then .error .notFound
      else if parts.all isIdle then .ok .directory
      else .error .notFound
    | parts => folder.locate parts

/-- The bytes of the file at a path. -/
def fetch (folder : Folder) (path : String) : Except FileError (Array UInt8) :=
  match folder.resolve path with
  | .error error => .error error
  | .ok .directory => .error .isDirectory
  | .ok .missingFolder => .error .notFound
  | .ok (.file name) =>
    match folder[name]? with
    | some bytes => .ok bytes
    | none => .error .notFound

/-- The folder with other bytes in the file at a path. -/
def store (folder : Folder) (path : String) (bytes : Array UInt8) : Except FileError Folder :=
  match folder.resolve path with
  | .error error => .error error
  | .ok .directory | .ok .missingFolder => .error .isDirectory
  | .ok (.file name) => .ok (folder.insert name bytes)

/-- The file operations on a folder in memory. -/
def files : Files (StateM Folder) where
  read path := return (← get).fetch path
  write path bytes := do
    match (← get).store path bytes with
    | .error error => return .error error
    | .ok folder =>
      set folder
      return .ok ()

end Folder

end ChipEight.CommandLine
