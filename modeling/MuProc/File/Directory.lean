/-!
# Directories

What reading a path gives in a directory with known files. Of the places outside of it
only those are known that every system has.
-/

namespace MuProc

/-- Why a path cannot be read. -/
inductive ReadFault where
  | missing
  | isDirectory
  | notDirectory
  /-- The path has a zero byte, which ends names. -/
  | invalid
  /-- The path or a name in it has too many bytes. -/
  | tooLong
  /-- Any other reason, in the words of the system. -/
  | other (detail : String)
deriving DecidableEq, Repr

def ReadFault.message (path : String) : ReadFault → String
  | .missing => "open " ++ path ++ ": no such file or directory"
  | .isDirectory => "read " ++ path ++ ": is a directory"
  | .notDirectory => "open " ++ path ++ ": not a directory"
  | .invalid => "open " ++ path ++ ": invalid argument"
  | .tooLong => "open " ++ path ++ ": file name too long"
  | .other detail => "open " ++ path ++ ": " ++ detail

/-- The number of bytes that a name in a path may have. -/
def nameLimit : Nat :=
  255

def pathLimit : Nat :=
  4095

/-- A directory: the paths of its files with what they hold, and the paths of folders
that need not have files. -/
structure Directory where
  files : List (String × String) := []
  folders : List String := []
deriving DecidableEq, Repr, Inhabited

/-- What stands at a place of a directory. -/
inductive DirectoryEntry where
  | file (text : String)
  | folder
deriving DecidableEq, Repr

namespace Directory

/-- The root of a system: its usual folders, and the device that is always empty. -/
def root : Directory where
  files := [("dev/null", "")]
  folders := ["bin", "etc", "home", "lib", "proc", "root", "sbin", "sys", "tmp", "usr", "var"]

/-- What stands at a path, given by the names on the way to it. -/
def entry? (d : Directory) (names : List String) : Option DirectoryEntry :=
  match d.files.find? fun (path, _) => path.splitOn "/" = names with
  | some (_, text) => some (.file text)
  | none =>
    if names.isEmpty || (d.files.map Prod.fst ++ d.folders).any fun path =>
        names.isPrefixOf (path.splitOn "/") then
      some .folder
    else none

/-- What reading a path gives at an unknown place. The parts that name nothing lead from
one directory to another; the first name is found missing. -/
def followOutside : List String → ReadFault
  | [] => .isDirectory
  | part :: rest =>
    if part = "" ∨ part = "." ∨ part = ".." then followOutside rest
    else if part.utf8ByteSize > nameLimit then .tooLong
    else .missing

/-- Follows the parts of a path from the place at `names`. Nothing lies above the
directory if `top` is set. -/
def follow (d : Directory) (top : Bool) (names : List String) :
    List String → Except ReadFault String
  | [] =>
    match d.entry? names with
    | some (.file text) => .ok text
    | some .folder => .error .isDirectory
    | none => .error .missing
  | part :: rest =>
    match d.entry? names with
    | none => .error .missing
    | some (.file _) => .error .notDirectory
    | some .folder =>
      if part = "" ∨ part = "." then d.follow top names rest
      else if part = ".." then
        if names.isEmpty ∧ !top then .error (followOutside rest)
        else d.follow top names.dropLast rest
      else if part.utf8ByteSize > nameLimit then .error .tooLong
      else d.follow top (names ++ [part]) rest

def read (d : Directory) (path : String) : Except ReadFault String :=
  let parts := path.splitOn "/"
  if path.toList.contains '\x00' then .error .invalid
  else if path.utf8ByteSize > pathLimit then .error .tooLong
  else match path.toList with
    | [] => .error .missing
    | '/' :: _ => root.follow true [] parts
    | _ => d.follow false [] parts

end Directory

end MuProc
