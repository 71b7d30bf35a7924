/-
  OverlayCensus — the files that commands read and write.

  A store is a tree of directories, files and devices.  A path leads from the root, or
  from the directory in which the program runs, along the names between its slashes;
  `.` stays, `..` goes up, and everything but the last name has to be there already.

  * `read` gives the bytes of a file, `write` puts them there;
  * `obstacle` tells what prevents writing, if anything does;
  * a `StorageFault` is why a path leads to nothing that can be used.
-/

namespace OverlayCensus

/-- Why a file cannot be used. -/
inductive StorageFault where
  | notFound
  | permissionDenied
  | notDirectory
  | isDirectory
  | noSpace
  | nameTooLong
  | nulInName
  | other (text : String)
deriving DecidableEq, Repr

/-- The wording of an unusable file. -/
def StorageFault.message : StorageFault → String
  | notFound => "No such file or directory (os error 2)"
  | permissionDenied => "Permission denied (os error 13)"
  | notDirectory => "Not a directory (os error 20)"
  | isDirectory => "Is a directory (os error 21)"
  | noSpace => "No space left on device (os error 28)"
  | nameTooLong => "File name too long (os error 36)"
  | nulInName => "file name contained an unexpected NUL byte"
  | other text => text

/-- What stands in a store. -/
inductive StoredItem where
  | directory
  | file (bytes : List UInt8)
  /-- A device that takes everything and keeps nothing. -/
  | sink
  /-- A device that takes nothing. -/
  | full
deriving DecidableEq, Repr

/-- A tree of directories, files and devices. -/
structure Storage where
  /-- What stands under the names that lead to it from the root. -/
  items : List (List String × StoredItem)
  /-- Where paths begin that do not begin at the root. -/
  home : List String
deriving Repr

namespace Storage

/-- The most bytes of a name. -/
def maxName : Nat := 255

/-- The most bytes of a path. -/
def maxPath : Nat := 4095

/-- The bytes that are written at once. -/
def block : Nat := 8192

/-- The directories of a machine, and its devices; no files. -/
def bare : Storage where
  items :=
    (["bin", "dev", "etc", "home", "lib", "opt", "proc", "root", "run", "sbin", "srv", "sys",
      "tmp", "usr", "var"].map fun name => ([name], StoredItem.directory)) ++
    [(["dev", "null"], .sink), (["dev", "full"], .full)]
  home := ["home"]

/-! ## Paths -/

/-- What the names from the root lead to. -/
def item? (s : Storage) (place : List String) : Option StoredItem :=
  if place = [] then some .directory else s.items.lookup place

/-- Goes along names.  All but the last place on the way has to be a directory. -/
def walk (s : Storage) (place : List String) : List String → Except StorageFault (List String)
  | [] => .ok place
  | name :: rest =>
    match s.item? place with
    | none => .error .notFound
    | some .directory =>
      if name = "." then walk s place rest
      else if name = ".." then walk s place.dropLast rest
      else if maxName < name.utf8ByteSize then .error .nameTooLong
      else walk s (place ++ [name]) rest
    | some _ => .error .notDirectory

/-- The names of a path. -/
def names (path : String) : List String :=
  (path.splitOn "/").filter (· ≠ "")

/-- Goes along names from where a path begins, if the path is one at all. -/
def follow (s : Storage) (path : String) (along : List String) :
    Except StorageFault (List String) :=
  if '\x00' ∈ path.toList then .error .nulInName
  else if path = "" then .error .notFound
  else if maxPath < path.utf8ByteSize then .error .nameTooLong
  else s.walk (if path.startsWith "/" then [] else s.home) along

/-- The place that a path leads to.  It may be empty. -/
def place (s : Storage) (path : String) : Except StorageFault (List String) :=
  s.follow path (names path)

/-- The directory in which the last name of a path would stand. -/
def parent (s : Storage) (path : String) : Except StorageFault (List String) :=
  s.follow path ((names path).dropLast ++ ["."])

/-! ## Files -/

/-- The bytes of a file.  A path with a slash at its end only leads to directories. -/
def read (s : Storage) (path : String) : Except StorageFault (List UInt8) :=
  match s.place path with
  | .error f => .error f
  | .ok place =>
    match s.item? place with
    | none => .error .notFound
    | some .directory => .error .isDirectory
    | some item =>
      if path.endsWith "/" then .error .notDirectory
      else .ok (match item with | .file bytes => bytes | _ => [])

/-- What prevents writing a file, if anything does.  A file that is not there will be
    made.  A slash at the end of a path tells that it leads to no file, whatever its last
    name is. -/
def obstacle (s : Storage) (path : String) : Option StorageFault :=
  if path.endsWith "/" then
    match s.parent path with
    | .error f => some f
    | .ok _ => some .isDirectory
  else
    match s.place path with
    | .error f => some f
    | .ok place =>
      match s.item? place with
      | some .directory => some .isDirectory
      | some .full => some .noSpace
      | _ => none

/-- Puts bytes in a file in place of all others, if nothing prevents it. -/
def write (s : Storage) (path : String) (bytes : List UInt8) : Storage :=
  match s.obstacle path, s.place path with
  | none, .ok place =>
    if s.item? place = some .sink then s
    else { s with items := (place, .file bytes) :: s.items.filter fun i => i.1 ≠ place }
  | _, _ => s

end Storage

end OverlayCensus
