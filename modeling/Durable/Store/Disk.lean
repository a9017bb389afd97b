/-!
# Disks

What stands at the paths of a file system, as far as databases ask for it. A path is the list of
its names from the root on.
-/

namespace Durable

/-- What stands at a path. -/
inductive DiskEntry where
  | directory
  | database
  /-- A file that is no database. -/
  | foreign
  deriving DecidableEq, Repr

/-- A path, from the root on. -/
abbrev DiskPath := List String

/-- The entries of a file system. -/
structure Disk where
  /-- The directory that relative paths start from. -/
  here : DiskPath := []
  entries : List (DiskPath × DiskEntry) := []
  deriving Repr

namespace Disk

/-- What stands at a path. The root is a directory. -/
def at? (d : Disk) (path : DiskPath) : Option DiskEntry :=
  if path.isEmpty then some .directory else d.entries.lookup path

/-- Puts an entry at a path. -/
def put (d : Disk) (path : DiskPath) (entry : DiskEntry) : Disk :=
  { d with entries := (path, entry) :: d.entries }

/-- Follows one name from a path. -/
def follow (path : DiskPath) (name : String) : DiskPath :=
  if name = "" ∨ name = "." then path
  else if name = ".." then path.dropLast
  else path ++ [name]

/-- The path that a text names. -/
def resolve (d : Disk) (text : String) : DiskPath :=
  (text.splitOn "/").foldl follow (if text.startsWith "/" then [] else d.here)

/-- Sees to it that a path and all that lead to it are directories, if none of them is a file. -/
def makeDirectories (d : Disk) (path : DiskPath) : Option Disk :=
  (List.range (path.length + 1)).foldlM (fun d depth =>
    match d.at? (path.take depth) with
    | none => some (d.put (path.take depth) .directory)
    | some .directory => some d
    | some _ => none) d

end Disk

end Durable
