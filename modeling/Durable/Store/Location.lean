import Durable.Error
import Durable.Store.Disk
import Durable.Text.Percent

/-!
# Database locations

A location names a database and says how it is to be opened: `sqlite:` and the name, then a
question mark and a form of parameters. A database that is nobody's file lives as long as it is
open. Opening creates a file only if the location says so, and what is opened is made ready for
use, which takes the right to write unless it is a database already.
-/

namespace Durable

/-- Which database to open, and how. -/
structure Location where
  /-- The name of the file. -/
  name : String
  inMemory : Bool := false
  readOnly : Bool := false
  /-- Whether a file that is missing is created. -/
  creates : Bool := false
  /-- Whether nobody changes the file while it is open. -/
  immutable : Bool := false
  /-- The way files are accessed, if it is not the usual one. -/
  access : Option String := none
  deriving DecidableEq, Repr

/-- Where a database is kept. -/
inductive Medium where
  /-- Nowhere but in the open database. -/
  | transient
  | file (name : String)
  deriving DecidableEq, Repr

namespace Location

/-- The text after all the copies of a mark that it starts with. -/
def afterCopies (mark : List Char) : Nat → List Char → List Char
  | 0, text => text
  | copies + 1, text =>
    match mark.isPrefixOf? text with
    | some rest => afterCopies mark copies rest
    | none => text

/-- The text after the scheme of a location. -/
def afterScheme (text : List Char) : List Char :=
  let rest := afterCopies "sqlite://".toList text.length text
  afterCopies "sqlite:".toList rest.length rest

/-- Takes one parameter. Names and values that are not known are refused. -/
def parameter (l : Location) : Option String × Option String → Option Location
  | (some name, some value) =>
    match name, value with
    | "mode", "ro" => some { l with readOnly := true }
    | "mode", "rw" => some l
    | "mode", "rwc" => some { l with creates := true }
    | "mode", "memory" => some { l with inMemory := true }
    | "cache", "private" | "cache", "shared" => some l
    | "immutable", "true" | "immutable", "1" => some { l with immutable := true }
    | "immutable", "false" | "immutable", "0" => some { l with immutable := false }
    | "vfs", _ => some { l with access := some value }
    | _, _ => none
  | _ => none

/-- The location that a text names. -/
def parse? (text : String) : Option Location := do
  let (database, parameters) :=
    Text.cutAt 0x3f (Text.utf8 (String.ofList (afterScheme text.toList)))
  let l ←
    if database = Text.utf8 ":memory:" then some { name := "", inMemory := true }
    else (Text.ofUtf8? (Text.unescaped database)).map fun name => { name : Location }
  (Text.formPairs parameters).foldlM parameter l

/-- The ways files can be accessed. The last one keeps them in memory. -/
def knownAccess : List String :=
  ["unix", "unix-dotfile", "unix-excl", "unix-none", "memdb"]

/-- The name of the file that a `file:` address stands for; nothing if it is on another host. -/
def addressed? (address : List UInt8) : Option String :=
  let path := address.takeWhile fun b => b ≠ 0x23 ∧ b ≠ 0x3f
  let path :=
    match (Text.utf8 "//").isPrefixOf? path with
    | some rest =>
      let host := rest.takeWhile (· ≠ 0x2f)
      if host = [] ∨ host = Text.utf8 "localhost" then some (rest.drop host.length) else none
    | none => some path
  path.bind fun path => Text.ofUtf8? (Text.unescaped path)

/-- The name of the file to open. A name may itself be an address, unless how the file is accessed
    is said otherwise. -/
def fileName? (l : Location) : Option String :=
  match (Text.utf8 "file:").isPrefixOf? (Text.utf8 l.name) with
  | some address =>
    if l.immutable ∨ l.access.isSome then some l.name else addressed? address
  | none => some l.name

/-- Where the database of a location is kept; nothing if there is no such place. -/
def medium? (l : Location) : Option Medium := do
  guard (l.access.all (knownAccess.contains ·))
  guard (!l.name.toList.contains '\x00')
  let name ← fileName? l
  if l.inMemory ∨ name = "" ∨ name = ":memory:" then some .transient
  else some (.file name)

/-- What is reported when a location cannot be opened. -/
def notConnected (text : String) : Error :=
  .database "connect" ("Failed to connect to SQLite at " ++ text)

/-- What is reported when an open database cannot be made ready. -/
def notReady : Error :=
  .database "migrate" "Failed to run migrations"

/-- Opens the file at a path; the disk afterwards. -/
def openFile (l : Location) (refused : Error) (disk : Disk) (path : DiskPath) :
    Except Error Disk :=
  match disk.at? path with
  | some .directory => .error refused
  | some .database => .ok disk
  | some .foreign => .error notReady
  | none =>
    if !l.creates || l.readOnly || disk.at? path.dropLast ≠ some .directory then .error refused
    else if l.immutable then .error notReady
    else .ok (disk.put path .database)

/-- Opens the database that a text names; the disk afterwards. -/
def connect (disk : Disk) (text : String) : Except Error Disk :=
  match parse? text with
  | none => .error (notConnected text)
  | some l =>
    match l.medium? with
    | none => .error (notConnected text)
    | some .transient => if l.readOnly then .error notReady else .ok disk
    | some (.file name) =>
      if l.access = some "memdb" then
        if l.readOnly || l.immutable then .error notReady else .ok disk
      else openFile l (notConnected text) disk (disk.resolve name)

/-- Opens the database in a file, which is created if it is missing, and so are the directories
    that lead to it; the disk afterwards. -/
def connectFile (disk : Disk) (path : String) : Except Error Disk :=
  match disk.makeDirectories (disk.resolve path).dropLast with
  | none => .error (.database "create_dir" ("Failed to create directory of " ++ path))
  | some disk => connect disk ("sqlite:" ++ path ++ "?mode=rwc")

end Location

end Durable
