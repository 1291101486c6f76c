import ApuScore.CommandLine.Host
/-
  A file store — the pure host of commands.

  Files, directories and devices from the top of a system, the standard input, and
  the lines printed so far. Names are walked part by part, from the top or from the
  working directory: every part but the last must be a directory, two dots lead
  upwards, and nothing lies above the top.
-/

namespace ApuScore

/-- A way from the top of the system, part by part. -/
abbrev Place := List String

/-- A file that keeps nothing. -/
inductive Device where
  /-- Reads as empty and takes all bytes. -/
  | sink
  /-- Takes no bytes. -/
  | full
  /-- Reads the standard input. -/
  | input
  deriving DecidableEq, Repr

/-- Files, directories and streams. -/
structure FileStore where
  /-- The working directory. -/
  home : Place
  /-- What the working directory is called in full names. -/
  homeName : String
  files : List (Place × Bytes) := []
  dirs : List Place :=
    ["bin", "boot", "dev", "etc", "home", "lib", "media", "mnt", "opt", "proc", "root", "run",
     "sbin", "srv", "sys", "tmp", "usr", "var"].map fun dir => [dir]
  devices : List (Place × Device) :=
    [(["dev", "null"], .sink), (["dev", "full"], .full), (["dev", "stdin"], .input),
     (["dev", "fd", "0"], .input)]
  input : Bytes := []
  /-- Lines printed, latest first. -/
  printed : List String := []
  /-- Lines complained, latest first. -/
  complained : List String := []

/-- What stands at a place. -/
inductive Entry where
  | nothing
  | file (bytes : Bytes)
  | device (d : Device)
  | directory

namespace FileStore

/-- The store with files of the given names in the working directory. -/
def withFiles (s : FileStore) (files : List (String × Bytes)) : FileStore :=
  { s with files := files.map fun f => (s.home ++ f.1.splitOn "/", f.2) }

/-- Whether a place is a directory: it was made, or something is kept in it. -/
def hasDir (s : FileStore) (place : Place) : Bool :=
  place.isPrefixOf s.home || s.dirs.contains place ||
    s.files.any (fun f => place.isPrefixOf f.1) || s.devices.any (fun d => place.isPrefixOf d.1)

def entry (s : FileStore) (place : Place) : Entry :=
  match s.files.lookup place with
  | some b => .file b
  | none =>
    match s.devices.lookup place with
    | some d => .device d
    | none => if s.hasDir place then .directory else .nothing

def maxPart : Nat := 255

def maxName : Nat := 4095

/-- The place that `parts` lead to from `place`; the last part may be missing. -/
def walk (s : FileStore) (place : Place) : List String → Except SystemFault Place
  | [] => .ok place
  | part :: rest =>
    match s.entry place with
    | .nothing => .error .notFound
    | .directory =>
      if part = "" ∨ part = "." then s.walk place rest
      else if part = ".." then s.walk place.dropLast rest
      else if maxPart < part.utf8ByteSize then .error .nameTooLong
      else s.walk (place ++ [part]) rest
    | _ => .error .notDirectory

/-- Where the walk along a name begins. -/
def start (s : FileStore) (name : String) : Place := if name.startsWith "/" then [] else s.home

/-- The place that a name of any length leads to. -/
def locate (s : FileStore) (name : String) : Except SystemFault Place :=
  s.walk (s.start name) (name.splitOn "/")

def find (s : FileStore) (name : String) : Except SystemFault Place :=
  if maxName < name.utf8ByteSize then .error .nameTooLong else s.locate name

/-- The directory that a name's last part lies in, and the last part, which may be
dots. The name of the top has no last part. -/
def findParent (s : FileStore) (name : String) : Except SystemFault (Place × Option String) :=
  if maxName < name.utf8ByteSize then .error .nameTooLong
  else do
    let parts := (name.splitOn "/").filter (· ≠ "")
    let dir ← s.walk (s.start name) (parts.dropLast ++ ["."])
    return (dir, parts.getLast?)

/-- Whether a part is dots that lead nowhere or upwards. -/
def isDots (part : String) : Bool := part = "." || part = ".."

def read (s : FileStore) (name : String) : Except SystemFault (Bytes × FileStore) := do
  let place ← s.find name
  match s.entry place with
  | .nothing => .error .notFound
  | .file b => .ok (b, s)
  | .device .input => .ok (s.input, { s with input := [] })
  | .device _ => .ok ([], s)
  | .directory => .error .isDirectory

def put (s : FileStore) (place : Place) (bytes : Bytes) : FileStore :=
  { s with files := (place, bytes) :: s.files.filter fun f => f.1 ≠ place }

/-- The place that a file of this name is written to. A name that ends in a slash is
a directory's, whether or not there is one. -/
def target (s : FileStore) (name : String) : Except SystemFault Place := do
  let (_, last) ← s.findParent name
  if name.endsWith "/" && !last.any isDots then .error .isDirectory else s.find name

def write (s : FileStore) (name : String) (bytes : Bytes) : Except SystemFault FileStore := do
  let place ← s.target name
  match s.entry place with
  | .directory => .error .isDirectory
  | .device .full => if bytes.isEmpty then .ok s else .error .noSpace
  | .device _ => .ok s
  | _ => .ok (s.put place bytes)

def makeDir (s : FileStore) (name : String) : Except SystemFault FileStore := do
  match ← s.findParent name with
  | (_, none) => .error .alreadyExists
  | (dir, some last) =>
    if isDots last then .error .alreadyExists
    else
      let place ← s.walk dir [last]
      match s.entry place with
      | .nothing => .ok { s with dirs := place :: s.dirs }
      | _ => .error .alreadyExists

def isDir (s : FileStore) (name : String) : Bool :=
  match s.find name with
  | .error _ => false
  | .ok place =>
    match s.entry place with
    | .directory => true
    | _ => false

def fullName (s : FileStore) (place : Place) : String :=
  if s.home.isPrefixOf place then
    String.intercalate "/" (s.homeName :: place.drop s.home.length)
  else "/" ++ String.intercalate "/" place

/-- The full name of what a name leads to. The standard input has none. -/
def fullName? (s : FileStore) (name : String) : Option String :=
  match s.locate name with
  | .error _ => none
  | .ok place =>
    match s.entry place with
    | .nothing | .device .input => none
    | _ => some (s.fullName place)

/-- A change of the store as a system call. -/
def change (f : FileStore → Except SystemFault FileStore) :
    StateM FileStore (Except SystemFault Unit) := fun s =>
  match f s with
  | .ok s => (.ok (), s)
  | .error e => (.error e, s)

/-- The store as a host. The standard input is empty once it has been read. -/
def host : Host (StateM FileStore) where
  read name := fun s =>
    match s.read name with
    | .ok (bytes, s) => (.ok bytes, s)
    | .error e => (.error e, s)
  write name bytes := change fun s => s.write name bytes
  makeDir name := change fun s => s.makeDir name
  isDir name := fun s => (s.isDir name, s)
  fullName? name := fun s => (s.fullName? name, s)
  input := fun s => (.ok s.input, { s with input := [] })
  print line := fun s => ((), { s with printed := line :: s.printed })
  complain line := fun s => ((), { s with complained := line :: s.complained })
  gunzip := Gzip.unpack

/-- The exit code of a command line, and the store after it. -/
def run (s : FileStore) (args : List String) : Nat × FileStore :=
  runCommand host args s

/-- The files of `after` in the working directory that `s` does not have as they are,
by name. -/
def changes (s after : FileStore) : List (String × Bytes) :=
  after.files.filterMap fun f =>
    if s.home.isPrefixOf f.1 && s.files.lookup f.1 ≠ some f.2 then
      some (String.intercalate "/" (f.1.drop s.home.length), f.2)
    else none

end FileStore

end ApuScore
