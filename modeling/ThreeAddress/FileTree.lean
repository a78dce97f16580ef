import ThreeAddress.Text

/-! The files that the command line can see: a working directory with what is below it, and the
directories above it. Paths go by the rules of Unix. -/
namespace ThreeAddress

/-- Why an operation on files fails. -/
inductive FileError where
  | notFound
  | notDirectory
  | isDirectory
  | exists_
  | nameTooLong
  | invalid
deriving DecidableEq, Repr

namespace FileError

def message : FileError → Text
  | .notFound => "no such file or directory"
  | .notDirectory => "not a directory"
  | .isDirectory => "is a directory"
  | .exists_ => "file exists"
  | .nameTooLong => "file name too long"
  | .invalid => "invalid argument"

end FileError

inductive Entry where
  | file (content : Text)
  | directory

/-- A directory that a path can start from. -/
inductive Base where
  /-- The directory so many levels above the working directory. -/
  | above (levels : Nat)
  | root
deriving DecidableEq, Repr

/-- A place among the files: the names that lead to it from a base. -/
structure Place where
  base : Base
  names : List Text
deriving DecidableEq, Repr

namespace Place

/-- The working directory. -/
def working : Place := ⟨.above 0, []⟩

def root : Place := ⟨.root, []⟩

def child (p : Place) (name : Text) : Place := { p with names := p.names ++ [name] }

/-- The directory that a place is in. The root is in itself. -/
def parent : Place → Place
  | ⟨.above levels, []⟩ => ⟨.above (levels + 1), []⟩
  | ⟨.root, []⟩ => ⟨.root, []⟩
  | ⟨base, name :: names⟩ => ⟨base, (name :: names).dropLast⟩

/-- `p` is `q` or lies on the way to it from their base. -/
def leadsTo (p q : Place) : Bool := p.base == q.base && p.names.isPrefixOf q.names

end Place

/-- The entries by their place. A directory need not have an entry of its own if there is something
in it, and every base is a directory. -/
structure FileTree where
  entries : List (Place × Entry)

namespace FileTree

/-- The parts of a path between its slashes. -/
def components (path : Text) : List Text := path.split (Text.ascii '/')

/-- A part of a path that stays in the same directory. -/
def isIdle (part : Text) : Bool := part.isEmpty || part == "."

/-- The tree with the given files in the working directory and nothing else; a name that ends in a
slash is a directory. -/
def ofList (files : List (Text × Text)) : FileTree :=
  ⟨files.map fun (name, content) =>
    (⟨.above 0, (components name).filter (!isIdle ·)⟩,
      if name.getLast? == some (Text.ascii '/') then .directory else .file content)⟩

/-- What stands at a place. -/
def get? (t : FileTree) (place : Place) : Option Entry :=
  if place.names.isEmpty then some .directory
  else match t.entries.lookup place with
    | some entry => some entry
    | none => if t.entries.any fun (p, _) => place.leadsTo p then some .directory else none

/-- The files in the working directory and below it, with their paths. -/
def files (t : FileTree) : List (Text × Text) :=
  t.entries.filterMap fun (place, entry) =>
    match place, entry with
    | ⟨.above 0, names⟩, .file content => some (Text.join "/" names, content)
    | _, _ => none

/-- Puts a file at a place, over a file that is there. -/
def put (t : FileTree) (place : Place) (content : Text) : FileTree :=
  if (t.entries.lookup place).isSome then
    ⟨t.entries.map fun (p, entry) => (p, if p == place then .file content else entry)⟩
  else ⟨t.entries ++ [(place, .file content)]⟩

/-- Takes away what stands at a place. -/
def remove (t : FileTree) (place : Place) : FileTree := ⟨t.entries.filter (·.1 != place)⟩

/-- The greatest length of a name in a directory. -/
def nameLimit : Nat := 255

/-- The greatest length of a path. -/
def pathLimit : Nat := 4095

/-- The place reached from the directory `place` through the given parts. All but the last have to
be directories. -/
def walk (t : FileTree) (place : Place) : List Text → Except FileError Place
  | [] => .ok place
  | part :: rest =>
    if isIdle part then walk t place rest
    else if part == ".." then walk t place.parent rest
    else if nameLimit < part.length then .error .nameTooLong
    else
      let next := place.child part
      if rest.isEmpty then .ok next
      else match t.get? next with
        | some .directory => walk t next rest
        | some (.file _) => .error .notDirectory
        | none => .error .notFound

/-- The place that a path leads to. -/
def resolve (t : FileTree) (path : Text) : Except FileError Place :=
  if path.contains 0 then .error .invalid
  else if path.isEmpty then .error .notFound
  else if pathLimit < path.length then .error .nameTooLong
  else if path.head? == some (Text.ascii '/') then t.walk .root (components path)
  else t.walk .working (components path)

/-- An operation that failed on a path. -/
def failure (operation path : Text) (e : FileError) : Text :=
  operation ++ " " ++ path ++ ": " ++ e.message

/-- The content of a file, or a message. -/
def read (t : FileTree) (path : Text) : Except Text Text :=
  match t.resolve path with
  | .error e => .error (failure "open" path e)
  | .ok place =>
    match t.get? place with
    | some (.file content) => .ok content
    | some .directory => .error (failure "read" path .isDirectory)
    | none => .error (failure "open" path .notFound)

/-- Removes empty parts, `.` and `x/..` from the parts of a path; `kept` holds those kept so far in
reverse. -/
private def simplify (rooted : Bool) (kept : List Text) : List Text → List Text
  | [] => kept.reverse
  | part :: rest =>
    if isIdle part then simplify rooted kept rest
    else if part == ".." then
      match kept with
      | [] => if rooted then simplify rooted [] rest else simplify rooted [part] rest
      | last :: before =>
        if last == ".." then simplify rooted (part :: kept) rest
        else simplify rooted before rest
    else simplify rooted (part :: kept) rest

/-- The shortest path that is equivalent by its text alone. -/
def clean (path : Text) : Text :=
  let rooted := path.head? == some (Text.ascii '/')
  let parts := Text.join "/" (simplify rooted [] (components path))
  if rooted then "/" ++ parts
  else if parts.isEmpty then "."
  else parts

/-- The directory part of a path. -/
def parent (path : Text) : Text :=
  clean (path.reverse.dropWhile (· != Text.ascii '/')).reverse

/-- A name in a directory. -/
def inDirectory (directory name : Text) : Text :=
  if directory.getLast? == some (Text.ascii '/') then directory ++ name
  else directory ++ "/" ++ name

/-- The message of a rename that failed. -/
def renameFailure (source target : Text) (e : FileError) : Text :=
  "rename " ++ source ++ " " ++ target ++ ": " ++ e.message

/-- How many names are tried for a new file. -/
def attempts : Nat := 10000

/-- Creates an empty file in a directory, under a name that is not taken, and yields its name, its
place and the tree with it. The name ends in a number that is drawn for each attempt; `drawn` tells
it by how many attempts are left. -/
def create (t : FileTree) (directory : Text) (drawn : Nat → Nat) :
    Nat → Except Text (Text × Place × FileTree)
  | 0 => .error (failure "createtemp" (inDirectory directory ".p2c-*") .exists_)
  | left + 1 =>
    let name := inDirectory directory (".p2c-" ++ Text.ofNat (drawn left))
    match t.resolve name with
    | .error e => .error (failure "open" name e)
    | .ok place =>
      match t.get? place with
      | some _ => create t directory drawn left
      | none => .ok (name, place, t.put place [])

/-- Moves the file at the place `source` to a path, over a file that is there. -/
def rename (t : FileTree) (source : Place) (path : Text) : Except FileError FileTree :=
  match t.resolve path with
  | .error e => .error e
  | .ok place =>
    match t.get? place, t.get? source with
    | some .directory, _ => .error .exists_
    | _, some (.file content) => .ok ((t.remove source).put place content)
    | _, _ => .error .notFound

/-- Writes a file all at once: the content goes to a new file in the same directory, which is then
renamed. The new file is taken away again if that fails. -/
def write (t : FileTree) (drawn : Nat → Nat) (path content : Text) :
    Except Text Unit × FileTree :=
  match t.create (parent path) drawn attempts with
  | .error message => (.error message, t)
  | .ok (name, place, t) =>
    let filled := t.put place content
    match filled.rename place path with
    | .ok renamed => (.ok (), renamed)
    | .error e => (.error (renameFailure name path e), filled.remove place)

end FileTree

end ThreeAddress
