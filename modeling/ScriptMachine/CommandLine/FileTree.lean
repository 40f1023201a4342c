import ScriptMachine.CommandLine.Lister

set_option autoImplicit false

/-!
# Files held in memory

A tree of files in which a command can be carried out without touching a real one. A path is
followed name by name, from the root if it begins with a slash and from the working folder
otherwise. Only a folder can be entered, so a path that ends with a slash cannot name a file.
-/
namespace ScriptMachine

inductive FileNode where
  | folder
  | file (content : Text)
  /-- Forgets what is written to it, and is empty when it is read. -/
  | sink

/-- Nodes under the names that lead to them from the root, newest first. -/
structure FileTree where
  nodes : List (List Text × FileNode)
  workingFolder : List Text

namespace FileTree

def longestPath : Nat := 4095
def longestName : Nat := 255

def names (path : Text) : List Text := Text.split [Text.byte '/'] path

def staysHere (name : Text) : Bool := name.isEmpty || name == "."

def ofFiles (files : List (Text × Text)) : FileTree :=
  let workingFolder : List Text := ["tmp", "work"]
  let node (f : Text × Text) : List Text × FileNode :=
    (workingFolder ++ (names f.1).filter fun n => !staysHere n, .file f.2)
  ⟨files.map node ++ [(workingFolder, .folder), (["dev", "null"], .sink)], workingFolder⟩

/-- What stands at a place. Every place on the way to a node is a folder. -/
def node? (t : FileTree) (place : List Text) : Option FileNode :=
  match t.nodes.lookup place with
  | some n => some n
  | none => if t.nodes.any fun n => place.isPrefixOf n.1 then some .folder else none

def isFolder (t : FileTree) (place : List Text) : Bool :=
  match t.node? place with
  | some .folder => true
  | _ => false

def follow (t : FileTree) (place : List Text) : List Text → Option (List Text)
  | [] => some place
  | name :: rest =>
    if !t.isFolder place || longestName < name.length then none
    else if staysHere name then follow t place rest
    else if name == ".." then follow t place.dropLast rest
    else follow t (place ++ [name]) rest

/-- The place that a path names. A path ends at a NUL byte, and an empty one names nothing. -/
def resolve (t : FileTree) (path : Text) : Option (List Text) :=
  let path := path.untilNul
  if path.isEmpty || longestPath < path.length then none
  else t.follow (if path.head? = some (Text.byte '/') then [] else t.workingFolder) (names path)

def read (t : FileTree) (path : Text) : Except ReadError Text :=
  match (t.resolve path).bind t.node? with
  | some (.file content) => .ok content
  | some .sink => .ok []
  | some .folder => .error .directory
  | none => .error (.missing path)

def save (t : FileTree) (path content : Text) : Option FileTree :=
  match t.resolve path with
  | none => none
  | some place =>
    match t.node? place with
    | some .folder => none
    | some .sink => some t
    | _ => some { t with nodes := (place, .file content) :: t.nodes }

def conclude (t : FileTree) (o : Outcome) : FileTree × Console × Nat :=
  let saved :=
    match o.ending with
    | .save path content => t.save path content
    | .exit _ => some t
  (saved.getD t, o.afterSaving saved.isSome)

end FileTree

end ScriptMachine
