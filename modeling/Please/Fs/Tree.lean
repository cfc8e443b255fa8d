import Mathlib.Data.List.Basic

/-!
# File trees, and how they are hashed and copied

Model of `PathHasher.hash` (`src/fs/hash.go`, lines 174–238, without extended
attributes and timestamps) and `RecursiveCopy` (`src/fs/copy.go`, lines 48–92)
on trees of files, symlinks and directories. `godirwalk` visits the entries of
a directory in the order of their names; that is the order they are listed in
here.

* `recursiveCopy_eq`: a copy is the original, but for a symlink at the top.
-/

namespace Please.Fs

/-- A byte string. -/
abbrev Bytes := List UInt8

mutual

/-- What a path can be. -/
inductive Node
  | file (contents : Bytes)
  | symlink (dest : String)
  | dir (entries : Entries)

/-- The entries of a directory, by name. -/
inductive Entries
  | nil
  | cons (name : String) (node : Node) (rest : Entries)

end

/-- What hashing depends on besides the tree: the root of the repository, and what
is read from a path that is a symlink (`none` if that fails). -/
structure Env where
  root : String
  readThrough : String → Option Bytes

/-- `boolTrueHashValue`. -/
def boolTrueHashValue : Bytes := [2]

/-- `strings.HasPrefix`. -/
def hasPrefix (s p : String) : Bool := p.toList.isPrefixOf s.toList

/-- `filepath.IsAbs`. -/
def isAbs (path : String) : Bool := hasPrefix path "/"

/-- `PathHasher.ensureRelative`. -/
def ensureRelative (root path : String) : String :=
  if hasPrefix path root then
    String.ofList ((path.toList.drop root.length).dropWhile (· = '/'))
  else path

mutual

/-- What the callback of `WalkMode` writes for an entry: the contents of a file, a
mark for a symlink. -/
def Node.walkBytes : Node → Bytes
  | .file contents => contents
  | .symlink _ => boolTrueHashValue
  | .dir entries => entries.walkBytes

def Entries.walkBytes : Entries → Bytes
  | .nil => []
  | .cons _ node rest => node.walkBytes ++ rest.walkBytes

end

/-- What `hash` writes for a path: a symlink at the top is hashed by its
destination, or by what it leads to if that is outside the repository. -/
def Node.bytes (env : Env) (path : String) : Node → Option Bytes
  | .symlink dest =>
    let rel := ensureRelative env.root dest
    if (rel ≠ dest ∨ ¬ isAbs dest) ∧ ¬ isAbs path then
      some (boolTrueHashValue ++ rel.toUTF8.toList)
    else (env.readThrough path).map (boolTrueHashValue ++ ·)
  | .dir entries => some entries.walkBytes
  | .file contents => some contents

mutual

/-- What is made of an entry of a directory that is copied. -/
def Node.copyEntry : Node → Node
  | .file contents => .file contents
  | .symlink dest => .symlink dest
  | .dir entries => .dir entries.copyAll

def Entries.copyAll : Entries → Entries
  | .nil => .nil
  | .cons name node rest => .cons name node.copyEntry rest.copyAll

end

/-- `RecursiveCopy`: a path that is not a directory goes through `CopyFile`, which
opens it, and so follows a symlink. -/
def recursiveCopy (env : Env) (path : String) : Node → Option Node
  | .dir entries => some (.dir entries.copyAll)
  | .symlink _ => (env.readThrough path).map .file
  | .file contents => some (.file contents)

mutual

theorem Node.copyEntry_eq (node : Node) : node.copyEntry = node := by
  cases node with
  | file => rfl
  | symlink => rfl
  | dir entries => rw [Node.copyEntry, entries.copyAll_eq]

theorem Entries.copyAll_eq (entries : Entries) : entries.copyAll = entries := by
  cases entries with
  | nil => rfl
  | cons _ node rest => rw [Entries.copyAll, node.copyEntry_eq, rest.copyAll_eq]

end

def Node.isSymlink : Node → Bool
  | .symlink _ => true
  | _ => false

/-- What a copy makes of a tree. -/
theorem recursiveCopy_eq {env : Env} {path : String} {node copy : Node}
    (h : recursiveCopy env path node = some copy) : copy = node ↔ node.isSymlink = false := by
  cases node with
  | file =>
    cases h
    exact ⟨fun _ => rfl, fun _ => rfl⟩
  | dir entries =>
    cases h
    rw [entries.copyAll_eq]
    exact ⟨fun _ => rfl, fun _ => rfl⟩
  | symlink =>
    obtain ⟨contents, _, rfl⟩ := Option.map_eq_some_iff.mp h
    exact ⟨nofun, nofun⟩

end Please.Fs
