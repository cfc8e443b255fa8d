import Please.Fs.Tree
import Please.Lib.Except

/-!
# Collecting outputs

Model of `moveOutput` (`src/build/build_step.go`, lines 759–797). An output
that hashes like what is already at its place is left where it is. The hash of
a directory is one stream of its files' contents, with neither their names nor
where one ends, so different trees can hash alike.

The two paths are apart from each other, the hasher has no hash for either of
them, and the hash function has no collisions.

* `moveOutput_faithful_iff`: when the tree at the real path is the one that was
  built.
* `renamed_file_kept`: a file that was renamed in a directory is not noticed.
-/

namespace Please.Build

open Please.Fs
open Please.Lib.Except (bind_eq_ok)

/-- The trees at the two paths. -/
structure Disk where
  tmp : Option Node
  real : Option Node

/-- The steps of `moveOutput` that can fail. -/
inductive IOStep
  | hashTmp
  | hashReal
  | removeAll
  | mkdirAll
  | rename
  | copy
deriving DecidableEq

/-- What a call depends on: the environment, the hash function, the two paths, the
temporary directory of the target, and which system calls fail. -/
structure MoveCall (δ : Type) where
  env : Env
  sum : Bytes → δ
  tmpOutput : String
  realOutput : String
  tmpDir : String
  fails : IOStep → Bool

namespace MoveCall

variable {δ : Type} [DecidableEq δ] (call : MoveCall δ)

/-- `PathHasher.Hash` of a path. -/
def hash (step : IOStep) (path : String) (node : Option Node) : Except IOStep δ :=
  match node.bind (Node.bytes call.env path) with
  | none => .error step
  | some bytes => if call.fails step then .error step else .ok (call.sum bytes)

/-- A step that only can fail. -/
def attempt (step : IOStep) : Except IOStep Unit := if call.fails step then .error step else .ok ()

/-- The end of `moveOutput`, when nothing is at the real path. -/
def place (disk : Disk) : Except IOStep (Bool × Disk) := do
  call.attempt .mkdirAll
  -- in plz-out/tmp we can just move it, otherwise we need to copy
  if hasPrefix call.tmpOutput call.tmpDir then
    call.attempt .rename
    return (true, ⟨none, disk.tmp⟩)
  else
    call.attempt .copy
    match disk.tmp.bind (recursiveCopy call.env call.tmpOutput) with
    | none => throw .copy
    | some copy => return (true, ⟨disk.tmp, some copy⟩)

/-- `moveOutput`: whether the output has changed, and the trees afterwards. -/
def moveOutput (disk : Disk) : Except IOStep (Bool × Disk) := do
  let newHash ← call.hash .hashTmp call.tmpOutput disk.tmp
  match disk.real with
  | none => call.place disk
  | some _ =>
    let oldHash ← call.hash .hashReal call.realOutput disk.real
    if oldHash = newHash then return (false, disk)
    else
      call.attempt .removeAll
      call.place { disk with real := none }

/-! ## What a call leaves at the real path -/

variable {call} {disk disk' : Disk} {changed : Bool}

omit [DecidableEq δ] in
theorem hash_eq_ok {step : IOStep} {path : String} {node : Option Node} {d : δ}
    (h : call.hash step path node = .ok d) :
    ∃ bytes, node.bind (Node.bytes call.env path) = some bytes ∧ d = call.sum bytes := by
  unfold hash at h
  cases hb : node.bind (Node.bytes call.env path) with
  | none => rw [hb] at h; cases h
  | some bytes =>
    simp only [hb] at h
    split at h
    · cases h
    · cases h
      exact ⟨bytes, rfl, rfl⟩

omit [DecidableEq δ] in
theorem place_real (h : call.place disk = .ok (changed, disk')) : disk'.real = disk.tmp ↔
    hasPrefix call.tmpOutput call.tmpDir ∨ ∀ node, disk.tmp = some node →
      node.isSymlink = false := by
  obtain ⟨_, _, h⟩ := bind_eq_ok.mp h
  split at h
  · rename_i hp
    obtain ⟨_, _, h⟩ := bind_eq_ok.mp h
    cases h
    exact ⟨fun _ => .inl hp, fun _ => rfl⟩
  · rename_i hp
    obtain ⟨_, _, h⟩ := bind_eq_ok.mp h
    split at h
    · cases h
    · rename_i copy hcopy
      cases h
      obtain ⟨node, hnode, hcopy⟩ := Option.bind_eq_some_iff.mp hcopy
      rw [hnode, Option.some_inj, recursiveCopy_eq hcopy, or_iff_right hp]
      constructor
      · intro hlink n hn
        cases hn
        exact hlink
      · exact fun hall => hall node rfl

/-- The trees at the two paths, read in the order of a walk, are the same bytes. -/
def Alike (call : MoveCall δ) (disk : Disk) : Prop :=
  ∃ bytes, disk.tmp.bind (Node.bytes call.env call.tmpOutput) = some bytes ∧
    disk.real.bind (Node.bytes call.env call.realOutput) = some bytes

/-- The two ways a call returns: trees that are alike are left alone, otherwise the
new one is placed. -/
theorem moveOutput_cases (hsum : Function.Injective call.sum)
    (h : call.moveOutput disk = .ok (changed, disk')) :
    call.Alike disk ∧ disk' = disk ∨
      ¬ call.Alike disk ∧ call.place { disk with real := none } = .ok (changed, disk') := by
  obtain ⟨newHash, hnew, h⟩ := bind_eq_ok.mp h
  obtain ⟨bytes, hbytes, rfl⟩ := hash_eq_ok hnew
  split at h
  · rename_i hreal
    refine .inr ⟨?_, ?_⟩
    · rintro ⟨_, _, hb⟩
      rw [hreal] at hb
      cases hb
    · rw [← hreal]
      exact h
  · obtain ⟨oldHash, hold, h⟩ := bind_eq_ok.mp h
    obtain ⟨bytes', hbytes', rfl⟩ := hash_eq_ok hold
    split at h
    · rename_i heq
      cases h
      exact .inl ⟨⟨bytes, hbytes, by rw [hbytes', hsum heq]⟩, rfl⟩
    · rename_i hne
      obtain ⟨_, _, h⟩ := bind_eq_ok.mp h
      refine .inr ⟨?_, h⟩
      rintro ⟨b, hb, hb'⟩
      rw [hbytes] at hb
      rw [hbytes'] at hb'
      cases hb
      cases hb'
      exact hne rfl

/-- **When outputs are collected faithfully.** After a call that returned without
error, the tree at the real path is the one that was at the temporary one
exactly if this is the case already when the two are alike, and otherwise the
output is in the temporary directory or is no symlink. -/
theorem moveOutput_faithful_iff (call : MoveCall δ) (hsum : Function.Injective call.sum)
    (disk disk' : Disk) (changed : Bool) (h : call.moveOutput disk = .ok (changed, disk')) :
    disk'.real = disk.tmp ↔
      (call.Alike disk → disk.real = disk.tmp) ∧
      (¬ call.Alike disk → hasPrefix call.tmpOutput call.tmpDir ∨
        ∀ node, disk.tmp = some node → node.isSymlink = false) := by
  rcases moveOutput_cases hsum h with ⟨halike, rfl⟩ | ⟨hno, hplace⟩
  · exact ⟨fun hr => ⟨fun _ => hr, fun hno => absurd halike hno⟩, fun hok => hok.1 halike⟩
  · rw [place_real hplace]
    exact ⟨fun hok => ⟨fun ha => absurd ha hno, fun _ => hok⟩, fun hok => hok.2 hno⟩

end MoveCall

/-- The output `out` of `//:b`. -/
def outOfB : MoveCall Bytes where
  env := ⟨"/repo", fun _ => none⟩
  sum := id
  tmpOutput := "plz-out/tmp/b._build/out"
  realOutput := "plz-out/gen/out"
  tmpDir := "plz-out/tmp/b._build"
  fails _ := false

/-- A directory with one file. -/
def oneFile (name : String) (contents : Bytes) : Node := .dir (.cons name (.file contents) .nil)

theorem moveOutput_faithful_iff_changed : ∃ disk',
    outOfB.moveOutput ⟨some (oneFile "a" [1]), some (oneFile "a" [0])⟩ = .ok (true, disk') ∧
    disk'.real = some (oneFile "a" [1]) := by
  obtain ⟨disk', hmove⟩ : ∃ disk', outOfB.moveOutput
      ⟨some (oneFile "a" [1]), some (oneFile "a" [0])⟩ = .ok (true, disk') := ⟨_, rfl⟩
  refine ⟨disk', hmove, ?_⟩
  refine (MoveCall.moveOutput_faithful_iff outOfB Function.injective_id _ _ _ hmove).mpr ⟨?_, ?_⟩
  · rintro ⟨bytes, hb, hb'⟩
    cases hb
    cases hb'
  · exact fun _ => .inl rfl

/-- The file `b` of the old output is now called `a`: the old output is kept. -/
theorem renamed_file_kept : Function.Injective outOfB.sum ∧
    outOfB.moveOutput ⟨some (oneFile "a" [120]), some (oneFile "b" [120])⟩ =
      .ok (false, ⟨some (oneFile "a" [120]), some (oneFile "b" [120])⟩) ∧
    some (oneFile "b" [120]) ≠ some (oneFile "a" [120]) := by
  refine ⟨Function.injective_id, rfl, ?_⟩
  unfold oneFile
  simp

end Please.Build
