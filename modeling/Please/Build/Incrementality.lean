import Please.Build.RuleHash
import Please.Fs.Attr

/-!
# When a target is rebuilt

Model of `src/build/incrementality.go`: `needsBuilding` (lines 48–93), `sourceHash` and
`RuleHash` (113–148), `readRuleHashFromXattrs` and `writeRuleHash` (299–372),
`targetHash` (413–421) and `secretHash` (488–504), for targets that are not filegroups.

`writeRuleHash` records the hashes of a target on its outputs and its metadata file, or in
a separate file if there are no outputs; `needsBuilding` reads them back. For a target
without outputs that its build could modify the record is read from the metadata file, on
which `writeRuleHash` does not put it.

* `not_rebuilt_iff`: which unchanged targets are not rebuilt.
-/

namespace Please.Core

/-! ## Names of files -/

namespace BuildTarget

variable (target : BuildTarget)

/-- `BuildTarget.BuildCouldModifyTarget` (`src/core/build_target.go`, lines 2007–2009). -/
def buildCouldModifyTarget : Bool := target.postBuildFunction || !target.outputDirectories.isEmpty

/-- `BuildTarget.OutDir` (lines 424–431); the parts of a label are clean paths, of which
`path.Join` leaves out the empty ones. -/
def outDir : String :=
  let base := if target.isSubrepo then "plz-out/subrepos" else
    if target.isBinary then "plz-out/bin" else "plz-out/gen"
  "/".intercalate ([base, target.label.subrepo, target.label.packageName].filter (· ≠ ""))

/-- `BuildTarget.Outputs` (lines 897–913) of a target that is not a filegroup. -/
def sortedOutputs : List String :=
  (target.outputs ++ target.namedOutputs.values.flatten).insertionSort (· ≤ ·)

/-- `BuildTarget.FullOutputs` (lines 916–923). -/
def fullOutputs : List String := target.sortedOutputs.map (target.outDir ++ "/" ++ ·)

/-- `BuildTarget.TargetBuildMetadataFileName` (lines 1941–1943). -/
def targetBuildMetadataFileName : String := ".target_build_metadata_" ++ target.label.name

/-- `BuildTarget.AllSecrets` (lines 1146–1159). -/
def allSecrets : List String := target.secrets ++ target.namedSecrets.values.flatten

end BuildTarget

end Please.Core

namespace Please.Build

open Please.Core Please.Lib Please.Fs

/-! ## Hashes -/

def hashLength : ℕ := 20

def fullHashLength : ℕ := 5 * hashLength

/-- A SHA-1 hash. -/
abbrev Digest := { b : Bytes // b.length = hashLength }

/-- A record: the rule before and after the build, the configuration, the sources and the
secrets. -/
abbrev FullHash := { b : Bytes // b.length = fullHashLength }

namespace FullHash

/-- The slice `h[i*hashLength : (i+1)*hashLength]`. -/
def part (h : FullHash) (i : Fin 5) : Digest :=
  ⟨(h.1.drop (hashLength * i)).take hashLength, by
    rw [List.length_take, List.length_drop, h.2]
    unfold fullHashLength hashLength
    omega⟩

/-- The hashes one after the other. -/
def ofParts (rule postRule config source secret : Digest) : FullHash :=
  ⟨rule.1 ++ (postRule.1 ++ (config.1 ++ (source.1 ++ secret.1))), by
    simp only [List.length_append, rule.2, postRule.2, config.2, source.2, secret.2]
    rfl⟩

theorem slice_flatten (parts : List Digest) {i : ℕ} (h : i < parts.length) :
    ((parts.map (·.1)).flatten.drop (hashLength * i)).take hashLength = parts[i].1 := by
  induction parts generalizing i with
  | nil => cases h
  | cons d _ ih =>
    rw [List.map_cons, List.flatten_cons]
    cases i with
    | zero => exact List.take_left' d.2
    | succ =>
      rw [Nat.mul_succ, Nat.add_comm, ← List.drop_drop, List.drop_left' d.2]
      exact ih (Nat.lt_of_succ_lt_succ h)

@[simp] theorem part_ofParts (a b c d e : Digest) (i : Fin 5) :
    (ofParts a b c d e).part i = [a, b, c, d, e].get i := by
  refine Subtype.ext (Eq.trans ?_ (slice_flatten [a, b, c, d, e] i.2))
  simp [part, ofParts]

end FullHash

/-- What is written for a rule without secrets. -/
def noSecrets : Digest := ⟨List.replicate hashLength 45, List.length_replicate⟩

/-! ## State -/

inductive FileKind
  | file
  | dir
  | symlink
  deriving DecidableEq

/-- What this file reads of `core.BuildState` and of the machine. -/
structure BuildState where
  /-- SHA-1 -/
  sum : Bytes → Digest
  hashState : HashState
  /-- `state.Hashes.Config` -/
  configHash : Digest
  xattrsSupported : Bool
  lset : String → LSetOutcome
  writeFile : String → Bool
  /-- the root of the repository -/
  root : String
  lstat : String → Option FileKind
  /-- what hashing a path reads; an error is one of `os.IsNotExist` or another -/
  read : String → Except Bool Bytes
  expandHomePath : String → String
  /-- `core.IterSources` -/
  iterSources : BuildTarget → List String
  /-- `FullPaths` of `AllTools` -/
  toolPaths : BuildTarget → List String
  shouldRebuild : BuildTarget → Bool

/-- A target with its field `RuleHash`. -/
structure HashedTarget extends BuildTarget where
  memo : Option Digest

namespace BuildState

variable (state : BuildState) (target : HashedTarget)

def pathExists (path : String) : Bool := (state.lstat path).isSome

def fileExists (path : String) : Bool :=
  match state.lstat path with
  | some kind => kind ≠ .dir
  | none => false

def attrHost : AttrHost where
  xattrsEnabled := state.xattrsSupported
  isSymlink path := state.lstat path = some .symlink
  lset := state.lset
  writeFile := state.writeFile

/-- `PathHasher.Hash` (`src/fs/hash.go`, lines 83–122). The error for a path that does not
exist has the text of `os.ErrNotExist` but does not wrap it. -/
def pathHash (path : String) : Except Bool Digest :=
  let path := ensureRelative state.root path
  if state.pathExists path then (state.read path).map state.sum else .error false

/-- `RuleHash` with `runtime = false`. -/
def ruleHashOf (postBuild : Bool) : Digest :=
  if postBuild && target.buildCouldModifyTarget then
    ruleHash state.sum state.hashState target.toBuildTarget
  else target.memo.getD (ruleHash state.sum state.hashState target.toBuildTarget)

/-- What `sourceHash` writes. -/
def sourceWritten : Except Bool Bytes := do
  let sources ← (state.iterSources target.toBuildTarget).mapM fun src =>
    (state.pathHash src).map fun result => result.1 ++ utf8 src
  let tools ← (state.toolPaths target.toBuildTarget).mapM fun path =>
    (state.pathHash path).map fun result => result.1
  return sources.flatten ++ tools.flatten

/-- `sourceHash`. -/
def sourceHash : Except Bool Digest := (state.sourceWritten target).map state.sum

/-- What `secretHash` writes. -/
def secretWritten : Except Bool Bytes := do
  let secrets ← target.secrets.mapM fun secret =>
    (state.pathHash (state.expandHomePath secret)).map fun ph => ph.1
  return secrets.flatten

/-- `secretHash`. -/
def secretHash : Except Bool Digest :=
  if target.secrets.isEmpty then .ok noSecrets
  else match state.secretWritten target with
    | .ok b => .ok (state.sum b)
    -- Not having the secrets is not an error yet.
    | .error true => .ok noSecrets
    | .error false => .error false

/-- `targetHash` and then `secretHash`. -/
def recordedHash : Except Bool FullHash := do
  let sourceHash ← state.sourceHash target
  let secretHash ← state.secretHash target
  return FullHash.ofParts (state.ruleHashOf target false) (state.ruleHashOf target true)
    state.configHash sourceHash secretHash

end BuildState

/-- `targetBuildMetadataFileName` (lines 374–376). -/
def metadataFile (target : BuildTarget) : String :=
  target.outDir ++ "/" ++ target.targetBuildMetadataFileName

/-- The file whose separate file takes the record of a target without outputs. -/
def recordFile (target : BuildTarget) : String := target.outDir ++ "/" ++ target.label.name

/-! ## Writing and reading the record -/

section

variable (state : BuildState) (target : HashedTarget) (attrs : Attrs FullHash)

/-- `writeRuleHash`. -/
def writeRuleHash : Option (Attrs FullHash) :=
  match state.recordedHash target with
  | .error _ => none
  | .ok hash =>
    if target.fullOutputs.isEmpty then
      -- Target has no outputs, have to use the fallback file.
      recordAttrFile state.attrHost attrs (recordFile target.toBuildTarget) hash
    else do
      let attrs ← target.fullOutputs.foldlM
        (fun attrs output => recordAttr state.attrHost attrs output hash) attrs
      if state.fileExists (metadataFile target.toBuildTarget) then
        recordAttr state.attrHost attrs (metadataFile target.toBuildTarget) hash
      else some attrs

/-- The loop of `readRuleHashFromXattrs` (lines 303–313) after the record `h`; `none` is the
early return. -/
def readOutputs : List String → Option FullHash → Option (Option FullHash)
  | [], h => some h
  | output :: rest, h =>
    match readAttr state.attrHost attrs output with
    | none => none
    | some b => if h ≠ none ∧ h ≠ some b then none else readOutputs rest (some b)

/-- The record that `readRuleHashFromXattrs` finds. -/
def readHash (postBuild : Bool) : Option FullHash :=
  match readOutputs state attrs target.fullOutputs none with
  | none => none
  | some (some h) => some h
  | some none =>
    if target.buildCouldModifyTarget && !postBuild then
      readAttr state.attrHost attrs (metadataFile target.toBuildTarget)
    else readAttrFile attrs (recordFile target.toBuildTarget)

structure RuleHashes where
  rule : Bytes := []
  config : Bytes := []
  source : Bytes := []
  secret : Bytes := []

/-- `readRuleHashFromXattrs`. -/
def readRuleHashFromXattrs (postBuild : Bool) : RuleHashes :=
  match readHash state target attrs postBuild with
  | none => {}
  | some h =>
    { rule := (h.part (if postBuild then 1 else 0)).1
      config := (h.part 2).1
      source := (h.part 3).1
      secret := (h.part 4).1 }

/-- `needsBuilding`. -/
def needsBuilding (postBuild : Bool) : Bool :=
  if !state.fileExists (metadataFile target.toBuildTarget) then true
  else
    let oldHashes := readRuleHashFromXattrs state target attrs postBuild
    if oldHashes.config ≠ state.configHash.1 then true
    else if oldHashes.rule ≠ (state.ruleHashOf target postBuild).1 then true
    else match state.sourceHash target with
      | .error _ => true
      | .ok newSourceHash =>
        if oldHashes.source ≠ newSourceHash.1 then true
        else match state.secretHash target with
          | .error _ => true
          | .ok newSecretHash =>
            if oldHashes.secret ≠ newSecretHash.1 then true
            else if target.fullOutputs.any fun output => !state.pathExists output then true
            else state.shouldRebuild target.toBuildTarget

/-- The record is that of the current rule, configuration, sources and secrets. -/
structure Fits (postBuild : Bool) (h : FullHash) : Prop where
  rule : h.part (if postBuild then 1 else 0) = state.ruleHashOf target postBuild
  config : h.part 2 = state.configHash
  source : state.sourceHash target = .ok (h.part 3)
  secret : state.secretHash target = .ok (h.part 4)

theorem needsBuilding_eq_false_iff (postBuild : Bool) :
    needsBuilding state target attrs postBuild = false ↔
      state.fileExists (metadataFile target.toBuildTarget) = true ∧
      (∃ h, readHash state target attrs postBuild = some h ∧ Fits state target postBuild h) ∧
      (∀ output ∈ target.fullOutputs, state.pathExists output = true) ∧
      state.shouldRebuild target.toBuildTarget = false := by
  have hstep : ∀ (c : Prop) [Decidable c] (b : Bool),
      (if c then true else b) = false ↔ ¬ c ∧ b = false := by
    intro c _ b
    by_cases hc : c <;> simp [hc]
  unfold needsBuilding readRuleHashFromXattrs
  cases hread : readHash state target attrs postBuild with
  | none =>
    have hempty : ([] : Bytes) ≠ state.configHash.1 := fun h =>
      absurd (congrArg List.length h) (by rw [state.configHash.2]; decide)
    simp [hempty]
  | some h =>
    cases hsource : state.sourceHash target with
    | error =>
      refine iff_of_false (by simp) ?_
      rintro ⟨-, ⟨_, -, hfits⟩, -⟩
      exact absurd (hsource.symm.trans hfits.source) (by simp)
    | ok =>
      cases hsecret : state.secretHash target with
      | error =>
        refine iff_of_false (by simp) ?_
        rintro ⟨-, ⟨_, -, hfits⟩, -⟩
        exact absurd (hsecret.symm.trans hfits.secret) (by simp)
      | ok =>
        simp only [hstep, not_not, ← Subtype.ext_iff]
        constructor
        · rintro ⟨hmeta, hconfig, hrule, hsrc, hsec, hout, hforced⟩
          refine ⟨by simpa using hmeta, ⟨h, rfl, hrule, hconfig, ?_, ?_⟩,
            by simpa using hout, hforced⟩
          · rw [hsource, hsrc]
          · rw [hsecret, hsec]
        · rintro ⟨hmeta, ⟨h', hh', hfits⟩, hout, hforced⟩
          obtain rfl : h = h' := Option.some.inj hh'
          refine ⟨by simpa using hmeta, hfits.config, hfits.rule, ?_, ?_,
            by simpa using hout, hforced⟩
          · exact (Except.ok.inj (hsource.symm.trans hfits.source)).symm
          · exact (Except.ok.inj (hsecret.symm.trans hfits.secret)).symm

/-! ## What is recorded fits -/

theorem recordedHash_eq_ok {hash : FullHash} (h : state.recordedHash target = .ok hash) :
    ∃ source secret, state.sourceHash target = .ok source ∧ state.secretHash target = .ok secret ∧
      hash = FullHash.ofParts (state.ruleHashOf target false) (state.ruleHashOf target true)
        state.configHash source secret := by
  obtain ⟨source, hsource, h⟩ := Except.bind_eq_ok.mp h
  obtain ⟨secret, hsecret, h⟩ := Except.bind_eq_ok.mp h
  exact ⟨source, secret, hsource, hsecret, (Except.ok.inj h).symm⟩

theorem fits_recordedHash {hash : FullHash} (h : state.recordedHash target = .ok hash)
    (postBuild : Bool) : Fits state target postBuild hash := by
  obtain ⟨source, secret, hsource, hsecret, rfl⟩ := recordedHash_eq_ok state target h
  refine ⟨?_, ?_, ?_, ?_⟩
  · cases postBuild <;> simp
  · simp
  · simpa using hsource
  · simpa using hsecret

/-! ## Reading back what was written -/

variable {state target attrs} {attrs' : Attrs FullHash} {hash : FullHash}

theorem exists_recordedHash (hw : writeRuleHash state target attrs = some attrs') :
    ∃ hash, state.recordedHash target = .ok hash := by
  cases h : state.recordedHash target with
  | ok hash => exact ⟨hash, rfl⟩
  | error => simp [writeRuleHash, h] at hw

/-- After a record was put on files one after the other all of them have it. -/
theorem readAttr_foldlM {files : List String}
    (h : files.foldlM (fun attrs file => recordAttr state.attrHost attrs file hash) attrs =
      some attrs') {file : String}
    (hfile : file ∈ files ∨ readAttr state.attrHost attrs file = some hash) :
    readAttr state.attrHost attrs' file = some hash := by
  induction files generalizing attrs with
  | nil =>
    obtain rfl : attrs = attrs' := Option.some.inj h
    exact hfile.resolve_left (List.not_mem_nil)
  | cons _ _ ih =>
    rw [List.foldlM_cons, Option.bind_eq_bind, Option.bind_eq_some_iff] at h
    obtain ⟨attrs₁, hfirst, hrest⟩ := h
    refine ih hrest ?_
    rcases hfile with hmem | hread
    · rcases List.mem_cons.mp hmem with rfl | hmem
      · exact .inr (readAttr_recordAttr hfirst)
      · exact .inl hmem
    · right
      rcases readAttr_recordAttr_or hfirst file with hnew | hold
      · exact hnew
      · rw [hold, hread]

/-- The loop over the outputs finds a record that all of them have. -/
theorem readOutputs_eq {outputs : List String} {h : Option FullHash} (hh : h = none ∨ h = some hash)
    (hall : ∀ output ∈ outputs, readAttr state.attrHost attrs output = some hash) :
    readOutputs state attrs outputs h = some (if outputs = [] then h else some hash) := by
  induction outputs generalizing h with
  | nil => rfl
  | cons output rest ih =>
    have hread := hall output List.mem_cons_self
    have hrest : ∀ o ∈ rest, readAttr state.attrHost attrs o = some hash :=
      (List.forall_mem_cons.mp hall).2
    have hsame : ¬ (h ≠ none ∧ h ≠ some hash) := fun ⟨hnone, hsome⟩ => hh.elim hnone hsome
    rw [readOutputs, hread]
    show (if h ≠ none ∧ h ≠ some hash then none else readOutputs state attrs rest (some hash)) = _
    rw [if_neg hsame, ih (Or.inr rfl) hrest]
    simp

theorem fallbackFileName_append_ne (dir name : String) {added : String} (hadded : added ≠ "") :
    fallbackFileName (dir ++ "/" ++ (added ++ name)) ≠ fallbackFileName (dir ++ "/" ++ name) := by
  have hlen : added.length ≠ 0 := fun h => hadded (String.length_eq_zero_iff.mp h)
  refine fallbackFileName_injective.ne (ne_of_apply_ne String.length ?_)
  simp only [String.length_append]
  omega

/-- The separate file of a target without outputs is not that of its metadata file. -/
theorem fallbackFileName_metadataFile (target : BuildTarget) :
    fallbackFileName (metadataFile target) ≠ fallbackFileName (recordFile target) :=
  fallbackFileName_append_ne target.outDir target.label.name (by decide)

/-- Where the record is read back: a target without outputs that its build could modify has
on its metadata file what it had before. -/
theorem readHash_writeRuleHash (hw : writeRuleHash state target attrs = some attrs')
    (hhash : state.recordedHash target = .ok hash) (postBuild : Bool) :
    readHash state target attrs' postBuild =
      if target.fullOutputs = [] ∧ target.buildCouldModifyTarget = true ∧ postBuild = false then
        readAttr state.attrHost attrs (metadataFile target.toBuildTarget)
      else some hash := by
  simp only [writeRuleHash, hhash] at hw
  by_cases hnone : target.fullOutputs = []
  · rw [if_pos (by simp [hnone])] at hw
    have hmeta := readAttr_recordAttrFile_of_ne hw
      (fallbackFileName_metadataFile target.toBuildTarget)
    have hfile := readAttrFile_recordAttrFile hw
    simp only [readHash, hnone, readOutputs, true_and, hmeta, hfile, Bool.and_eq_true,
      Bool.not_eq_true']
  · rw [if_neg (by simp [hnone]), Option.bind_eq_bind, Option.bind_eq_some_iff] at hw
    obtain ⟨attrs₁, hfold, hlast⟩ := hw
    have hall : ∀ output ∈ target.fullOutputs, readAttr state.attrHost attrs' output =
        some hash := by
      intro output hmem
      have hread := readAttr_foldlM hfold (.inl hmem)
      split at hlast
      · exact (readAttr_recordAttr_or hlast output).elim id fun h => h.trans hread
      · obtain rfl : attrs₁ = attrs' := Option.some.inj hlast
        exact hread
    simp [readHash, readOutputs_eq (Or.inl rfl) hall, hnone]

/-- A target whose hashes were recorded and that did not change is not rebuilt, exactly if its
metadata file and outputs exist and, for a target without outputs that its build could
modify, its metadata file happens to have a record that fits. -/
theorem not_rebuilt_iff
    (hforced : state.shouldRebuild target.toBuildTarget = false)
    (hw : writeRuleHash state target attrs = some attrs') :
    (needsBuilding state target attrs' false = false ∧
        needsBuilding state target attrs' true = false) ↔
      state.fileExists (metadataFile target.toBuildTarget) = true ∧
      (∀ output ∈ target.fullOutputs, state.pathExists output = true) ∧
      (target.fullOutputs ≠ [] ∨ target.buildCouldModifyTarget = false ∨
        ∃ h, readAttr state.attrHost attrs (metadataFile target.toBuildTarget) = some h ∧
          Fits state target false h) := by
  obtain ⟨hash, hhash⟩ := exists_recordedHash hw
  have hfits := fits_recordedHash state target hhash
  have hread := readHash_writeRuleHash hw hhash
  simp only [needsBuilding_eq_false_iff, hforced, and_true]
  by_cases hslip : target.fullOutputs = [] ∧ target.buildCouldModifyTarget = true
  · simp only [hread, hslip, true_and, if_true]
    tauto
  · have hboth : ∀ postBuild, ∃ h, readHash state target attrs' postBuild = some h ∧
        Fits state target postBuild h := by
      intro postBuild
      rw [hread, if_neg fun h => hslip ⟨h.1, h.2.1⟩]
      exact ⟨hash, rfl, hfits postBuild⟩
    have hcond : target.fullOutputs ≠ [] ∨ target.buildCouldModifyTarget = false := by
      by_contra hnot
      simp only [ne_eq, not_or, not_not, Bool.not_eq_false] at hnot
      exact hslip hnot
    constructor
    · rintro ⟨⟨hmeta, -, hout⟩, -⟩
      exact ⟨hmeta, hout, hcond.imp_right .inl⟩
    · rintro ⟨hmeta, hout, -⟩
      exact ⟨⟨hmeta, hboth false, hout⟩, hmeta, hboth true, hout⟩

end

/-! ## Two targets -/

/-- A state in which every file exists and takes attributes, and has one byte. -/
def plainState : BuildState where
  sum b := ⟨(b ++ List.replicate hashLength 0).take hashLength, by simp⟩
  hashState := optState
  configHash := ⟨List.replicate hashLength 7, List.length_replicate⟩
  xattrsSupported := true
  lset _ := .ok
  writeFile _ := true
  root := "/repo"
  lstat _ := some .file
  read _ := .ok [1]
  expandHomePath path := path
  iterSources _ := []
  toolPaths _ := []
  shouldRebuild _ := false

def noAttrs : Attrs FullHash := ⟨fun _ => none, fun _ => none⟩

/-- `//pkg:lib` with one output. -/
def withOutput : HashedTarget :=
  { BuildTarget.new ⟨"pkg", "lib", ""⟩ with outputs := ["lib.a"], memo := none }

/-- `//pkg:lib` with a post-build function and no outputs. -/
def withPostBuild : HashedTarget :=
  { BuildTarget.new ⟨"pkg", "lib", ""⟩ with postBuildFunction := true, memo := none }

theorem not_rebuilt_withOutput : ∃ attrs',
    writeRuleHash plainState withOutput noAttrs = some attrs' ∧
      needsBuilding plainState withOutput attrs' false = false ∧
      needsBuilding plainState withOutput attrs' true = false := by
  refine ⟨_, rfl, ?_⟩
  exact (not_rebuilt_iff rfl rfl).mpr ⟨rfl, fun _ _ => rfl, .inr (.inl rfl)⟩

/-- The target with a post-build function is rebuilt although nothing has changed. -/
theorem rebuilt_withPostBuild : ∃ attrs',
    writeRuleHash plainState withPostBuild noAttrs = some attrs' ∧
      plainState.fileExists (metadataFile withPostBuild.toBuildTarget) = true ∧
      withPostBuild.fullOutputs = [] ∧
      needsBuilding plainState withPostBuild attrs' false = true :=
  ⟨_, rfl, rfl, rfl, rfl⟩

end Please.Build
