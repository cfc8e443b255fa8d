import Please.Build.BuildStep

/-!
# How often the post-build function runs

`runPostBuildFunction` documents that the post-build function of a target runs
only once. `buildTarget` has three calls of it: when it checks whether the
target can be reused, when it has found the target's metadata in the cache, and
after the build. The second is guarded by a flag that the first sets, the third
only by the output of the second.

* `postBuilds_le_one_iff`: exactly when one local build runs it at most once.
-/

namespace Please.Build

open Please.Lib Please.Lib.Traced

/-- The action runs the post-build function. -/
def isPostBuild : Action → Bool
  | .runPostBuildFunction _ => true
  | _ => false

/-- How often the post-build function is run. -/
def postBuilds {α : Type} (x : BuildM α) : ℕ := x.count isPostBuild

/-- `buildTarget` gets as far as checking whether the target can be reused. -/
structure Outcomes.Started (o : Outcomes) (target : Target) : Prop where
  validated : o.validateBuildTargetBeforeBuild = .ok ()
  preBuild : target.preBuildFunction = true → o.runPreBuildFunction = .ok ()
  notPrepareOnly : o.isPrepareOnly = false
  locked : o.acquireExclusiveFileLock = .ok ()
  downloaded : o.downloadInputsIfNeeded = .ok ()

/-- The metadata the cache has for the target, if the cache is used. -/
def Outcomes.cachedMetadata (o : Outcomes) : Option BuildMetadata :=
  if o.hasCache && !o.shouldRebuild then o.retrieveMetadata else none

/-- A target that is not reused is really built: nothing fails before the end of
the build command, and the cache does not have its artifacts. -/
structure Outcomes.Builds (o : Outcomes) : Prop where
  directories : o.prepareDirectories = .ok ()
  hashed : ∃ key, o.mustShortTargetHash .reuse = .ok key
  missing : o.cachedMetadata.isSome → (retrieveArtifacts o).result = .ok false
  secrets : o.checkSecrets = .ok ()
  sources : o.prepareSources = .ok ()
  command : ∃ metadata, o.build = .ok metadata
  outputDirectories : ∃ outs, o.addOutputDirectoriesToBuildOutput = .ok outs

/-- The target looked reusable, but no longer after its post-build function. -/
structure Outcomes.RebuildsAfterReuse (o : Outcomes) : Prop where
  unchanged : o.needsBuilding false = false
  loaded : ∃ metadata, o.loadTargetMetadata = .ok metadata
  ran : ∀ msg, o.runPostBuildFunction .reuse ≠ .error (.panic msg)
  changed : o.needsBuilding true = true

/-- The target needs building, and the cache has metadata with an empty output
for it. -/
structure Outcomes.EmptyCachedOutput (o : Outcomes) : Prop where
  changed : o.needsBuilding false = true
  found : ∃ metadata, o.cachedMetadata = some metadata ∧ metadata.stdout = ""
  ran : o.runPostBuildFunction .cache = .ok ()

/-- The outcomes with which the post-build function is run twice. -/
def RunsTwice (o : Outcomes) (target : Target) : Prop :=
  target.postBuildFunction = true ∧ target.isFilegroup = false ∧ o.Started target ∧ o.Builds ∧
    (o.RebuildsAfterReuse ∨ o.EmptyCachedOutput)

/-! ## The parts that never run it -/

variable (o : Outcomes)

theorem postBuilds_buildFilegroup : postBuilds (buildFilegroup o) = 0 := by
  refine count_bind_eq_zero _ rfl fun changed => count_bind_eq_zero _ ?_ fun _ =>
    count_bind_eq_zero _ rfl fun _ => rfl
  cases changed
  · rfl
  · exact count_bind_eq_zero _ rfl fun _ => rfl

theorem postBuilds_retrieveArtifacts : postBuilds (retrieveArtifacts o) = 0 := by
  unfold retrieveArtifacts
  split
  · rfl
  · refine count_bind_eq_zero _ rfl fun key => count_bind_eq_zero _ rfl fun _ => ?_
    cases o.retrieveOutputs with
    | none => rfl
    | some =>
      refine count_bind_eq_zero _ (by rw [count_when]; split_ifs <;> rfl) fun _ =>
        count_bind_eq_zero _ rfl fun _ => count_bind_eq_zero _ rfl fun _ => ?_
      cases o.calculateAndCheckRuleHash .cache with
      | error => rfl
      | ok =>
        refine count_bind_eq_zero _ rfl fun _ => count_bind_eq_zero _ rfl fun _ => ?_
        split <;> rfl

theorem postBuilds_runBuild (key : Hash) : postBuilds (runBuild o key) = 0 :=
  count_bind_eq_zero _ rfl fun _ => count_bind_eq_zero _ rfl fun _ => count_bind_eq_zero _ rfl
    fun _ => count_bind_eq_zero _ rfl fun _ => rfl

theorem postBuilds_storeOutputs (target : Target) (key : Hash) (md : BuildMetadata) :
    postBuilds (storeOutputs o target key md) = 0 := by
  refine count_bind_eq_zero _ rfl fun _ => count_bind_eq_zero _ rfl fun _ =>
    count_bind_eq_zero _ rfl fun _ => count_bind_eq_zero _ rfl fun _ => count_bind_eq_zero _ rfl
      fun _ => ?_
  rw [count_when]
  split_ifs
  · refine count_bind_eq_zero _ rfl fun newKey => count_bind_eq_zero _ ?_ fun _ => rfl
    rw [count_when]
    split_ifs <;> rfl
  · rfl

/-! ## The three calls -/

theorem postBuilds_runPostBuildFunction (site : Site) (output prev : String) :
    postBuilds (runPostBuildFunction o site output prev) = if prev = "" then 1 else 0 := by
  unfold runPostBuildFunction
  split_ifs <;> first | rfl | contradiction

variable {o : Outcomes} {target : Target}

theorem buildCouldModifyTarget_of_post (hpost : target.postBuildFunction = true) :
    target.buildCouldModifyTarget = true := by
  rw [Target.buildCouldModifyTarget, hpost]; rfl

theorem postBuilds_reapplyUpdates : postBuilds (reapplyUpdates o target) =
    if target.postBuildFunction = true ∧ o.loadTargetMetadata.toBool = true then 1 else 0 := by
  unfold postBuilds reapplyUpdates
  cases o.loadTargetMetadata with
  | error => exact (if_neg fun h => Bool.false_ne_true h.2).symm
  | ok =>
    refine (count_perform_bind _ rfl _ _).trans ?_
    cases target.postBuildFunction <;> rfl

/-- The first call is made exactly if the target looks reusable and its
metadata can be read. -/
theorem postBuilds_checkReuse : postBuilds (checkReuse o target) =
    if target.postBuildFunction = true ∧ target.isFilegroup = false ∧
      o.needsBuilding false = false ∧ o.loadTargetMetadata.toBool = true then 1 else 0 := by
  by_cases h : (!target.isFilegroup && !o.needsBuilding false) = true
  · have h' : target.isFilegroup = false ∧ o.needsBuilding false = false := by simpa using h
    have hre : postBuilds (checkReuse o target) =
        if target.buildCouldModifyTarget then postBuilds (reapplyUpdates o target) else 0 := by
      unfold checkReuse
      rw [if_pos h]
      refine (count_bind_left _ fun _ => ?_).trans (count_when _ _ _)
      split <;> rfl
    rw [hre]
    split
    · simp [postBuilds_reapplyUpdates, h']
    · rename_i hmod
      exact (if_neg fun h => hmod (buildCouldModifyTarget_of_post h.1)).symm
  · rw [checkReuse, if_neg h, if_neg]
    · rfl
    · rintro ⟨_, hf, hb, _⟩
      exact h (by simp [hf, hb])

/-! ### The cache -/

/-- The second call is made exactly if the cache has metadata and the first call
has not been made. -/
theorem postBuilds_tryCache (haveRun : Bool) (key : Hash) :
    postBuilds (tryCache o target haveRun key) =
      if target.postBuildFunction = true ∧ o.cachedMetadata.isSome = true ∧ haveRun = false
        then 1 else 0 := by
  unfold tryCache Outcomes.cachedMetadata
  by_cases hc : (o.hasCache && !o.shouldRebuild) = true
  · rw [if_pos hc, if_pos hc]
    split
    · cases o.retrieveMetadata with
      | none => exact (if_neg fun h => Bool.false_ne_true h.2.1).symm
      | some =>
        refine (count_perform_bind _ rfl _ _).trans ((count_perform_bind _ rfl _ _).trans ?_)
        refine (count_bind_left _ fun _ => ?_).trans ?_
        · refine count_bind_eq_zero _ (postBuilds_retrieveArtifacts o) fun got => ?_
          split
          · exact count_bind_eq_zero _ rfl fun _ => rfl
          · rfl
        · cases target.postBuildFunction <;> cases haveRun <;> rfl
    · rename_i hmod
      rw [if_neg fun h => hmod (buildCouldModifyTarget_of_post h.1)]
      refine count_bind_eq_zero _ (postBuilds_retrieveArtifacts o) fun got => ?_
      split <;> rfl
  · rw [if_neg hc, if_neg hc, if_neg fun h => Bool.false_ne_true h.2.1]
    rfl

/-! ### The build -/

theorem result_runBuild (key : Hash) : (runBuild o key).result.toBool = true ↔
    o.checkSecrets = .ok () ∧ o.prepareSources = .ok () ∧ (∃ metadata, o.build = .ok metadata) ∧
      ∃ outs, o.addOutputDirectoriesToBuildOutput = .ok outs := by
  have hok : (runBuild o key).result.toBool = true ↔ ∃ md, (runBuild o key).result = .ok md := by
    cases (runBuild o key).result with
    | ok md => exact iff_of_true rfl ⟨md, rfl⟩
    | error => exact iff_of_false nofun nofun
  unfold runBuild at hok ⊢
  simp only [hok, result_bind_eq_ok, result_perform, result_pure]
  constructor
  · rintro ⟨_, _, hsecrets, _, hsources, md, hbuild, outs, houts, _⟩
    exact ⟨hsecrets, hsources, ⟨md, hbuild⟩, outs, houts⟩
  · rintro ⟨hsecrets, hsources, ⟨md, hbuild⟩, outs, houts⟩
    exact ⟨_, (), hsecrets, (), hsources, md, hbuild, outs, houts, rfl⟩

/-- The third call is made exactly if the build succeeds and there is no output
from the second. -/
theorem postBuilds_buildAndStore (key : Hash) (out : String) :
    postBuilds (buildAndStore o target key out) =
      if target.postBuildFunction = true ∧ (runBuild o key).result.toBool = true ∧ out = ""
        then 1 else 0 := by
  unfold postBuilds buildAndStore
  rw [count_bind, show (runBuild o key).count isPostBuild = 0 from postBuilds_runBuild o key,
    Nat.zero_add]
  cases (runBuild o key).result with
  | error => exact (if_neg fun h => Bool.false_ne_true h.2.1).symm
  | ok metadata =>
    refine (count_bind_left _ fun _ => ?_).trans ?_
    · exact count_bind_eq_zero _ rfl fun _ => postBuilds_storeOutputs o target key metadata
    · rw [count_when]
      have hcall := postBuilds_runPostBuildFunction o .build metadata.stdout out
      rw [postBuilds] at hcall
      simp [hcall, Except.toBool, ite_and]

/-- The part of `rebuild` after the cache. -/
def afterCache (o : Outcomes) (target : Target) (haveRun : Bool) (key : Hash) : ℕ :=
  match (tryCache o target haveRun key).result with
  | .ok (some out) => postBuilds (buildAndStore o target key out)
  | _ => 0

variable (o target) in
theorem postBuilds_rebuild (haveRun : Bool) :
    (∃ key, o.prepareDirectories = .ok () ∧ o.mustShortTargetHash .reuse = .ok key ∧
      postBuilds (rebuild o target haveRun) =
        postBuilds (tryCache o target haveRun key) + afterCache o target haveRun key) ∨
    postBuilds (rebuild o target haveRun) = 0 ∧ ¬ o.Builds := by
  unfold postBuilds rebuild
  rw [count_perform_bind _ rfl]
  cases hdirs : o.prepareDirectories with
  | error => exact .inr ⟨rfl, fun h => by cases hdirs.symm.trans h.directories⟩
  | ok =>
    cases hkey : o.mustShortTargetHash .reuse with
    | error =>
      refine .inr ⟨rfl, ?_⟩
      rintro ⟨-, ⟨key, h⟩, -⟩
      cases hkey.symm.trans h
    | ok key =>
      refine .inl ⟨key, rfl, rfl, ?_⟩
      refine (count_perform_bind _ rfl _ _).trans ((count_bind _ _ _).trans ?_)
      unfold afterCache
      cases (tryCache o target haveRun key).result with
      | error => rfl
      | ok out => cases out <;> rfl

section post

variable (hpost : target.postBuildFunction = true)
include hpost

theorem result_reapplyUpdates :
    (reapplyUpdates o target).result = .ok () ↔ (∃ metadata, o.loadTargetMetadata = .ok metadata) ∧
      ∀ msg, o.runPostBuildFunction .reuse ≠ .error (.panic msg) := by
  have hran : ∀ output, ((runPostBuildFunction o .reuse output "").ignoring Failure.isErr).result =
      .ok () ↔ ∀ msg, o.runPostBuildFunction .reuse ≠ .error (.panic msg) := by
    intro output
    rw [result_ignoring_eq_ok]
    constructor
    · intro h msg hmsg
      exact absurd (h _ hmsg) Bool.false_ne_true
    · intro h e he
      cases e with
      | err => rfl
      | panic msg => exact absurd he (h msg)
  unfold reapplyUpdates
  rw [hpost, result_bind_eq_ok]
  constructor
  · rintro ⟨metadata, hload, h⟩
    exact ⟨⟨metadata, hload⟩, (hran _).mp h⟩
  · rintro ⟨⟨metadata, hload⟩, h⟩
    exact ⟨metadata, hload, result_bind_eq_ok.mpr ⟨(), rfl, (hran _).mpr h⟩⟩

variable (haveRun : Bool)

theorem result_checkReuse :
    (checkReuse o target).result = .ok (some haveRun) ↔
      haveRun = false ∧ (target.isFilegroup = true ∨ o.needsBuilding false = true) ∨
      haveRun = true ∧ target.isFilegroup = false ∧ o.RebuildsAfterReuse := by
  have hmod := buildCouldModifyTarget_of_post hpost
  by_cases h : (!target.isFilegroup && !o.needsBuilding false) = true
  · have h' : target.isFilegroup = false ∧ o.needsBuilding false = false := by simpa using h
    rw [checkReuse, if_pos h, hmod, result_bind_eq_ok]
    have hrest : (if !true || !o.needsBuilding true then do
        act (.setState .reused); act .buildLinks; return none
        else return some true : BuildM (Option Bool)).result = .ok (some haveRun) ↔
        haveRun = true ∧ o.needsBuilding true = true := by
      cases o.needsBuilding true
      · exact iff_of_false nofun (by simp)
      · simp [eq_comm]
    simp only [hrest, h', Bool.false_eq_true, or_self, and_false, false_or, true_and]
    constructor
    · rintro ⟨_, hre, hrun, hneeds⟩
      obtain ⟨hload, hran⟩ := (result_reapplyUpdates hpost).mp hre
      exact ⟨hrun, h'.2, hload, hran, hneeds⟩
    · rintro ⟨hrun, hre⟩
      exact ⟨(), (result_reapplyUpdates hpost).mpr ⟨hre.loaded, hre.ran⟩, hrun, hre.changed⟩
  · rw [checkReuse, if_neg h]
    have h' : target.isFilegroup = true ∨ o.needsBuilding false = true := by
      by_contra hne
      exact h (by simpa using hne)
    constructor
    · intro hr
      cases hr
      exact .inl ⟨rfl, h'⟩
    · rintro (⟨rfl, _⟩ | ⟨_, hf, hre⟩)
      · rfl
      · rcases h' with h' | h'
        · rw [h'] at hf; cases hf
        · rw [hre.unchanged] at h'; cases h'

theorem result_tryCache (key : Hash) (out : String) :
    (tryCache o target haveRun key).result = .ok (some out) ↔
      o.cachedMetadata = none ∧ out = "" ∨
      ∃ metadata, o.cachedMetadata = some metadata ∧
        (haveRun = false → o.runPostBuildFunction .cache = .ok ()) ∧
        (retrieveArtifacts o).result = .ok false ∧
        out = if haveRun then "" else metadata.stdout := by
  have hmod := buildCouldModifyTarget_of_post hpost
  -- without metadata `postBuildOutput` stays empty
  have hnone : (Except.ok (some "") : Except Failure _) = .ok (some out) ↔
      (none : Option BuildMetadata) = none ∧ out = "" ∨
      ∃ metadata : BuildMetadata, none = some metadata ∧
        (haveRun = false → o.runPostBuildFunction .cache = .ok ()) ∧
        (retrieveArtifacts o).result = .ok false ∧
        out = if haveRun then "" else metadata.stdout := by
    simp [eq_comm]
  unfold tryCache Outcomes.cachedMetadata
  by_cases hc : (o.hasCache && !o.shouldRebuild) = true
  · rw [if_pos hc, if_pos hc, if_pos hmod]
    cases o.retrieveMetadata with
    | none => exact hnone
    | some metadata =>
      simp only [result_bind_eq_ok, hpost, Bool.true_and]
      constructor
      · rintro ⟨_, _, _, _, _, hran, got, hgot, h⟩
        cases got with
        | true =>
          obtain ⟨_, _, h⟩ := result_bind_eq_ok.mp h
          cases h
        | false =>
          cases h
          refine .inr ⟨metadata, rfl, fun hr =>
            result_when_eq_ok.mp hran (by rw [hr]; rfl), hgot, ?_⟩
          cases haveRun <;> rfl
      · rintro (⟨h, _⟩ | ⟨md, hmd, hran, hgot, rfl⟩)
        · cases h
        · cases hmd
          refine ⟨(), rfl, (), rfl, (), ?_, false, hgot, ?_⟩
          · exact result_when_eq_ok.mpr fun hr => hran (by simpa using hr)
          · cases haveRun <;> rfl
  · rw [if_neg hc, if_neg hc]
    exact hnone

/-! ## Main result -/

/-- The third call is made exactly if the target is really built and nothing
is known of an earlier output. -/
theorem afterCache_eq {key : Hash}
    (hdirs : o.prepareDirectories = .ok ()) (hkey : o.mustShortTargetHash .reuse = .ok key) :
    afterCache o target haveRun key ≤ 1 ∧ (afterCache o target haveRun key = 1 ↔ o.Builds ∧
      (haveRun = false → ∀ metadata, o.cachedMetadata = some metadata →
        o.runPostBuildFunction .cache = .ok () ∧ metadata.stdout = "")) := by
  have hle : afterCache o target haveRun key ≤ 1 := by
    unfold afterCache
    split
    · rw [postBuilds_buildAndStore]; split_ifs <;> omega
    · exact Nat.zero_le 1
  -- the third call needs `tryCache` to go on with an empty output
  have hiff : afterCache o target haveRun key = 1 ↔
      (tryCache o target haveRun key).result = .ok (some "") ∧
        (runBuild o key).result.toBool = true := by
    unfold afterCache
    split
    · rename_i out hout
      rw [postBuilds_buildAndStore, hout]
      by_cases h : (runBuild o key).result.toBool = true ∧ out = ""
      · rw [if_pos ⟨hpost, h⟩]; exact iff_of_true rfl ⟨by rw [h.2], h.1⟩
      · rw [if_neg fun h' => h h'.2]
        refine iff_of_false (by omega) ?_
        rintro ⟨h1, h2⟩
        cases h1
        exact h ⟨h2, rfl⟩
    · rename_i hne
      refine iff_of_false (by omega) fun h => hne "" h.1
  refine ⟨hle, hiff.trans ?_⟩
  rw [result_tryCache hpost, result_runBuild]
  constructor
  · rintro ⟨hcache, hsecrets, hsources, hbuild, houts⟩
    rcases hcache with ⟨hnone, _⟩ | ⟨metadata, hsome, hran, hmiss, hout⟩
    · refine ⟨⟨hdirs, ⟨key, hkey⟩, ?_, hsecrets, hsources, hbuild, houts⟩, ?_⟩
      · rw [hnone]; exact nofun
      · rw [hnone]; exact nofun
    · refine ⟨⟨hdirs, ⟨key, hkey⟩, fun _ => hmiss, hsecrets, hsources, hbuild, houts⟩, ?_⟩
      intro hr md hmd
      rw [hsome] at hmd
      cases hmd
      rw [hr] at hout
      exact ⟨hran hr, hout.symm⟩
  · rintro ⟨hb, hempty⟩
    refine ⟨?_, hb.secrets, hb.sources, hb.command, hb.outputDirectories⟩
    cases hsome : o.cachedMetadata with
    | none => exact .inl ⟨rfl, rfl⟩
    | some metadata =>
      refine .inr ⟨metadata, rfl, fun hr => (hempty hr metadata hsome).1, ?_, ?_⟩
      · exact hb.missing (by rw [hsome]; rfl)
      · cases haveRun with
        | true => rfl
        | false => exact (hempty rfl metadata hsome).2.symm

/-- With the first call made, `rebuild` makes another one exactly if the target
is really built. -/
theorem postBuilds_rebuild_haveRun :
    postBuilds (rebuild o target true) ≤ 1 ∧
      (postBuilds (rebuild o target true) = 1 ↔ o.Builds) := by
  obtain ⟨key, hdirs, hkey, h⟩ | ⟨h, hnot⟩ := postBuilds_rebuild o target true
  · obtain ⟨hle, hiff⟩ := afterCache_eq (o := o) hpost true hdirs hkey
    rw [h, postBuilds_tryCache, if_neg (by simp), Nat.zero_add]
    exact ⟨hle, hiff.trans (by simp)⟩
  · rw [h]
    exact ⟨Nat.zero_le 1, iff_of_false (by omega) hnot⟩

/-- Without it, `rebuild` makes two exactly if the target is really built after
the cache had metadata with an empty output. -/
theorem postBuilds_rebuild_haveNotRun :
    postBuilds (rebuild o target false) ≤ 1 ↔ ¬ (o.Builds ∧ o.runPostBuildFunction .cache = .ok () ∧
      ∃ metadata, o.cachedMetadata = some metadata ∧ metadata.stdout = "") := by
  obtain ⟨key, hdirs, hkey, h⟩ | ⟨h, hnot⟩ := postBuilds_rebuild o target false
  · obtain ⟨hle, hiff⟩ := afterCache_eq (o := o) hpost false hdirs hkey
    rw [h, postBuilds_tryCache]
    cases hmd : o.cachedMetadata with
    | none => exact iff_of_true (by simpa using hle) (by simp)
    | some =>
      rw [if_pos ⟨hpost, rfl, rfl⟩]
      have hlt : 1 + afterCache o target false key ≤ 1 ↔ ¬ afterCache o target false key = 1 := by
        omega
      rw [hlt, hiff]
      simp [hmd]
  · rw [h]
    exact iff_of_true (by omega) fun hb => hnot hb.1

end post

/-- The part of `buildTarget` after `checkReuse`. -/
def afterReuse (o : Outcomes) (target : Target) : ℕ :=
  match (checkReuse o target).result with
  | .ok (some haveRun) => if target.isFilegroup then 0 else postBuilds (rebuild o target haveRun)
  | _ => 0

theorem afterReuse_of_ok (hf : target.isFilegroup = false) {haveRun : Bool}
    (h : (checkReuse o target).result = .ok (some haveRun)) :
    afterReuse o target = postBuilds (rebuild o target haveRun) := by
  rw [afterReuse, h, hf]; rfl

theorem afterReuse_of_ne
    (h : ∀ haveRun, (checkReuse o target).result = .ok (some haveRun) → target.isFilegroup = true) :
    afterReuse o target = 0 := by
  unfold afterReuse
  split
  · rename_i haveRun hr
    rw [if_pos (h haveRun hr)]
  · rfl

theorem postBuilds_buildLocally (hlock : o.acquireExclusiveFileLock = .ok ())
    (hdown : o.downloadInputsIfNeeded = .ok ()) :
    postBuilds (buildLocally o target) =
      postBuilds (checkReuse o target) + afterReuse o target := by
  unfold postBuilds buildLocally
  rw [hlock, hdown, count_perform_bind _ rfl]
  refine (count_perform_bind _ rfl _ _).trans ((count_bind _ _ _).trans ?_)
  congr 1
  unfold afterReuse
  cases (checkReuse o target).result with
  | error => rfl
  | ok haveRun =>
    cases haveRun with
    | none => rfl
    | some =>
      split_ifs
      · exact postBuilds_buildFilegroup o
      · rfl

theorem count_runPreBuildFunction (c : Bool) (r : Except Failure Unit) :
    (when c (perform Action.runPreBuildFunction r)).count isPostBuild = 0 := by
  cases c <;> rfl

theorem postBuilds_of_started (hs : o.Started target) : postBuilds (buildTarget o target false) =
    postBuilds (checkReuse o target) + afterReuse o target := by
  rw [← postBuilds_buildLocally hs.locked hs.downloaded]
  unfold postBuilds buildTarget
  rw [hs.validated, count_perform_bind _ rfl, hs.notPrepareOnly]
  refine (count_bind_ok _ (result_when_eq_ok.mpr hs.preBuild)).trans ?_
  rw [count_runPreBuildFunction, Nat.zero_add]
  rfl

/-- If `buildTarget` stops before it checks for reuse, nothing is run. -/
theorem postBuilds_of_not_started (hs : ¬ o.Started target) :
    postBuilds (buildTarget o target false) = 0 := by
  unfold postBuilds buildTarget
  cases hv : o.validateBuildTargetBeforeBuild with
  | error => rfl
  | ok u =>
    show Traced.count isPostBuild (when _ _ >>= _) = 0
    rw [count_bind, count_runPreBuildFunction, Nat.zero_add]
    split
    · rename_i hpre
      rw [if_neg Bool.false_ne_true]
      split_ifs with hprep
      · rfl
      · unfold buildLocally
        cases hlock : o.acquireExclusiveFileLock with
        | error => rfl
        | ok u =>
          refine (count_perform_bind _ rfl _ _).trans ?_
          cases hdown : o.downloadInputsIfNeeded with
          | error => rfl
          | ok =>
            refine absurd ⟨hv, result_when_eq_ok.mp hpre, ?_, hlock, hdown⟩ hs
            exact Bool.eq_false_iff.mpr hprep
    · rfl

theorem postBuilds_of_no_post (hpost : target.postBuildFunction = false) (hs : o.Started target) :
    postBuilds (buildTarget o target false) = 0 := by
  have hno {p : Prop} : ¬ (target.postBuildFunction = true ∧ p) := by simp [hpost]
  rw [postBuilds_of_started hs, postBuilds_checkReuse, if_neg hno, Nat.zero_add, afterReuse]
  split
  · rename_i haveRun _
    split_ifs
    · rfl
    · obtain ⟨key, -, -, h⟩ | h := postBuilds_rebuild o target haveRun
      · rw [h, postBuilds_tryCache, if_neg hno, Nat.zero_add, afterCache]
        split
        · rw [postBuilds_buildAndStore, if_neg hno]
        · rfl
      · exact h.1
  · rfl

/-- **The post-build function runs at most once** in a local build exactly if
the target is not rebuilt after it looked reusable, and is not built after
the cache returned metadata with an empty output for it. -/
theorem postBuilds_le_one_iff (o : Outcomes) (target : Target) :
    postBuilds (buildTarget o target false) ≤ 1 ↔ ¬ RunsTwice o target := by
  by_cases hs : o.Started target
  swap
  · rw [postBuilds_of_not_started hs]
    exact iff_of_true (by omega) fun h => hs h.2.2.1
  by_cases hpost : target.postBuildFunction = true
  swap
  · rw [postBuilds_of_no_post (Bool.eq_false_iff.mpr hpost) hs]
    exact iff_of_true (by omega) fun h => hpost h.1
  rw [postBuilds_of_started hs, postBuilds_checkReuse]
  have hcases := result_checkReuse (o := o) hpost
  by_cases hf : target.isFilegroup = false
  swap
  · rw [if_neg fun h => hf h.2.1, afterReuse_of_ne fun _ _ => eq_true_of_ne_false hf]
    exact iff_of_true (by omega) fun h => hf h.2.1
  cases hneeds : o.needsBuilding false with
  | true =>
    rw [afterReuse_of_ok hf ((hcases false).mpr (Or.inl ⟨rfl, Or.inr hneeds⟩)), if_neg (by simp),
      Nat.zero_add, postBuilds_rebuild_haveNotRun hpost, not_iff_not]
    constructor
    · rintro ⟨hb, hran, hfound⟩
      exact ⟨hpost, hf, hs, hb, .inr ⟨hneeds, hfound, hran⟩⟩
    · rintro ⟨_, _, _, hb, hre | hempty⟩
      · cases hre.unchanged.symm.trans hneeds
      · exact ⟨hb, hempty.ran, hempty.found⟩
  | false =>
    by_cases hre : o.RebuildsAfterReuse
    · obtain ⟨metadata, hload⟩ := hre.loaded
      obtain ⟨hle, hiff⟩ := postBuilds_rebuild_haveRun (o := o) hpost
      rw [afterReuse_of_ok hf ((hcases true).mpr (Or.inr ⟨rfl, hf, hre⟩)),
        if_pos ⟨hpost, hf, rfl, by rw [hload]; rfl⟩]
      have hlt : 1 + postBuilds (rebuild o target true) ≤ 1 ↔
          ¬ postBuilds (rebuild o target true) = 1 := by omega
      rw [hlt, hiff, not_iff_not]
      exact ⟨fun hb => ⟨hpost, hf, hs, hb, .inl hre⟩, fun h => h.2.2.2.1⟩
    · -- the target is reused, or `buildTarget` fails
      rw [afterReuse_of_ne fun haveRun hr => ?_]
      · refine iff_of_true (by split_ifs <;> omega) ?_
        rintro ⟨_, _, _, _, h | h⟩
        · exact hre h
        · exact Bool.false_ne_true (hneeds.symm.trans h.changed)
      · rcases (hcases haveRun).mp hr with ⟨_, h | h⟩ | ⟨_, _, h⟩
        · exact h
        · exact absurd (hneeds.symm.trans h) Bool.false_ne_true
        · exact absurd h hre

/-- Everything succeeds; the target looks reusable, and no longer after its
post-build function. -/
def rebuildsAfterReuse : Outcomes where
  validateBuildTargetBeforeBuild := .ok ()
  runPreBuildFunction := .ok ()
  isPrepareOnly := false
  prepareOnly := .err "stop"
  acquireExclusiveFileLock := .ok ()
  downloadInputsIfNeeded := .ok ()
  needsBuilding := id
  loadTargetMetadata := .ok ⟨"out", [], [], false⟩
  runPostBuildFunction := fun _ => .ok ()
  buildFilegroup := .ok true
  calculateAndCheckRuleHash := fun _ => .ok []
  prepareDirectories := .ok ()
  outputHashOrNil := none
  mustShortTargetHash := fun _ => .ok []
  hasCache := false
  shouldRebuild := false
  retrieveMetadata := none
  noDeclaredOutputs := false
  retrieveOutputs := none
  checkLicences := fun _ => .ok ()
  hasHTTPCache := false
  writeRuleHash := fun _ => .ok ()
  checkSecrets := .ok ()
  prepareSources := .ok ()
  build := .ok ⟨"out", [], [], false⟩
  globOptionalOutputs := []
  addOutputDirectoriesToBuildOutput := .ok []
  storeTargetMetadata := .ok ()
  moveOutputs := .ok ([], true)
  remoteBuild := fun _ => .ok ⟨"out", [], [], false⟩
  outputsChanged := false
  shouldDownload := false
  ensureDownloaded := .ok ()

/-- A rebuild after the target looked reusable runs the post-build function
twice. -/
theorem postBuilds_twice :
    ¬ ∀ (o : Outcomes) (target : Target), target.postBuildFunction = true →
      postBuilds (buildTarget o target false) ≤ 1 := by
  intro h
  have htwice : postBuilds (buildTarget rebuildsAfterReuse ⟨false, true, [], false⟩ false) =
      2 := rfl
  have := h rebuildsAfterReuse ⟨false, true, [], false⟩ rfl
  omega

/-- So does a build after the cache had metadata with an empty output but not
the artifacts. -/
example : postBuilds (buildTarget { rebuildsAfterReuse with
    needsBuilding := fun _ => true
    hasCache := true
    retrieveMetadata := some ⟨"", [], [], false⟩ } ⟨false, true, [], false⟩ false) = 2 := rfl

end Please.Build
