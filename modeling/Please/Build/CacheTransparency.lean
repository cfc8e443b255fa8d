import Please.Build.PostBuild

/-!
# A cache that has nothing

`buildTarget` with a cache that misses every `Retrieve` call, compared with
`buildTarget` without a cache (`src/build/build_step.go`, lines 294–321 and 400–417).
The cache branch ends the build early for a target that has no declared outputs and that
the build could not modify: `retrieveArtifacts` documents that there is nothing to be done
for it (lines 459–472).

* `missingCache_transparent`: for every other target, and whenever a rebuild is forced,
  the two perform the same actions but for the traffic with the cache.
* `noOutputs_not_built`: for such a target the command is not run.
-/

namespace Please.Build

open Please.Lib Please.Lib.Traced Outcomes

/-- Hashing for the cache, and the calls of it. -/
def isCacheTraffic : Action → Bool
  | .targetHash | .retrieveMetadata _ | .retrieveOutputs _ | .retrieveOptionalOutputs _ _
  | .storeInCache _ _ => true
  | _ => false

/-- The actions besides the traffic with the cache: running the command, storing the metadata
with the optional outputs, moving the outputs, and all others. -/
def work {α : Type} (x : BuildM α) : List Action := x.kept fun a => !isCacheTraffic a

/-- `state.Cache == nil`. -/
def Outcomes.withoutCache (o : Outcomes) : Outcomes := { o with hasCache := false }

/-- A cache that misses every `Retrieve` call. Between the hash of `buildTarget` and that of
`retrieveArtifacts` nothing has changed. -/
def Outcomes.withMissingCache (o : Outcomes) : Outcomes :=
  { o with
    hasCache := true
    retrieveMetadata := none
    retrieveOutputs := none
    mustShortTargetHash := fun site => match site with
      | .cache => o.mustShortTargetHash .reuse
      | site => o.mustShortTargetHash site }

/-- `retrieveArtifacts` returns true without asking the cache. -/
def Outcomes.NothingToDo (o : Outcomes) (target : Target) : Prop :=
  o.shouldRebuild = false ∧ target.buildCouldModifyTarget = false ∧ o.noDeclaredOutputs = true

variable (o : Outcomes) (target : Target)

variable (haveRun : Bool)

/-- Asking the missing cache is only traffic, and the build goes on. -/
theorem tryCache_withMissingCache {key : Hash}
    (hkey : o.mustShortTargetHash .reuse = .ok key) (h : ¬ o.NothingToDo target) :
    work (tryCache o.withMissingCache target haveRun key) = [] ∧
      (tryCache o.withMissingCache target haveRun key).result = .ok (some "") := by
  unfold tryCache
  by_cases hrebuild : o.shouldRebuild = true
  · rw [if_neg (by simp [withMissingCache, hrebuild])]
    exact ⟨rfl, rfl⟩
  · rw [if_pos (by simp [withMissingCache, hrebuild])]
    by_cases hmodify : target.buildCouldModifyTarget = true
    · rw [if_pos hmodify]
      exact ⟨rfl, rfl⟩
    · have houts : o.withMissingCache.noDeclaredOutputs = false := by
        simpa [NothingToDo, withMissingCache, hrebuild, hmodify] using h
      have hartifacts : retrieveArtifacts o.withMissingCache =
          ⟨[.targetHash, .retrieveOutputs key], .ok false⟩ := by
        unfold retrieveArtifacts
        rw [if_neg (by simp [houts])]
        show (perform Action.targetHash (o.mustShortTargetHash .reuse) >>= _) = _
        rw [hkey]
        rfl
      rw [if_neg hmodify, hartifacts]
      exact ⟨rfl, rfl⟩

/-- With the cache the outputs are stored in it at the end. -/
theorem work_storeOutputs (key : Hash) (metadata : BuildMetadata) :
    work (storeOutputs o.withMissingCache target key metadata) =
      work (storeOutputs o.withoutCache target key metadata) := by
  refine kept_bind_right _ _ fun _ _ => kept_bind_right _ _ fun outs _ =>
    kept_bind_right _ _ fun _ _ => kept_bind_right _ _ fun _ _ => kept_bind_right _ _ fun _ _ => ?_
  show work (perform .targetHash (o.mustShortTargetHash .build) >>= _) = []
  cases o.mustShortTargetHash .build with
  | error => rfl
  | ok newKey =>
    show work (when (target.buildCouldModifyTarget && newKey != key)
        (act (.storeInCache key [])) >>=
      fun _ => act (.storeInCache newKey outs.1)) = []
    cases target.buildCouldModifyTarget && newKey != key <;> rfl

theorem work_buildAndStore (key : Hash) (postBuildOutput : String) :
    work (buildAndStore o.withMissingCache target key postBuildOutput) =
      work (buildAndStore o.withoutCache target key postBuildOutput) :=
  kept_bind_right _ _ fun metadata _ => kept_bind_right _ _ fun _ _ =>
      kept_bind_right _ _ fun _ _ =>
    work_storeOutputs o target key metadata

theorem work_rebuild (h : ¬ o.NothingToDo target) :
    work (rebuild o.withMissingCache target haveRun) =
      work (rebuild o.withoutCache target haveRun) := by
  refine kept_bind_right _ _ fun _ _ => kept_bind_right _ _ fun key hkey => ?_
  obtain ⟨hwork, hresult⟩ := tryCache_withMissingCache o target haveRun hkey h
  refine kept_bind_congr _ hwork hresult fun out hout => ?_
  cases hout
  exact work_buildAndStore o target key ""

/-- Cache transparency: with a cache that misses every call the target is built, and its
outputs are collected, exactly as without a cache, unless it is one for which
`retrieveArtifacts` has nothing to do. -/
theorem missingCache_transparent (h : ¬ o.NothingToDo target) :
    work (buildTarget o.withMissingCache target false) =
      work (buildTarget o.withoutCache target false) := by
  refine kept_bind_right _ _ fun _ _ => kept_bind_right _ _ fun _ _ => ?_
  refine kept_ite_congr _ (o.isPrepareOnly = true) (fun _ => rfl) fun _ => ?_
  refine kept_bind_right _ _ fun _ _ => kept_bind_right _ _ fun _ _ =>
    kept_bind_right _ _ fun reuse _ => ?_
  cases reuse with
  | none => rfl
  | some haveRun =>
    exact kept_ite_congr _ (target.isFilegroup = true) (fun _ => rfl) fun _ =>
      work_rebuild o target haveRun h

/-- A target that has to be built, and whose build succeeds. -/
def freshBuild : Outcomes := { rebuildsAfterReuse with needsBuilding := fun _ => true }

/-- A plain target. -/
def plainTarget : Target := ⟨false, false, [], false⟩

/-- A target with declared outputs is one that the cache does not change. -/
theorem missingCache_transparent_plainTarget :
    ¬ freshBuild.NothingToDo plainTarget ∧
      work (buildTarget freshBuild.withMissingCache plainTarget false) =
        work (buildTarget freshBuild.withoutCache plainTarget false) := by
  have h : ¬ freshBuild.NothingToDo plainTarget := by
    rintro ⟨-, -, houts⟩
    exact absurd houts (by decide)
  exact ⟨h, missingCache_transparent freshBuild plainTarget h⟩

/-- The build command is run, or its outputs are collected. -/
def isBuildOrCollect : Action → Bool
  | .build _ | .moveOutputs => true
  | _ => false

/-- A target without outputs is built without a cache, and not built with an empty one. -/
theorem noOutputs_not_built :
    (buildTarget { freshBuild with noDeclaredOutputs := true }.withoutCache plainTarget false).count
        isBuildOrCollect = 2 ∧
      (buildTarget { freshBuild with noDeclaredOutputs := true }.withMissingCache plainTarget
        false).count isBuildOrCollect = 0 :=
  ⟨rfl, rfl⟩

end Please.Build
