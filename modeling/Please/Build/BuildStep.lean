import Please.Lib.Traced

/-!
# Building one target

Model of `buildTarget` (`src/build/build_step.go`, lines 148–423) with
`retrieveArtifacts` (463–511) and `runPostBuildFunction` (1003–1019).

The functions that `buildTarget` calls act on the file system, the caches, the
build environment and, through the callbacks, on the target itself. What they
return in one call of `buildTarget` is an arbitrary `Outcomes` record; the model
is the control flow over it and the list of the actions it performs. The
progress messages of `LogBuildResult` are left out.
-/

namespace Please.Build

open Please.Lib Please.Lib.Traced

/-- How a Go function fails: it returns an error or it panics. -/
inductive Failure
  | err (msg : String)
  | panic (msg : String)

/-- The failure is an error the caller can handle. -/
def Failure.isErr : Failure → Bool
  | .err _ => true
  | .panic _ => false

/-- A hash or a cache key. -/
abbrev Hash := List UInt8

/-- `core.BuildMetadata`, as far as `buildTarget` uses it. -/
structure BuildMetadata where
  stdout : String
  outputDirOuts : List String
  optionalOutputs : List String
  cached : Bool

/-- The states `buildTarget` can leave a target in. -/
inductive TargetState
  | reused
  | built
  | unchanged
  | cached
  | builtRemotely
  | reusedRemotely

/-- What `buildTarget` reads of the target. -/
structure Target where
  preBuildFunction : Bool
  postBuildFunction : Bool
  outputDirectories : List String
  isFilegroup : Bool

/-- `BuildTarget.BuildCouldModifyTarget`. -/
def Target.buildCouldModifyTarget (target : Target) : Bool :=
  target.postBuildFunction || !target.outputDirectories.isEmpty

/-- Where in `buildTarget` a function is called that it calls more than once. -/
inductive Site
  /-- while checking that the target can be reused -/
  | reuse
  /-- before or while retrieving from the cache -/
  | cache
  /-- after the build -/
  | build

/-- What the functions called by `buildTarget` return. -/
structure Outcomes where
  validateBuildTargetBeforeBuild : Except Failure Unit
  runPreBuildFunction : Except Failure Unit
  /-- `state.PrepareOnly && state.IsOriginalTarget(target) && !state.NeedTests` -/
  isPrepareOnly : Bool
  /-- `prepareOnly` always returns an error, if only `errStop` -/
  prepareOnly : Failure
  acquireExclusiveFileLock : Except Failure Unit
  downloadInputsIfNeeded : Except Failure Unit
  /-- by its argument `postBuild` -/
  needsBuilding : Bool → Bool
  loadTargetMetadata : Except Failure BuildMetadata
  /-- `state.Parser.RunPostBuildFunction` -/
  runPostBuildFunction : Site → Except Failure Unit
  buildFilegroup : Except Failure Bool
  calculateAndCheckRuleHash : Site → Except Failure Hash
  prepareDirectories : Except Failure Unit
  outputHashOrNil : Option Hash
  mustShortTargetHash : Site → Except Failure Hash
  /-- `state.Cache != nil` -/
  hasCache : Bool
  shouldRebuild : Bool
  /-- `retrieveFromCache` of the metadata only -/
  retrieveMetadata : Option BuildMetadata
  /-- `len(target.DeclaredOutputs()) == 0 && len(target.DeclaredNamedOutputs()) == 0` -/
  noDeclaredOutputs : Bool
  /-- `retrieveFromCache` of the outputs -/
  retrieveOutputs : Option BuildMetadata
  checkLicences : Site → Except Failure Unit
  /-- `state.Config.Cache.HTTPURL != ""` -/
  hasHTTPCache : Bool
  writeRuleHash : Site → Except Failure Unit
  checkSecrets : Except Failure Unit
  prepareSources : Except Failure Unit
  build : Except Failure BuildMetadata
  /-- the optional outputs found in the temporary directory -/
  globOptionalOutputs : List String
  addOutputDirectoriesToBuildOutput : Except Failure (List String)
  storeTargetMetadata : Except Failure Unit
  /-- the outputs, and whether one of them changed -/
  moveOutputs : Except Failure (List String × Bool)
  /-- `state.RemoteClient.Build` before and after the post-build function -/
  remoteBuild : Site → Except Failure BuildMetadata
  /-- the post-build function changed the number of outputs -/
  outputsChanged : Bool
  shouldDownload : Bool
  ensureDownloaded : Except Failure Unit

/-- The effects of `buildTarget`, in order. -/
inductive Action
  | validate
  | runPreBuildFunction
  | prepareOnly
  | acquireLock
  | downloadInputs
  | loadMetadata
  | addOutputs (outs : List String)
  | runPostBuildFunction (output : String)
  | buildFilegroup
  | calculateAndCheckRuleHash
  | prepareDirectories
  | targetHash
  | retrieveMetadata (key : Hash)
  | retrieveOutputs (key : Hash)
  | retrieveOptionalOutputs (key : Hash) (outs : List String)
  | removeOutputs
  | checkLicences
  | writeRuleHash
  | checkSecrets
  | prepareSources
  | build (key : Hash)
  | addOutputDirectories
  | storeMetadata (md : BuildMetadata)
  | moveOutputs
  | storeInCache (key : Hash) (outs : List String)
  | remoteBuild
  | ensureDownloaded
  | setState (s : TargetState)
  | buildLinks

abbrev BuildM := Traced Action Failure

/-- An action that cannot fail. -/
def act (a : Action) : BuildM Unit := perform a (.ok ())

/-- `runPostBuildFunction` (lines 1007–1019): it is skipped if there is a
previous output; a different output only makes it warn. -/
def runPostBuildFunction (o : Outcomes) (site : Site) (output prevOutput : String) : BuildM Unit :=
  if prevOutput ≠ "" then pure ()
  else perform (.runPostBuildFunction output) (o.runPostBuildFunction site)

/-- Re-applying what building the target changed in it (lines 235–249). -/
def reapplyUpdates (o : Outcomes) (target : Target) : BuildM Unit := do
  let metadata ← perform .loadMetadata o.loadTargetMetadata
  act (.addOutputs metadata.outputDirOuts)
  -- an error is only logged: the target will be rebuilt
  when target.postBuildFunction
    ((runPostBuildFunction o .reuse metadata.stdout "").ignoring Failure.isErr)

/-- Whether the target can be reused (lines 226–264). `none` if `buildTarget`
returns here, otherwise `haveRunPostBuildFunction`. -/
def checkReuse (o : Outcomes) (target : Target) : BuildM (Option Bool) :=
  if !target.isFilegroup && !o.needsBuilding false then do
    when target.buildCouldModifyTarget (reapplyUpdates o target)
    if !target.buildCouldModifyTarget || !o.needsBuilding true then do
      act (.setState .reused)
      act .buildLinks
      return none
    else return some true
  else return some false

/-- The rest of `buildTarget` for a filegroup (lines 265–283). -/
def buildFilegroup (o : Outcomes) : BuildM Unit := do
  let changed ← perform .buildFilegroup o.buildFilegroup
  when changed do
    let _ ← perform .calculateAndCheckRuleHash (o.calculateAndCheckRuleHash .build)
  act (.setState (if changed then .built else .unchanged))
  act .buildLinks

/-- `retrieveArtifacts` (lines 463–511). -/
def retrieveArtifacts (o : Outcomes) : BuildM Bool :=
  if o.noDeclaredOutputs then do
    act (.setState .unchanged)
    return true
  else do
    let cacheKey ← perform .targetHash (o.mustShortTargetHash .cache)
    perform (.retrieveOutputs cacheKey) (.ok ())
    match o.retrieveOutputs with
    | none => return false
    | some md => do
      when (!md.optionalOutputs.isEmpty)
        (act (.retrieveOptionalOutputs cacheKey md.optionalOutputs))
      perform .checkLicences (o.checkLicences .cache)
      act .calculateAndCheckRuleHash
      match o.calculateAndCheckRuleHash .cache with
      | .error _ => do
        act .removeOutputs
        return false
      | .ok newOutputHash => do
        act (.setState (if o.outputHashOrNil = some newOutputHash then .unchanged else .cached))
        act .buildLinks
        if o.hasHTTPCache then do
          act .writeRuleHash
          return (o.writeRuleHash .cache).toBool
        else return true

/-- Trying the cache (lines 297–319). `none` if `buildTarget` returns here,
otherwise `postBuildOutput`. -/
def tryCache (o : Outcomes) (target : Target) (haveRunPostBuildFunction : Bool) (cacheKey : Hash) :
    BuildM (Option String) :=
  if o.hasCache && !o.shouldRebuild then
    if target.buildCouldModifyTarget then do
      act (.retrieveMetadata cacheKey)
      match o.retrieveMetadata with
      | none => return some ""
      | some metadata => do
        act (.addOutputs metadata.outputDirOuts)
        let runsNow := target.postBuildFunction && !haveRunPostBuildFunction
        when runsNow (runPostBuildFunction o .cache metadata.stdout "")
        if ← retrieveArtifacts o then do
          perform .writeRuleHash (o.writeRuleHash .build)
          return none
        else return some (if runsNow then metadata.stdout else "")
    else do
      if ← retrieveArtifacts o then return none
      else return some ""
  else return some ""

/-- Running the build command (lines 320–343). -/
def runBuild (o : Outcomes) (cacheKey : Hash) : BuildM BuildMetadata := do
  perform .checkSecrets o.checkSecrets
  perform .prepareSources o.prepareSources
  let metadata ← perform (.build cacheKey) o.build
  let outs ← perform .addOutputDirectories o.addOutputDirectoriesToBuildOutput
  return { metadata with optionalOutputs := o.globOptionalOutputs, outputDirOuts := outs }

/-- Collecting and storing the outputs (lines 375–422). -/
def storeOutputs (o : Outcomes) (target : Target) (cacheKey : Hash) (metadata : BuildMetadata) :
    BuildM Unit := do
  perform (.storeMetadata metadata) o.storeTargetMetadata
  let outs ← perform .moveOutputs o.moveOutputs
  let _ ← perform .calculateAndCheckRuleHash (o.calculateAndCheckRuleHash .build)
  act (.setState (if outs.2 then .built else .unchanged))
  act .buildLinks
  when o.hasCache do
    let newCacheKey ← perform .targetHash (o.mustShortTargetHash .build)
    when (target.buildCouldModifyTarget && newCacheKey != cacheKey)
      (act (.storeInCache cacheKey []))
    act (.storeInCache newCacheKey outs.1)

/-- Building the target and collecting its outputs (lines 320–346, 357 and
375–422). -/
def buildAndStore (o : Outcomes) (target : Target) (cacheKey : Hash) (postBuildOutput : String) :
    BuildM Unit := do
  let metadata ← runBuild o cacheKey
  when target.postBuildFunction (runPostBuildFunction o .build metadata.stdout postBuildOutput)
  perform .checkLicences (o.checkLicences .build)
  storeOutputs o target cacheKey metadata

/-- Fetching or building a target that is not a filegroup and cannot be reused
(lines 285–422). -/
def rebuild (o : Outcomes) (target : Target) (haveRunPostBuildFunction : Bool) : BuildM Unit := do
  perform .prepareDirectories o.prepareDirectories
  let cacheKey ← perform .targetHash (o.mustShortTargetHash .reuse)
  match ← tryCache o target haveRunPostBuildFunction cacheKey with
  | none => return ()
  | some postBuildOutput => buildAndStore o target cacheKey postBuildOutput

/-- `buildTarget` without a remote client (lines 208–346 and 357–422). -/
def buildLocally (o : Outcomes) (target : Target) : BuildM Unit := do
  perform .acquireLock o.acquireExclusiveFileLock
  perform .downloadInputs o.downloadInputsIfNeeded
  match ← checkReuse o target with
  | none => return ()
  | some haveRunPostBuildFunction =>
    if target.isFilegroup then buildFilegroup o
    else rebuild o target haveRunPostBuildFunction

/-- `buildTarget` with a remote client (lines 203–207 and 346–374). -/
def buildRemotely (o : Outcomes) (target : Target) : BuildM Unit := do
  let metadata ← perform .remoteBuild (o.remoteBuild .reuse)
  when target.postBuildFunction (runPostBuildFunction o .build metadata.stdout "")
  let metadata ← if target.postBuildFunction && o.outputsChanged
    then perform .remoteBuild (o.remoteBuild .build) else pure metadata
  perform .checkLicences (o.checkLicences .build)
  act (.setState (if metadata.cached then .reusedRemotely else .builtRemotely))
  when o.shouldDownload do
    perform .ensureDownloaded o.ensureDownloaded
    act .buildLinks

/-- `buildTarget` (lines 162–423). -/
def buildTarget (o : Outcomes) (target : Target) (runRemotely : Bool) : BuildM Unit := do
  perform .validate o.validateBuildTargetBeforeBuild
  when target.preBuildFunction (perform .runPreBuildFunction o.runPreBuildFunction)
  if o.isPrepareOnly then perform .prepareOnly (.error o.prepareOnly)
  else if runRemotely then buildRemotely o target
  else buildLocally o target

end Please.Build
