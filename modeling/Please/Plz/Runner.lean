import Please.Cmap.ErrMap
import Please.Core.Target

/-!
# Scheduling builds

Model of the part of `src/plz/plz.go` that builds targets: `runner.Build`
(lines 587–613), `buildAll` (568–585), `buildOne` (481–559), `buildDep`
(468–478), `resolveTarget` (446–466) and `runBuildAction` (556–566), with the
`errgroup`s they run their work in and the `ErrMap` that makes every label be
built once.

Every activation of one of these functions is a frame; goroutines and
synchronous calls are frames of their own. A step is one critical section of
the map or one action of a frame, so that every interleaving is a run. The
graph is static. What `build.Build` returns is chosen by the environment, and
so is when a context that nobody else cancels is cancelled. The limiters only
delay steps.
-/

namespace Please.Plz

open Please.Lib Please.Core Please.Cmap Please.Cmap.ErrMap
open Function (update)

namespace Runner

/-- Why a build fails. -/
inductive Err
  /-- `ctx.Err()` -/
  | ctx
  /-- a label that does not parse -/
  | missing (label : BuildLabel)
  /-- `build.Build` failed -/
  | build (msg : String)

/-- The graph, what `:all` labels stand for (`pkg.AllTargets()` as far as
`ShouldInclude` goes), and `state.KeepGoing`. -/
structure World where
  graph : BuildGraph
  allTargets : BuildLabel → Option (List BuildLabel)
  keepGoing : Bool

/-- The calls that have a frame. `dep` and `target` are the arguments of
`buildDep`; targets are given by their label. -/
inductive Call
  | build (label : BuildLabel)
  | buildAll (label : BuildLabel)
  | buildOne (label : BuildLabel)
  | buildDep (dep target : BuildLabel)
  | runBuildAction (label : BuildLabel)
deriving DecidableEq

/-- The groups of `buildOne`, in order, and the one of `buildAll`. -/
inductive Phase
  | deps
  | depsAgain
  | runtimeFirst
  | parallel
  | runtimeAgain
  | all

/-- Where a frame is. -/
inductive Pc
  | start
  /-- `Build` did not find its label, and is about to take the write lock -/
  | missed
  /-- `Build` runs `buildOne` or `buildAll` -/
  | running (child : ℕ)
  | setting (v : ErrV (Option BuildLabel) Err)
  | waiting (ch : Chan)
  | woken
  /-- in a group: what has not been started, the goroutines that have not been
      joined, the first error, and the group's context -/
  | group (phase : Phase) (todo : List Call) (pending : List ℕ) (err : Option Err) (gctx : ℕ)
  /-- `buildOne` is about to resolve its run-time and data dependencies -/
  | resolving
  /-- `buildOne` runs the action itself -/
  | action (child : ℕ)
  /-- `buildDep` builds one target; the others are left -/
  | dep (child : ℕ) (rest : List (Option BuildLabel))
  /-- `runBuildAction` has the limiter -/
  | acquired
  | building
  | returned (err : Option Err)

structure Frame where
  call : Call
  ctx : ℕ
  pc : Pc

/-- The map `buildOnce`, its channels, the frames, and the contexts. -/
structure State where
  once : Map BuildLabel (ErrV (Option BuildLabel) Err)
  nextChan : Chan
  closed : List Chan
  frames : ℕ → Option Frame
  next : ℕ
  parent : ℕ → Option ℕ
  nextCtx : ℕ
  cancelled : List ℕ

/-- Somebody outside calls `Build`; a context is cancelled; a frame takes its
next step; a frame joins a goroutine of its group; a waiting `Build` sees
that its context is done; `build.Build` returns. -/
inductive Event
  | invoke (label : BuildLabel)
  | cancel (ctx : ℕ)
  | run (id : ℕ)
  | join (id child : ℕ)
  | giveUp (id : ℕ)
  | finish (id : ℕ) (err : Option String)

/-! ## What the functions ask for -/

/-- The function that `Build` passes to `GetOrSetCtx`. -/
def body (label : BuildLabel) : Call :=
  if label.isAllTargets then .buildAll label else .buildOne label

/-- The labels whose targets `buildOne` builds before anything else
(lines 483–494). -/
def depLabels (target : BuildTarget) : List BuildLabel :=
  target.buildDependencyLabels ++ target.allSources.filterMap BuildInput.label

/-- `resolveTarget` (lines 446–466): what the iterator yields, with `none` for an
error. -/
def resolveTarget (w : World) (dep : BuildLabel)
    (dependent : BuildTarget) : List (Option BuildLabel) :=
  match w.graph.target dep with
  | none => [none]
  | some target =>
    let provided := target.provideFor dependent
    if provided = [target.label] then [some target.label]
    else provided.map fun p => (w.graph.target p).map (·.label)

/-! ## Steps -/

namespace State

variable (s : State)

/-- Frame `id` moves on. -/
def goto (id : ℕ) (f : Frame) (pc : Pc) : State :=
  { s with frames := update s.frames id (some { f with pc := pc }) }

/-- Frame `id` starts a new frame and moves on. -/
def call (id : ℕ) (f : Frame) (c : Call) (ctx : ℕ) (pc : Pc) : State :=
  { s with
    frames := update (update s.frames s.next (some ⟨c, ctx, .start⟩)) id
      (some { f with pc := pc })
    next := s.next + 1 }

/-- `runner.group` (lines 354–359) for frame `id`: the new group has a context of
its own unless we keep going. -/
def enterGroup (w : World) (id : ℕ) (f : Frame) (phase : Phase) (todo : List Call) : State :=
  if w.keepGoing then s.goto id f (.group phase todo [] none f.ctx)
  else { s with
    parent := update s.parent s.nextCtx (some f.ctx)
    nextCtx := s.nextCtx + 1 }.goto id f (.group phase todo [] none s.nextCtx)

/-- `Wait` and the first error of a group cancel its context. -/
def cancelGroup (w : World) (gctx : ℕ) : State :=
  if w.keepGoing then s else { s with cancelled := gctx :: s.cancelled }

end State

/-- The branches of `GetOrSetCtx` after `GetOrWait` returned, for a caller that
is not the first. -/
def afterGetOrWait (v : ErrV (Option BuildLabel) Err) (wait : Option Chan) : Pc :=
  if v.err.isSome then .returned v.err
  else match wait with
    | some ch => .waiting ch
    | none => .returned v.err

/-- `runner.Build`. -/
def stepBuild (w : World) (s : State) (id : ℕ) (f : Frame) (label : BuildLabel) : Option State :=
  match f.pc with
  | .start =>
    if !label.isAllTargets && (w.graph.target label).isNone then
      some (s.goto id f (.returned (some (.missing label))))
    else match s.once.probe label with
      | some (v, wait) => some (s.goto id f (afterGetOrWait v wait))
      | none => some (s.goto id f .missed)
  | .missed =>
    let r := s.once.register label s.nextChan
    if r.2.2.2 then
      some ({ s with once := r.1, nextChan := s.nextChan + 1 }.call id f (body label) f.ctx
        (.running s.next))
    else some ({ s with once := r.1 }.goto id f (afterGetOrWait r.2.1 r.2.2.1))
  | .running child =>
    match s.frames child with
    | some ⟨_, _, .returned err⟩ =>
      some (s.goto id f (.setting ⟨err, if label.isAllTargets then none else some label⟩))
    | _ => none
  | .setting v =>
    let r := s.once.set label v
    some ({ s with once := r.1, closed := s.closed ++ r.2.toList }.goto id f (.returned v.err))
  | .waiting ch => if ch ∈ s.closed then some (s.goto id f .woken) else none
  | .woken => some (s.goto id f (.returned (s.once.get label).err))
  | _ => none

/-- The loop of `buildDep` on what is left of `resolveTarget`. -/
def buildNext (s : State) (id : ℕ) (f : Frame) (dep : BuildLabel) : List (Option BuildLabel) → State
  | [] => s.goto id f (.returned none)
  | none :: _ => s.goto id f (.returned (some (.missing dep)))
  | some label :: rest => s.call id f (.build label) f.ctx (.dep s.next rest)

/-- `runner.buildDep`. -/
def stepDep (w : World) (s : State) (id : ℕ) (f : Frame) (dep : BuildLabel) (target : BuildTarget) :
    Option State :=
  match f.pc with
  | .start => some (buildNext s id f dep (resolveTarget w dep target))
  | .dep child rest =>
    match s.frames child with
    | some ⟨_, _, .returned none⟩ => some (buildNext s id f dep rest)
    | some ⟨_, _, .returned (some err)⟩ => some (s.goto id f (.returned (some err)))
    | _ => none
  | _ => none

/-- The end of `buildOne`, after the action (lines 545–554). -/
def afterAction (w : World) (s : State) (id : ℕ) (f : Frame) (target : BuildTarget) : State :=
  if target.modifiedByCallback then
    s.enterGroup w id f .runtimeAgain
      (target.runtimeAndDataDependencies.map fun dep => .buildDep dep target.label)
  else s.goto id f (.returned none)

/-- `buildOne` after its dependencies have been built (lines 509–543). -/
def afterDeps (w : World) (s : State) (id : ℕ) (f : Frame) (target : BuildTarget) : State :=
  let deps := target.runtimeAndDataDependencies
  let calls := deps.map fun dep => Call.buildDep dep target.label
  match deps.find? fun dep => (resolveTarget w dep target).contains none with
  | some dep => s.goto id f (.returned (some (.missing dep)))
  | none =>
    if deps.isEmpty then s.call id f (.runBuildAction target.label) f.ctx (.action s.next)
    else if target.preBuildFunction then s.enterGroup w id f .runtimeFirst calls
    else s.enterGroup w id f .parallel (.runBuildAction target.label :: calls)

/-- What `buildOne` does after a group without errors. -/
def afterGroup (w : World) (s : State) (id : ℕ) (f : Frame) (target : BuildTarget) : Phase → State
  | .deps =>
    if target.modifiedByCallback then
      s.enterGroup w id f .depsAgain
        (target.buildDependencyLabels.map fun dep => .buildDep dep target.label)
    else s.goto id f .resolving
  | .depsAgain => s.goto id f .resolving
  | .runtimeFirst => s.call id f (.runBuildAction target.label) f.ctx (.action s.next)
  | .parallel => afterAction w s id f target
  | _ => s.goto id f (.returned none)

/-- `runner.buildOne`. -/
def stepOne (w : World) (s : State) (id : ℕ) (f : Frame) (target : BuildTarget) : Option State :=
  match f.pc with
  | .start =>
    some (s.enterGroup w id f .deps ((depLabels target).map fun dep => .buildDep dep target.label))
  | .group phase (c :: todo) pending err gctx =>
    some (s.call id f c gctx (.group phase todo (s.next :: pending) err gctx))
  | .group _ [] [] (some err) gctx => some ((s.cancelGroup w gctx).goto id f (.returned (some err)))
  | .group phase [] [] none gctx => some (afterGroup w (s.cancelGroup w gctx) id f target phase)
  | .resolving => some (afterDeps w s id f target)
  | .action child =>
    match s.frames child with
    | some ⟨_, _, .returned none⟩ => some (afterAction w s id f target)
    | some ⟨_, _, .returned (some err)⟩ => some (s.goto id f (.returned (some err)))
    | _ => none
  | _ => none

/-- `runner.buildAll`. -/
def stepAll (w : World) (s : State) (id : ℕ) (f : Frame) (label : BuildLabel) : Option State :=
  match f.pc with
  | .start =>
    match w.allTargets label with
    | none => some (s.goto id f (.returned (some (.missing label))))
    | some targets => some (s.enterGroup w id f .all (targets.map .build))
  | .group phase (c :: todo) pending err gctx =>
    some (s.call id f c gctx (.group phase todo (s.next :: pending) err gctx))
  | .group _ [] [] err gctx => some ((s.cancelGroup w gctx).goto id f (.returned err))
  | _ => none

/-- `runner.runBuildAction`. -/
def stepAction (s : State) (id : ℕ) (f : Frame) : Option State :=
  match f.pc with
  | .start => some (s.goto id f .acquired)
  | .acquired =>
    if f.ctx ∈ s.cancelled then some (s.goto id f (.returned (some .ctx)))
    else some (s.goto id f .building)
  | _ => none

/-- The next step of a frame. -/
def stepFrame (w : World) (s : State) (id : ℕ) (f : Frame) : Option State :=
  match f.call with
  | .build label => stepBuild w s id f label
  | .buildAll label => stepAll w s id f label
  | .buildOne label => (w.graph.target label).bind (stepOne w s id f)
  | .buildDep dep label => (w.graph.target label).bind (stepDep w s id f dep)
  | .runBuildAction _ => stepAction s id f

/-- A goroutine of a group has returned: its error is the error of the group if
it is the first. -/
def stepJoin (w : World) (s : State) (id : ℕ) (f : Frame) (child : ℕ) : Option State :=
  match f.pc, s.frames child with
  | .group phase todo pending err gctx, some ⟨_, _, .returned err'⟩ =>
    if child ∈ pending then
      let s' := if err.isNone && err'.isSome then s.cancelGroup w gctx else s
      some (s'.goto id f (.group phase todo (pending.erase child) (err <|> err') gctx))
    else none
  | _, _ => none

/-- A waiting `Build` gives up on its context. -/
def stepGiveUp (s : State) (id : ℕ) (f : Frame) : Option State :=
  match f.pc with
  | .waiting _ => if f.ctx ∈ s.cancelled then some (s.goto id f (.returned (some .ctx))) else none
  | _ => none

/-- `build.Build` returns. -/
def stepFinish (s : State) (id : ℕ) (f : Frame) (err : Option String) : Option State :=
  match f.call, f.pc with
  | .runBuildAction _, .building => some (s.goto id f (.returned (err.map .build)))
  | _, _ => none

def step (w : World) (s : State) : Event → Option State
  | .invoke label => some { s with
      frames := update s.frames s.next (some ⟨.build label, 0, .start⟩)
      next := s.next + 1 }
  | .cancel ctx =>
    match s.parent ctx with
    | none => if ctx = 0 then some { s with cancelled := ctx :: s.cancelled } else none
    | some p => if p ∈ s.cancelled then some { s with cancelled := ctx :: s.cancelled } else none
  | .run id => (s.frames id).bind (stepFrame w s id)
  | .join id child => (s.frames id).bind fun f => stepJoin w s id f child
  | .giveUp id => (s.frames id).bind (stepGiveUp s id)
  | .finish id err => (s.frames id).bind fun f => stepFinish s id f err

/-- Nothing has been called. Context 0 is the runner's. -/
def init (s : State) : Prop :=
  (∃ n hn hasher, Map.new n hn hasher = some s.once) ∧ s.closed = [] ∧ (∀ i, s.frames i = none) ∧
    (∀ c, s.parent c = none) ∧ 0 < s.nextCtx ∧ s.cancelled = []

/-- Every interleaving of every set of builds on one graph. -/
def system (w : World) : System State Event := ⟨init, step w⟩

end Runner

end Please.Plz
