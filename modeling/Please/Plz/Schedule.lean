import Please.Plz.Runner

/-!
# Targets are built once, after their dependencies

The invariant of the runner of `Please.Plz.Runner`, for every interleaving.

* `schedule_safe`: when an action is started.
-/

namespace Please.Plz.Runner

open Please.Lib Please.Core Please.Cmap Please.Cmap.ErrMap List Option Function State

/-! ## What a state says -/

/-- Frame `i` is an activation of `c`. -/
def State.Called (s : State) (i : ℕ) (c : Call) : Prop := ∃ f, s.frames i = some f ∧ f.call = c

/-- Some activation of `c` has returned `err`. -/
def State.Returned (s : State) (c : Call) (err : Option Err) : Prop :=
  ∃ i f, s.frames i = some f ∧ f.call = c ∧ f.pc = .returned err

/-- `buildOne` has returned without error for the label. -/
def State.Built (s : State) (label : BuildLabel) : Prop := s.Returned (.buildOne label) none

/-- `runBuildAction` has been started for the label. -/
def State.Started (s : State) (label : BuildLabel) : Prop := ∃ i, s.Called i (.runBuildAction label)

/-- Everything that the dependency `dep` of `target` resolves to has been built. -/
def DepBuilt (w : World) (s : State) (dep : BuildLabel) (target : BuildTarget) : Prop :=
  ∀ x ∈ resolveTarget w dep target, ∃ label, x = some label ∧ s.Built label

/-- Everything that has to be built before the label has been. -/
def DepsBuilt (w : World) (s : State) (label : BuildLabel) : Prop :=
  ∀ target, w.graph.target label = some target → ∀ dep ∈ depLabels target, DepBuilt w s dep target

/-! ## The invariant -/

/-- What is left to start is what `buildOne` of the label starts in this phase. -/
def TodoOk (label : BuildLabel) (phase : Phase) (todo : List Call) : Prop :=
  todo.count (.runBuildAction label) ≤ 1 ∧
    ∀ c ∈ todo, (∃ dep, c = .buildDep dep label) ∨ phase = .parallel ∧ c = .runBuildAction label

/-- `buildOne` of the label has not started the action yet. -/
def MayStart (label : BuildLabel) : Pc → Prop
  | .start => True
  | .group .deps _ _ _ _ => True
  | .group .depsAgain _ _ _ _ => True
  | .group .runtimeFirst _ _ _ _ => True
  | .group .parallel todo _ _ _ => .runBuildAction label ∈ todo
  | .resolving => True
  | _ => False

/-- What the position of `buildOne` says. -/
def OneOk (w : World) (s : State) (label : BuildLabel) : Pc → Prop
  | .group .deps todo pending err _ => TodoOk label .deps todo ∧ (err = none →
      ∀ target, w.graph.target label = some target → ∀ dep ∈ depLabels target,
        .buildDep dep label ∈ todo ∨ (∃ i ∈ pending, s.Called i (.buildDep dep label)) ∨
          DepBuilt w s dep target)
  | .group phase todo _ _ _ => TodoOk label phase todo ∧ DepsBuilt w s label
  | .resolving => DepsBuilt w s label
  | .action _ => DepsBuilt w s label
  | _ => True

/-- What the position of a frame says. -/
def FrameOk (w : World) (s : State) (f : Frame) : Prop :=
  match f.call with
  | .build label =>
    match f.pc with
    | .running child => s.Called child (body label)
    | .setting v => s.Returned (body label) v.err
    | .waiting ch => (∃ v, s.once.lookup label = some ⟨v, some ch⟩) ∨
        ∃ v, s.once.lookup label = some ⟨v, none⟩
    | .woken => ∃ v, s.once.lookup label = some ⟨v, none⟩
    | .returned none => s.Returned (body label) none
    | _ => True
  | .buildAll _ =>
    match f.pc with
    | .group _ todo _ _ _ => ∀ c ∈ todo, ∃ label, c = .build label
    | _ => True
  | .buildOne label => OneOk w s label f.pc
  | .buildDep dep label =>
    match f.pc with
    | .dep child rest => ∃ cur, cur.isAllTargets = false ∧ s.Called child (.build cur) ∧
        ∀ target, w.graph.target label = some target → ∃ pre,
          resolveTarget w dep target = pre ++ some cur :: rest ∧
          ∀ x ∈ pre, ∃ l, x = some l ∧ s.Built l
    | .returned none => ∀ target, w.graph.target label = some target → DepBuilt w s dep target
    | _ => True
  | .runBuildAction label => DepsBuilt w s label

structure Inv (w : World) (s : State) : Prop where
  fresh : ∀ i, s.next ≤ i → s.frames i = none
  chans : s.once.ChansOk s.nextChan s.closed
  frame : ∀ i f, s.frames i = some f → FrameOk w s f
  /-- A value in the map is what the function returned. -/
  valued : ∀ label v, s.once.lookup label = some ⟨v, none⟩ → s.Returned (body label) v.err
  /-- `buildOne` is only called for a label that has an entry, … -/
  one_entry : ∀ i label, s.Called i (.buildOne label) → s.once.lookup label ≠ none
  /-- … once. -/
  one_unique : ∀ i j label, s.Called i (.buildOne label) → s.Called j (.buildOne label) → i = j
  /-- An action has been started by the `buildOne` of its label, … -/
  action_parent : ∀ i label, s.Called i (.runBuildAction label) →
    ∃ j f, s.frames j = some f ∧ f.call = .buildOne label ∧ ¬ MayStart label f.pc
  /-- … once. -/
  action_unique : ∀ i j label, s.Called i (.runBuildAction label) →
    s.Called j (.runBuildAction label) → i = j

/-! ## What later states still say -/

/-- An entry of the map stays, and goes from pending to valued only. -/
structure EntriesKept (s s' : State) : Prop where
  valued : ∀ label v, s.once.lookup label = some ⟨v, none⟩ →
    ∃ v', s'.once.lookup label = some ⟨v', none⟩
  pending : ∀ label v ch, s.once.lookup label = some ⟨v, some ch⟩ →
    (∃ v', s'.once.lookup label = some ⟨v', some ch⟩) ∨ ∃ v', s'.once.lookup label = some ⟨v', none⟩

theorem EntriesKept.of_lookup {s s' : State}
    (h : ∀ label, s'.once.lookup label = s.once.lookup label) : EntriesKept s s' where
  valued label v hv := ⟨v, (h label).trans hv⟩
  pending label v _ hv := .inl ⟨v, (h label).trans hv⟩

/-- What every step keeps: frames stay, and what they have returned stays. -/
structure Ext (s s' : State) : Prop extends EntriesKept s s' where
  frames : ∀ i f, s.frames i = some f → ∃ f', s'.frames i = some f' ∧ f'.call = f.call ∧
    ∀ err, f.pc = .returned err → f'.pc = .returned err

variable {w : World} {s s' : State} {c : Call} {err : Option Err} {label dep : BuildLabel}
  {target : BuildTarget}

variable {i : ℕ}

theorem Ext.called (h : Ext s s') (hc : s.Called i c) : s'.Called i c := by
  obtain ⟨f, hf, rfl⟩ := hc
  obtain ⟨f', hf', hcall, _⟩ := h.frames i f hf
  exact ⟨f', hf', hcall⟩

theorem Ext.returned (h : Ext s s') (hc : s.Returned c err) : s'.Returned c err := by
  obtain ⟨i, f, hf, rfl, hpc⟩ := hc
  obtain ⟨f', hf', hcall, hret⟩ := h.frames i f hf
  exact ⟨i, f', hf', hcall, hret err hpc⟩

theorem Ext.depBuilt (h : Ext s s') (hd : DepBuilt w s dep target) : DepBuilt w s' dep target := by
  intro x hx
  obtain ⟨label, rfl, hb⟩ := hd x hx
  exact ⟨label, rfl, h.returned hb⟩

theorem Ext.depsBuilt (h : Ext s s') (hd : DepsBuilt w s label) : DepsBuilt w s' label :=
  fun target ht dep hdep => h.depBuilt (hd target ht dep hdep)

theorem Ext.oneOk (h : Ext s s') {pc : Pc} (ho : OneOk w s label pc) : OneOk w s' label pc := by
  cases pc with
  | group phase =>
    cases phase with
    | deps =>
      refine ⟨ho.1, fun herr target ht dep hdep => ?_⟩
      rcases ho.2 herr target ht dep hdep with hd | ⟨i, hi, hd⟩ | hd
      · exact .inl hd
      · exact .inr (.inl ⟨i, hi, h.called hd⟩)
      · exact .inr (.inr (h.depBuilt hd))
    | _ => exact ⟨ho.1, h.depsBuilt ho.2⟩
  | resolving | action child => exact h.depsBuilt ho
  | _ => trivial

theorem Ext.frameOk (h : Ext s s') {f : Frame} (hf : FrameOk w s f) : FrameOk w s' f := by
  obtain ⟨call, ctx, pc⟩ := f
  cases call with
  | build label =>
    cases pc with
    | running => exact h.called hf
    | setting => exact h.returned hf
    | waiting ch =>
      rcases hf with ⟨v, hv⟩ | ⟨v, hv⟩
      · exact h.pending label v ch hv
      · exact .inr (h.valued label v hv)
    | woken =>
      obtain ⟨v, hv⟩ := hf
      exact h.valued label v hv
    | returned err =>
      cases err with
      | none => exact h.returned hf
      | some => trivial
    | _ => trivial
  | buildAll =>
    cases pc with
    | group => exact hf
    | _ => trivial
  | buildOne => exact h.oneOk hf
  | buildDep dep =>
    cases pc with
    | dep =>
      obtain ⟨cur, hall, hcur, hrest⟩ := hf
      refine ⟨cur, hall, h.called hcur, fun target ht => ?_⟩
      obtain ⟨pre, hpre, hbuilt⟩ := hrest target ht
      refine ⟨pre, hpre, fun x hx => ?_⟩
      obtain ⟨l, rfl, hb⟩ := hbuilt x hx
      exact ⟨l, rfl, h.returned hb⟩
    | returned err =>
      cases err with
      | none => exact fun target ht => h.depBuilt (hf target ht)
      | some => trivial
    | _ => trivial
  | runBuildAction => exact h.depsBuilt hf

/-! ## One frame moves on -/

/-- Frame `id` goes from `f` to position `pc`, and may start a new frame. -/
structure Moves (s s' : State) (id : ℕ) (f : Frame) (pc : Pc) (spawn : Option Call) : Prop where
  from_frame : s.frames id = some f
  running : ∀ err, f.pc ≠ .returned err
  self : s'.frames id = some { f with pc := pc }
  other : ∀ i, i ≠ id → i ≠ s.next → s'.frames i = s.frames i
  next_le : s.next ≤ s'.next
  spawned : match spawn with
    | none => s.next ≠ id → s'.frames s.next = s.frames s.next
    | some c => s.next < s'.next ∧ ∃ ctx, s'.frames s.next = some ⟨c, ctx, .start⟩

/-- What the map may do meanwhile. -/
structure OnceStep (s s' : State) : Prop extends EntriesKept s s' where
  chans : s'.once.ChansOk s'.nextChan s'.closed

/-- What it takes to start a frame. -/
def SpawnOk (w : World) (s s' : State) (f : Frame) (pc : Pc) : Call → Prop
  | .buildOne label => s.once.lookup label = none ∧ s'.once.lookup label ≠ none
  | .runBuildAction label => f.call = .buildOne label ∧ MayStart label f.pc ∧
      ¬ MayStart label pc ∧ DepsBuilt w s label
  | _ => True

variable {id : ℕ} {f : Frame} {pc : Pc} {spawn : Option Call}

theorem Inv.lt_next (hi : Inv w s) {g : Frame} (h : s.frames i = some g) : i < s.next := by
  by_contra hge
  rw [hi.fresh i (not_lt.mp hge)] at h
  cases h

/-- The frames after a move: the one that moved, the new one, and the old ones. -/
theorem Moves.cases (hi : Inv w s) (hm : Moves s s' id f pc spawn) {g : Frame}
    (h : s'.frames i = some g) :
    (i = id ∧ g = { f with pc := pc }) ∨
    (i = s.next ∧ ∃ c ctx, spawn = some c ∧ g = ⟨c, ctx, .start⟩) ∨
    (i ≠ id ∧ i ≠ s.next ∧ s.frames i = some g) := by
  have hid : s.next ≠ id := (hi.lt_next hm.from_frame).ne'
  by_cases h₁ : i = id
  · subst h₁
    rw [hm.self] at h
    exact .inl ⟨rfl, (some.inj h).symm⟩
  · by_cases h₂ : i = s.next
    · subst h₂
      have hsp := hm.spawned
      cases spawn with
      | none =>
        rw [hsp hid, hi.fresh _ le_rfl] at h
        cases h
      | some c =>
        obtain ⟨_, ctx, hctx⟩ := hsp
        rw [hctx] at h
        exact .inr (.inl ⟨rfl, c, ctx, rfl, (some.inj h).symm⟩)
    · rw [hm.other i h₁ h₂] at h
      exact .inr (.inr ⟨h₁, h₂, h⟩)

theorem Moves.ext (hi : Inv w s) (hm : Moves s s' id f pc spawn)
    (ho : OnceStep s s') : Ext s s' := by
  refine ⟨ho.toEntriesKept, fun i g hg => ?_⟩
  by_cases h : i = id
  · subst h
    have hfg : f = g := some.inj (hm.from_frame.symm.trans hg)
    subst hfg
    exact ⟨_, hm.self, rfl, fun err herr => absurd herr (hm.running err)⟩
  · exact ⟨g, (hm.other i h (hi.lt_next hg).ne).trans hg, rfl, fun _ h => h⟩

/-- A call that was there before the move, or is the new one. -/
theorem Moves.called (hi : Inv w s) (hm : Moves s s' id f pc spawn) (h : s'.Called i c) :
    s.Called i c ∨ i = s.next ∧ spawn = some c := by
  obtain ⟨g, hg, rfl⟩ := h
  rcases hm.cases hi hg with ⟨rfl, rfl⟩ | ⟨rfl, c, ctx, hc, rfl⟩ | ⟨_, _, hg⟩
  · exact .inl ⟨f, hm.from_frame, rfl⟩
  · exact .inr ⟨rfl, hc⟩
  · exact .inl ⟨g, hg, rfl⟩

/-- What every step does: it keeps the invariant and what was known, and starts an
action only when what has to be built before it has been. -/
structure StepOk (w : World) (s s' : State) : Prop where
  inv : Inv w s'
  ext : Ext s s'
  started : ∀ label, s'.Started label → s.Started label ∨ DepsBuilt w s label

/-- **One move keeps the invariant** if the frame that moved is right about its
new position and may start what it starts. -/
theorem Inv.of_moves (hi : Inv w s) (hm : Moves s s' id f pc spawn) (ho : OnceStep s s')
    (hvalued : ∀ label v, s'.once.lookup label = some ⟨v, none⟩ → s'.Returned (body label) v.err)
    (hok : Ext s s' → FrameOk w s' { f with pc := pc })
    (hmay : ∀ label, f.call = .buildOne label → MayStart label pc → MayStart label f.pc)
    (hspawn : ∀ c, spawn = some c → SpawnOk w s s' f pc c) : StepOk w s s' := by
  have hext := hm.ext hi ho
  have hentry : ∀ label, s.once.lookup label ≠ none → s'.once.lookup label ≠ none := by
    intro label hne
    obtain ⟨⟨v, wait⟩, hv⟩ := ne_none_iff_exists'.mp hne
    cases wait with
    | none =>
      obtain ⟨v', hv'⟩ := ho.valued label v hv
      rw [hv']; exact some_ne_none _
    | some ch =>
      rcases ho.pending label v ch hv with ⟨v', hv'⟩ | ⟨v', hv'⟩ <;>
        (rw [hv']; exact some_ne_none _)
  -- the parent of an action cannot start another one
  have hnone : ∀ i label, s.Called i (.runBuildAction label) →
      spawn ≠ some (.runBuildAction label) := by
    intro i label hc hsp
    obtain ⟨hcall, hstart, _⟩ := hspawn _ hsp
    obtain ⟨j, g, hg, hgcall, hnot⟩ := hi.action_parent i label hc
    have hj : j = id := hi.one_unique j id label ⟨g, hg, hgcall⟩ ⟨f, hm.from_frame, hcall⟩
    subst hj
    have hfg : f = g := some.inj (hm.from_frame.symm.trans hg)
    subst hfg
    exact hnot hstart
  refine ⟨⟨?_, ho.chans, ?_, hvalued, ?_, ?_, ?_, ?_⟩, hext, ?_⟩
  · intro i hle
    cases hg : s'.frames i with
    | none => rfl
    | some =>
      rcases hm.cases hi hg with ⟨rfl, _⟩ | ⟨rfl, c, _, hc, _⟩ | ⟨_, _, hold⟩
      · exact absurd (hi.lt_next hm.from_frame) (not_lt.mpr (hm.next_le.trans hle))
      · have hsp := hm.spawned
        rw [hc] at hsp
        exact absurd hsp.1 (not_lt.mpr hle)
      · exact absurd (hi.lt_next hold) (not_lt.mpr (hm.next_le.trans hle))
  · intro i g hg
    rcases hm.cases hi hg with ⟨_, rfl⟩ | ⟨_, c, ctx, hc, rfl⟩ | ⟨_, _, hold⟩
    · exact hok hext
    · have hsp := hspawn c hc
      cases c with
      | runBuildAction => exact hext.depsBuilt hsp.2.2.2
      | _ => trivial
    · exact hext.frameOk (hi.frame i g hold)
  · intro i label hc
    rcases hm.called hi hc with hc | ⟨_, hc⟩
    · exact hentry label (hi.one_entry i label hc)
    · exact (hspawn _ hc).2
  · intro i j label h₁ h₂
    rcases hm.called hi h₁ with h₁ | ⟨e₁, c₁⟩ <;> rcases hm.called hi h₂ with h₂ | ⟨e₂, c₂⟩
    · exact hi.one_unique i j label h₁ h₂
    · exact absurd (hspawn _ c₂).1 (hi.one_entry i label h₁)
    · exact absurd (hspawn _ c₁).1 (hi.one_entry j label h₂)
    · rw [e₁, e₂]
  · intro i label hc
    rcases hm.called hi hc with hc | ⟨_, hc⟩
    · obtain ⟨j, g, hg, hcall, hnot⟩ := hi.action_parent i label hc
      by_cases hj : j = id
      · subst hj
        have hfg : f = g := some.inj (hm.from_frame.symm.trans hg)
        subst hfg
        exact ⟨j, _, hm.self, hcall, fun h => hnot (hmay label hcall h)⟩
      · exact ⟨j, g, (hm.other j hj (hi.lt_next hg).ne).trans hg, hcall, hnot⟩
    · obtain ⟨hcall, _, hnot, _⟩ := hspawn _ hc
      exact ⟨id, _, hm.self, hcall, hnot⟩
  · intro i j label h₁ h₂
    rcases hm.called hi h₁ with h₁ | ⟨e₁, c₁⟩ <;> rcases hm.called hi h₂ with h₂ | ⟨e₂, c₂⟩
    · exact hi.action_unique i j label h₁ h₂
    · exact absurd c₂ (hnone i label h₁)
    · exact absurd c₁ (hnone j label h₂)
    · rw [e₁, e₂]
  · rintro label ⟨i, hc⟩
    rcases hm.called hi hc with hc | ⟨_, hc⟩
    · exact .inl ⟨i, hc⟩
    · exact .inr (hspawn _ hc).2.2.2

/-- Two states that differ only in their contexts: the entries of the map, its
channels and the frames are the same. -/
structure SameButCtx (s s₁ : State) : Prop where
  frames : s₁.frames = s.frames
  next : s₁.next = s.next
  once : ∀ label, s₁.once.lookup label = s.once.lookup label
  nextChan : s₁.nextChan = s.nextChan
  closed : s₁.closed = s.closed

theorem SameButCtx.refl (s : State) : SameButCtx s s := ⟨rfl, rfl, fun _ => rfl, rfl, rfl⟩

theorem sameButCtx_cancelGroup (w : World) (s : State) (gctx : ℕ) :
    SameButCtx s (s.cancelGroup w gctx) := by
  unfold cancelGroup
  split <;> exact ⟨rfl, rfl, fun _ => rfl, rfl, rfl⟩

section moves

variable (s₁ : State) (hf : s.frames id = some f) (hrun : ∀ err, f.pc ≠ .returned err)
  (hframes : s₁.frames = s.frames) (hnext : s₁.next = s.next)

include hf hrun hframes hnext

theorem moves_goto (pc : Pc) : Moves s (s₁.goto id f pc) id f pc none where
  from_frame := hf
  running := hrun
  self := update_self ..
  other i h _ := by rw [← hframes]; exact update_of_ne h ..
  next_le := hnext.ge
  spawned h := by rw [← hframes]; exact update_of_ne h ..

theorem moves_call (hi : Inv w s)
    (c : Call) (ctx : ℕ) (pc : Pc) : Moves s (s₁.call id f c ctx pc) id f pc (some c) where
  from_frame := hf
  running := hrun
  self := update_self ..
  other i h₁ h₂ := by
    rw [← hframes]
    refine (update_of_ne h₁ ..).trans (update_of_ne ?_ ..)
    rw [hnext]
    exact h₂
  next_le := by rw [← hnext]; exact Nat.le_succ _
  spawned := by
    refine ⟨by rw [← hnext]; exact Nat.lt_succ_self _, ctx, ?_⟩
    refine (update_of_ne (hi.lt_next hf).ne' ..).trans ?_
    rw [hnext]
    exact update_self ..

end moves

theorem Inv.onceStep (hi : Inv w s) (ho : ∀ label, s'.once.lookup label = s.once.lookup label)
    (hn : s'.nextChan = s.nextChan) (hc : s'.closed = s.closed) : OnceStep s s' where
  toEntriesKept := .of_lookup ho
  chans := by rw [hn, hc]; exact hi.chans.of_lookup ho

section

variable (hi : Inv w s) {s₁ : State} (hs : SameButCtx s s₁) (hf : s.frames id = some f)
  (hrun : ∀ err, f.pc ≠ .returned err)
include hi hs hf hrun

/-- A move that leaves the map alone. -/
theorem Inv.goto
    (hmay : ∀ label, f.call = .buildOne label → MayStart label pc → MayStart label f.pc)
    (hok : ∀ s', Ext s s' → FrameOk w s' { f with pc := pc }) : StepOk w s (s₁.goto id f pc) := by
  have hm := moves_goto s₁ hf hrun hs.frames hs.next pc
  have ho : OnceStep s (s₁.goto id f pc) := hi.onceStep hs.once hs.nextChan hs.closed
  refine hi.of_moves hm ho ?_ (fun hext => hok _ hext) hmay (by simp)
  intro label v h
  exact (hm.ext hi ho).returned (hi.valued label v ((hs.once label).symm.trans h))

/-- A move that starts a frame other than `buildOne` and leaves the map alone. -/
theorem Inv.call
    (hmay : ∀ label, f.call = .buildOne label → MayStart label pc → MayStart label f.pc) {ctx : ℕ}
    (hspawn : SpawnOk w s (s₁.call id f c ctx pc) f pc c)
    (hok : ∀ s', Ext s s' → s'.Called s.next c → FrameOk w s' { f with pc := pc }) :
    StepOk w s (s₁.call id f c ctx pc) := by
  have hm := moves_call s₁ hf hrun hs.frames hs.next hi c ctx pc
  have ho : OnceStep s (s₁.call id f c ctx pc) := hi.onceStep hs.once hs.nextChan hs.closed
  obtain ⟨_, ctx', hnew⟩ := hm.spawned
  refine hi.of_moves hm ho ?_ (fun hext => hok _ hext ⟨_, hnew, rfl⟩) hmay ?_
  · intro label v h
    exact (hm.ext hi ho).returned (hi.valued label v ((hs.once label).symm.trans h))
  · intro c' hc'
    cases hc'
    exact hspawn

theorem Inv.enterGroup {phase : Phase} {todo : List Call}
    (hmay : ∀ gctx label, f.call = .buildOne label →
      MayStart label (.group phase todo [] none gctx) → MayStart label f.pc)
    (hok : ∀ gctx s', Ext s s' → FrameOk w s' { f with pc := .group phase todo [] none gctx }) :
    StepOk w s (s₁.enterGroup w id f phase todo) := by
  unfold State.enterGroup
  split
  · exact hi.goto hs hf hrun (hmay f.ctx) (hok f.ctx)
  · exact hi.goto ⟨hs.frames, hs.next, hs.once, hs.nextChan, hs.closed⟩ hf hrun (hmay _) (hok _)

end

/-! ## `Build` -/

theorem frameOk_build_returned {ctx : ℕ} (h : s.Returned (body label) err) :
    FrameOk w s ⟨.build label, ctx, .returned err⟩ := by
  cases err with
  | none => exact h
  | some => trivial

variable {v : ErrV (Option BuildLabel) Err}

theorem frameOk_afterGetOrWait {ctx : ℕ} {wait : Option Chan}
    (hext : Ext s s') (hi : Inv w s) (hl : s.once.lookup label = some ⟨v, wait⟩) :
    FrameOk w s' ⟨.build label, ctx, afterGetOrWait v wait⟩ := by
  unfold afterGetOrWait
  cases herr : v.err with
  | some => trivial
  | none =>
    cases wait with
    | some ch => exact hext.pending label v ch hl
    | none => exact hext.returned (herr ▸ hi.valued label v hl)

variable {ctx : ℕ}

/-- The first caller registers the label and runs the function. -/
theorem stepOk_register (hi : Inv w s) (hf : s.frames id = some ⟨.build label, ctx, .missed⟩)
    (hl : s.once.lookup label = none) {m : Map BuildLabel (ErrV (Option BuildLabel) Err)}
    (hm : ∀ l, m.lookup l = if l = label then some ⟨default, some s.nextChan⟩
      else s.once.lookup l) :
    StepOk w s ({ s with once := m, nextChan := s.nextChan + 1 }.call id
      ⟨.build label, ctx, .missed⟩
      (body label) ctx (.running s.next)) := by
  have hmoves := moves_call { s with once := m, nextChan := s.nextChan + 1 } hf (by simp) rfl rfl hi
    (body label) ctx (.running s.next)
  have hsame : ∀ l e, s.once.lookup l = some e → m.lookup l = some e := by
    intro l e h
    rw [hm, if_neg, h]
    rintro rfl
    rw [hl] at h
    cases h
  have ho : OnceStep s (call { s with once := m, nextChan := s.nextChan + 1 } id
      ⟨.build label, ctx, .missed⟩ (body label) ctx (.running s.next)) :=
    ⟨⟨fun l v h => ⟨v, hsame l _ h⟩, fun l v ch h => .inl ⟨v, hsame l _ h⟩⟩, hi.chans.register hm⟩
  refine hi.of_moves hmoves ho ?_ ?_ (by simp) ?_
  · intro l v h
    have h' : s.once.lookup l = some ⟨v, none⟩ := by
      have h₁ : m.lookup l = some ⟨v, none⟩ := h
      rw [hm] at h₁
      split_ifs at h₁
      · cases h₁
      · exact h₁
    exact (hmoves.ext hi ho).returned (hi.valued l v h')
  · intro _
    obtain ⟨_, ctx, hnew⟩ := hmoves.spawned
    exact ⟨_, hnew, rfl⟩
  · intro c hc
    cases hc
    unfold body
    split_ifs
    · trivial
    · refine ⟨hl, ?_⟩
      show m.lookup label ≠ none
      rw [hm, if_pos rfl]
      exact some_ne_none _

/-- The first caller stores what the function returned. -/
theorem stepOk_set (hi : Inv w s)
    (hf : s.frames id = some ⟨.build label, ctx, .setting v⟩) :
    StepOk w s ({ s with
      once := (s.once.set label v).1
      closed := s.closed ++ (s.once.set label v).2.toList }.goto id ⟨.build label, ctx, .setting v⟩
        (.returned v.err)) := by
  have hret : s.Returned (body label) v.err := hi.frame id _ hf
  have hmoves := moves_goto { s with
    once := (s.once.set label v).1
    closed := s.closed ++ (s.once.set label v).2.toList } hf (by simp) rfl rfl (.returned v.err)
  obtain ⟨_, hm⟩ := s.once.set_spec label v
  have ho : OnceStep s (goto { s with
      once := (s.once.set label v).1
      closed := s.closed ++ (s.once.set label v).2.toList } id ⟨.build label, ctx, .setting v⟩
        (.returned v.err)) := by
    refine ⟨⟨fun l v₁ h => ?_, fun l v₁ ch h => ?_⟩, hi.chans.set label v⟩
    · show ∃ v₂, (s.once.set label v).1.lookup l = _
      rw [hm]
      split_ifs
      · exact ⟨v, rfl⟩
      · exact ⟨v₁, h⟩
    · show (∃ v₂, (s.once.set label v).1.lookup l = _) ∨ ∃ v₂, (s.once.set label v).1.lookup l = _
      rw [hm]
      split_ifs
      · exact .inr ⟨v, rfl⟩
      · exact .inl ⟨v₁, h⟩
  refine hi.of_moves hmoves ho ?_ ?_ (by simp) (by simp)
  · intro l v₁ h
    refine (hmoves.ext hi ho).returned ?_
    have h₁ : (s.once.set label v).1.lookup l = some ⟨v₁, none⟩ := h
    rw [hm] at h₁
    split_ifs at h₁ with hl
    · cases h₁
      rw [hl]
      exact hret
    · exact hi.valued l v₁ h₁
  · exact fun hext => frameOk_build_returned (hext.returned hret)

theorem stepOk_stepBuild (hi : Inv w s) (hf : s.frames id = some ⟨.build label, ctx, pc⟩)
    (h : stepBuild w s id ⟨.build label, ctx, pc⟩ label = some s') : StepOk w s s' := by
  have hok := hi.frame id _ hf
  unfold stepBuild at h
  cases pc with
  | start =>
    dsimp only at h
    split at h
    · cases h
      exact hi.goto (.refl s) hf (by simp) (by simp) fun _ _ => trivial
    · rw [Map.probe_eq] at h
      cases hl : s.once.lookup label with
      | none =>
        simp only [hl, map_none] at h
        cases h
        exact hi.goto (.refl s) hf (by simp) (by simp) fun _ _ => trivial
      | some =>
        simp only [hl, map_some] at h
        cases h
        exact hi.goto (.refl s) hf (by simp) (by simp) fun _ hext =>
          frameOk_afterGetOrWait hext hi hl
  | missed =>
    dsimp only at h
    cases hl : s.once.lookup label with
    | none =>
      obtain ⟨h2, hm⟩ := Map.register_of_none hl s.nextChan
      rw [h2] at h
      cases h
      exact stepOk_register hi hf hl hm
    | some =>
      obtain ⟨h2, hm⟩ := Map.register_of_some hl s.nextChan
      rw [h2] at h
      cases h
      exact hi.goto ⟨rfl, rfl, hm, rfl, rfl⟩ hf (by simp) (by simp) fun _ hext =>
        frameOk_afterGetOrWait hext hi hl
  | running child =>
    dsimp only at h
    split at h
    · rename_i call ctx err hchild
      cases h
      obtain ⟨g, hg, hgcall⟩ := hok
      rw [hchild] at hg
      cases hg
      exact hi.goto (.refl s) hf (by simp) (by simp) fun _ hext =>
        hext.returned ⟨child, _, hchild, hgcall, rfl⟩
    · cases h
  | setting =>
    cases h
    exact stepOk_set hi hf
  | waiting ch =>
    dsimp only at h
    split_ifs at h with hclosed
    cases h
    refine hi.goto (.refl s) hf (by simp) (by simp) fun _ hext => ?_
    rcases hok with ⟨v, hv⟩ | ⟨v, hv⟩
    · exact absurd hclosed (hi.chans.pending label v ch hv).2
    · exact hext.valued label v hv
  | woken =>
    cases h
    obtain ⟨v, hv⟩ := hok
    refine hi.goto (.refl s) hf (by simp) (by simp) fun _ hext => ?_
    rw [Map.get_eq, hv]
    exact frameOk_build_returned (hext.returned (hi.valued label v hv))
  | _ => cases h

/-! ## `buildDep` -/

theorem resolveTarget_isAllTargets (h : some label ∈ resolveTarget w dep target) :
    label.isAllTargets = false := by
  unfold resolveTarget at h
  cases hd : w.graph.target dep with
  | none => simp [hd] at h
  | some =>
    simp only [hd] at h
    split_ifs at h
    · rw [mem_singleton] at h
      cases h
      rw [w.graph.target_label hd]
      exact w.graph.target_isAllTargets hd
    · obtain ⟨p, _, hp⟩ := mem_map.mp h
      obtain ⟨t', ht', rfl⟩ := map_eq_some_iff.mp hp
      rw [w.graph.target_label ht']
      exact w.graph.target_isAllTargets ht'

/-- The loop goes on, when everything before `rest` has been built. -/
theorem stepOk_buildNext (hi : Inv w s) (hf : s.frames id = some ⟨.buildDep dep label, ctx, pc⟩)
    (hrun : ∀ err, pc ≠ .returned err) (ht : w.graph.target label = some target)
    {pre rest : List (Option BuildLabel)} (hsplit : resolveTarget w dep target = pre ++ rest)
    (hpre : ∀ x ∈ pre, ∃ l, x = some l ∧ s.Built l) :
    StepOk w s (buildNext s id ⟨.buildDep dep label, ctx, pc⟩ dep rest) := by
  cases rest with
  | nil =>
    refine hi.goto (.refl s) hf hrun (by simp) fun s' hext target' ht' => ?_
    rw [ht] at ht'
    cases ht'
    rw [append_nil] at hsplit
    refine hext.depBuilt fun x hx => hpre x ?_
    rw [← hsplit]
    exact hx
  | cons x =>
    cases x with
    | none => exact hi.goto (.refl s) hf hrun (by simp) fun _ _ => trivial
    | some cur =>
      refine hi.call (.refl s) hf hrun (by simp) trivial fun s' hext hcalled => ?_
      refine ⟨cur, ?_, hcalled, fun target' ht' => ?_⟩
      · have hmem : some cur ∈ resolveTarget w dep target := by
          rw [hsplit]
          exact mem_append_right _ mem_cons_self
        exact resolveTarget_isAllTargets hmem
      · rw [ht] at ht'
        cases ht'
        refine ⟨pre, hsplit, fun x hx => ?_⟩
        obtain ⟨l, rfl, hb⟩ := hpre x hx
        exact ⟨l, rfl, hext.returned hb⟩

theorem stepOk_stepDep (hi : Inv w s) (hf : s.frames id = some ⟨.buildDep dep label, ctx, pc⟩)
    (ht : w.graph.target label = some target)
    (h : stepDep w s id ⟨.buildDep dep label, ctx, pc⟩ dep target = some s') : StepOk w s s' := by
  unfold stepDep at h
  cases pc with
  | start =>
    cases h
    refine stepOk_buildNext hi hf (by simp) ht (nil_append _).symm ?_
    exact forall_mem_nil _
  | dep child rest =>
    obtain ⟨cur, hall, ⟨g, hg, hgcall⟩, hrest⟩ := hi.frame id _ hf
    dsimp only at h
    split at h
    · rename_i call ctx hchild
      cases h
      obtain ⟨pre, hsplit, hpre⟩ := hrest target ht
      have hsplit' : resolveTarget w dep target = (pre ++ [some cur]) ++ rest := by
        rw [hsplit, append_assoc, singleton_append]
      refine stepOk_buildNext hi hf (by simp) ht hsplit' fun x hx => ?_
      rcases mem_append.mp hx with hx | hx
      · exact hpre x hx
      -- what `Build` returned is what `buildOne` returned
      · rw [hchild] at hg
        cases hg
        cases hgcall
        have hbody : body cur = .buildOne cur := if_neg (by rw [hall]; exact Bool.false_ne_true)
        have hbuilt : s.Returned (body cur) none := hi.frame child _ hchild
        rw [hbody] at hbuilt
        exact ⟨cur, mem_singleton.mp hx, hbuilt⟩
    · cases h
      exact hi.goto (.refl s) hf (by simp) (by simp) fun _ _ => trivial
    · cases h
  | _ => cases h

/-! ## `buildOne` and the others -/

theorem exists_of_mem_deps {deps : List BuildLabel}
    (h : c ∈ deps.map fun dep => Call.buildDep dep label) : ∃ dep, c = .buildDep dep label := by
  obtain ⟨dep, _, rfl⟩ := mem_map.mp h
  exact ⟨dep, rfl⟩

theorem todoOk_parallel (deps : List BuildLabel) (label : BuildLabel) :
    TodoOk label .parallel (.runBuildAction label :: deps.map fun dep => .buildDep dep label) := by
  have hno : Call.runBuildAction label ∉ deps.map fun dep => Call.buildDep dep label := by
    intro hmem
    obtain ⟨_, h⟩ := exists_of_mem_deps hmem
    cases h
  refine ⟨?_, fun c hc => ?_⟩
  · rw [count_cons_self, count_eq_zero_of_not_mem hno]
  · rcases mem_cons.mp hc with rfl | hc
    · exact .inr ⟨rfl, rfl⟩
    · exact .inl (exists_of_mem_deps hc)

theorem TodoOk.tail {phase : Phase} {todo : List Call} (h : TodoOk label phase (c :: todo)) :
    TodoOk label phase todo :=
  ⟨(count_le_count_cons).trans h.1, fun c' hc' => h.2 c' (mem_cons_of_mem _ hc')⟩

theorem todoOk_deps (deps : List BuildLabel) (label : BuildLabel) (phase : Phase) :
    TodoOk label phase (deps.map fun dep => .buildDep dep label) := by
  have h := (todoOk_parallel deps label).tail
  refine ⟨h.1, fun c hc => .inl (exists_of_mem_deps hc)⟩

section buildOne

variable {target : BuildTarget} {s₁ : State}

section

variable (hi : Inv w s) (hf : s.frames id = some ⟨.buildOne target.label, ctx, pc⟩)
  (hs : SameButCtx s s₁) (hdeps : DepsBuilt w s target.label)
include hi hf hs hdeps

theorem stepOk_afterAction (hrun : ∀ err, pc ≠ .returned err) :
    StepOk w s (afterAction w s₁ id ⟨.buildOne target.label, ctx, pc⟩ target) := by
  unfold afterAction
  split
  · exact hi.enterGroup hs hf hrun (fun _ _ _ h => h.elim) fun _ _ hext =>
      ⟨todoOk_deps _ _ _, hext.depsBuilt hdeps⟩
  · exact hi.goto hs hf hrun (fun _ _ h => h.elim) fun _ _ => trivial

theorem stepOk_runBuildAction (hmay : MayStart target.label pc) (hrun : ∀ err, pc ≠ .returned err) :
    StepOk w s (s₁.call id ⟨.buildOne target.label, ctx, pc⟩ (.runBuildAction target.label) ctx
      (.action s₁.next)) :=
  hi.call hs hf hrun (by simp [MayStart]) ⟨rfl, hmay, not_false, hdeps⟩ fun _ hext _ =>
    hext.depsBuilt hdeps

end

theorem stepOk_afterDeps (hi : Inv w s)
    (hf : s.frames id = some ⟨.buildOne target.label, ctx, .resolving⟩) :
    StepOk w s (afterDeps w s id ⟨.buildOne target.label, ctx, .resolving⟩ target) := by
  have hdeps : DepsBuilt w s target.label := hi.frame id _ hf
  unfold afterDeps
  dsimp only
  split
  · exact hi.goto (.refl s) hf (by simp) (by simp [MayStart]) fun _ _ => trivial
  · split_ifs
    · exact stepOk_runBuildAction hi hf (.refl s) hdeps trivial (by simp)
    · exact hi.enterGroup (.refl s) hf (by simp) (by simp [MayStart]) fun _ _ hext =>
        ⟨todoOk_deps _ _ _, hext.depsBuilt hdeps⟩
    · exact hi.enterGroup (.refl s) hf (by simp) (by simp [MayStart]) fun _ _ hext =>
        ⟨todoOk_parallel _ _, hext.depsBuilt hdeps⟩

/-- `Wait` has returned without error. -/
theorem stepOk_afterGroup (hi : Inv w s) {phase : Phase} {gctx : ℕ}
    (hf : s.frames id = some ⟨.buildOne target.label, ctx, .group phase [] [] none gctx⟩)
    (hs : SameButCtx s s₁) :
    StepOk w s (afterGroup w s₁ id
      ⟨.buildOne target.label, ctx, .group phase [] [] none gctx⟩ target
      phase) := by
  have hok := hi.frame id _ hf
  cases phase with
  | deps =>
    have hdeps : DepsBuilt w s target.label := by
      intro target' ht' dep hdep
      rcases hok.2 rfl target' ht' dep hdep with hd | ⟨i, hd, _⟩ | hd
      · exact absurd hd not_mem_nil
      · exact absurd hd not_mem_nil
      · exact hd
    unfold afterGroup
    dsimp only
    split
    · exact hi.enterGroup hs hf (by simp) (by simp [MayStart]) fun _ _ hext =>
        ⟨todoOk_deps _ _ _, hext.depsBuilt hdeps⟩
    · exact hi.goto hs hf (by simp) (by simp [MayStart]) fun _ hext => hext.depsBuilt hdeps
  | depsAgain => exact hi.goto hs hf (by simp) (by simp [MayStart]) fun _ hext =>
      hext.depsBuilt hok.2
  | runtimeFirst => exact stepOk_runBuildAction hi hf hs hok.2 trivial (by simp)
  | parallel => exact stepOk_afterAction hi hf hs hok.2 (by simp)
  | _ => exact hi.goto hs hf (by simp) (by simp [MayStart]) fun _ _ => trivial

/-- A group starts its next goroutine. -/
theorem stepOk_spawn (hi : Inv w s) {phase : Phase} {todo : List Call} {pending : List ℕ} {gctx : ℕ}
    (hf : s.frames id = some ⟨.buildOne label, ctx, .group phase (c :: todo) pending err gctx⟩) :
    StepOk w s (s.call id ⟨.buildOne label, ctx, .group phase (c :: todo) pending err gctx⟩ c gctx
      (.group phase todo (s.next :: pending) err gctx)) := by
  have hok : OneOk w s label (.group phase (c :: todo) pending err gctx) := hi.frame id _ hf
  have htodo : TodoOk label phase (c :: todo) := by cases phase <;> exact hok.1
  refine hi.call (.refl s) hf (by simp) (fun label' _ hmay => ?_) ?_ fun s' hext hnew => ?_
  · cases phase with
    | parallel => exact mem_cons_of_mem _ hmay
    | _ => exact hmay
  · rcases htodo.2 c mem_cons_self with ⟨dep, rfl⟩ | ⟨rfl, rfl⟩
    · trivial
    · refine ⟨rfl, mem_cons_self, ?_, hok.2⟩
      have hcount := htodo.1
      rw [count_cons_self] at hcount
      exact count_eq_zero.mp (by omega)
  · have hok' : OneOk w s' label (.group phase (c :: todo) pending err gctx) := hext.oneOk hok
    cases phase with
    | deps =>
      refine ⟨htodo.tail, fun herr target ht dep hdep => ?_⟩
      rcases hok'.2 herr target ht dep hdep with hd | ⟨i, hi, hd⟩ | hd
      · rcases mem_cons.mp hd with rfl | hd
        · exact .inr (.inl ⟨s.next, mem_cons_self, hnew⟩)
        · exact .inl hd
      · exact .inr (.inl ⟨i, mem_cons_of_mem _ hi, hd⟩)
      · exact .inr (.inr hd)
    | _ => exact ⟨htodo.tail, hok'.2⟩

theorem stepOk_stepOne (hi : Inv w s) (hf : s.frames id = some ⟨.buildOne target.label, ctx, pc⟩)
    (ht : w.graph.target target.label = some target)
    (h : stepOne w s id ⟨.buildOne target.label, ctx, pc⟩ target = some s') : StepOk w s s' := by
  unfold stepOne at h
  cases pc with
  | start =>
    cases h
    refine hi.enterGroup (.refl s) hf (by simp) (by simp [MayStart]) fun gctx s' hext => ?_
    refine ⟨todoOk_deps _ _ _, fun _ target' ht' dep hdep => .inl ?_⟩
    rw [ht] at ht'
    cases ht'
    exact mem_map_of_mem hdep
  | group _ todo pending err gctx =>
    cases todo with
    | cons =>
      cases h
      exact stepOk_spawn hi hf
    | nil =>
      cases pending with
      | cons => cases h
      | nil =>
        cases err with
        | some =>
          cases h
          exact hi.goto (sameButCtx_cancelGroup w s gctx) hf (by simp) (fun _ _ h => h.elim)
            fun _ _ => trivial
        | none =>
          cases h
          exact stepOk_afterGroup hi hf (sameButCtx_cancelGroup w s gctx)
  | resolving =>
    cases h
    exact stepOk_afterDeps hi hf
  | action =>
    dsimp only at h
    split at h
    · cases h
      exact stepOk_afterAction hi hf (.refl s) (hi.frame id _ hf) (by simp)
    · cases h
      exact hi.goto (.refl s) hf (by simp) (by simp [MayStart]) fun _ _ => trivial
    · cases h
  | _ => cases h

end buildOne

theorem stepOk_stepAll (hi : Inv w s) (hf : s.frames id = some ⟨.buildAll label, ctx, pc⟩)
    (h : stepAll w s id ⟨.buildAll label, ctx, pc⟩ label = some s') : StepOk w s s' := by
  unfold stepAll at h
  cases pc with
  | start =>
    dsimp only at h
    split at h
    · cases h
      exact hi.goto (.refl s) hf (by simp) (by simp) fun _ _ => trivial
    · cases h
      refine hi.enterGroup (.refl s) hf (by simp) (by simp) fun gctx s' hext c hc => ?_
      obtain ⟨l, _, rfl⟩ := mem_map.mp hc
      exact ⟨l, rfl⟩
  | group _ todo pending _ gctx =>
    cases todo with
    | cons c todo =>
      cases h
      have hok : ∀ c' ∈ c :: todo, ∃ label, c' = .build label := hi.frame id _ hf
      obtain ⟨l, rfl⟩ := hok c mem_cons_self
      exact hi.call (.refl s) hf (by simp) (by simp) trivial fun _ _ _ c' hc' =>
        hok c' (mem_cons_of_mem _ hc')
    | nil =>
      cases pending with
      | cons => cases h
      | nil =>
        cases h
        exact hi.goto (sameButCtx_cancelGroup w s gctx) hf (by simp) (by simp) fun _ _ => trivial
  | _ => cases h

/-- `runBuildAction` knows what it knew when it was started, wherever it is. -/
theorem stepOk_goto_action (hi : Inv w s) (hf : s.frames id = some ⟨.runBuildAction label, ctx, pc⟩)
    (pc' : Pc) (hrun : ∀ err, pc ≠ .returned err) :
    StepOk w s (s.goto id ⟨.runBuildAction label, ctx, pc⟩ pc') := by
  have hok : DepsBuilt w s label := hi.frame id _ hf
  exact hi.goto (.refl s) hf hrun (by simp) fun _ hext => hext.depsBuilt hok

theorem stepOk_stepAction (hi : Inv w s) (hf : s.frames id = some ⟨.runBuildAction label, ctx, pc⟩)
    (h : stepAction s id ⟨.runBuildAction label, ctx, pc⟩ = some s') : StepOk w s s' := by
  unfold stepAction at h
  cases pc with
  | start =>
    cases h
    exact stepOk_goto_action hi hf _ (by simp)
  | acquired => split_ifs at h <;> cases h <;> exact stepOk_goto_action hi hf _ (by simp)
  | _ => cases h

theorem stepOk_stepFrame (hi : Inv w s) (hf : s.frames id = some f)
    (h : stepFrame w s id f = some s') :
    StepOk w s s' := by
  obtain ⟨call, ctx, pc⟩ := f
  cases call with
  | build => exact stepOk_stepBuild hi hf h
  | buildAll => exact stepOk_stepAll hi hf h
  | buildOne =>
    obtain ⟨target, ht, hstep⟩ := bind_eq_some_iff.mp h
    obtain rfl := w.graph.target_label ht
    exact stepOk_stepOne hi hf ht hstep
  | buildDep =>
    obtain ⟨target, ht, hstep⟩ := bind_eq_some_iff.mp h
    exact stepOk_stepDep hi hf ht hstep
  | runBuildAction => exact stepOk_stepAction hi hf h

/-! ## Goroutines that return, and whole runs -/

/-- If a group has no error after a goroutine was joined, the goroutine had none,
so the dependency it was for has been built. -/
theorem oneOk_join (hi : Inv w s) {phase : Phase} {todo : List Call} {pending : List ℕ}
    {err' : Option Err} {gctx : ℕ} {child : ℕ} {call : Call}
    (hchild : s.frames child = some ⟨call, ctx, .returned err'⟩)
    (ho : OneOk w s label (.group phase todo pending err gctx)) :
    OneOk w s label (.group phase todo (pending.erase child) (err <|> err') gctx) := by
  cases phase with
  | deps =>
    refine ⟨ho.1, fun herr target ht dep hdep => ?_⟩
    obtain ⟨rfl, rfl⟩ : err = none ∧ err' = none := by
      cases err with
      | none => exact ⟨rfl, herr⟩
      | some => cases herr
    rcases ho.2 rfl target ht dep hdep with hd | ⟨i, hi', hd⟩ | hd
    · exact .inl hd
    · by_cases hic : i = child
      · subst hic
        obtain ⟨g', hg', hcall⟩ := hd
        rw [hchild] at hg'
        cases hg'
        cases hcall
        exact .inr (.inr (hi.frame i _ hchild target ht))
      · exact .inr (.inl ⟨i, (mem_erase_of_ne hic).mpr hi', hd⟩)
    · exact .inr (.inr hd)
  | _ => exact ho

section

variable (hi : Inv w s) (hf : s.frames id = some f)
include hi hf

theorem stepOk_stepJoin {child : ℕ} (h : stepJoin w s id f child = some s') : StepOk w s s' := by
  have hok := hi.frame id f hf
  obtain ⟨call, ctx, pc⟩ := f
  unfold stepJoin at h
  dsimp only at h
  split at h
  · rename_i phase todo pending err gctx _ _ err' hchild
    split at h
    · cases h
      have hs : SameButCtx s (if err.isNone && err'.isSome then s.cancelGroup w gctx else s) := by
        split
        · exact sameButCtx_cancelGroup w s gctx
        · exact .refl s
      refine hi.goto hs hf (by simp) (fun label _ hmay => ?_) fun s' hext => hext.frameOk ?_
      · cases phase <;> exact hmay
      · cases call with
        | buildOne => exact oneOk_join hi hchild hok
        | _ => exact hok
    · cases h
  · cases h

theorem stepOk_stepGiveUp (h : stepGiveUp s id f = some s') : StepOk w s s' := by
  have hok := hi.frame id f hf
  obtain ⟨call, ctx, pc⟩ := f
  unfold stepGiveUp at h
  cases pc with
  | waiting =>
    split_ifs at h
    cases h
    refine hi.goto (.refl s) hf (by simp) (fun _ _ h => h.elim) fun s' hext => hext.frameOk ?_
    cases call with
    | runBuildAction => exact hok
    | _ => trivial
  | _ => cases h

theorem stepOk_stepFinish {err : Option String} (h : stepFinish s id f err = some s') :
    StepOk w s s' := by
  obtain ⟨call, ctx, pc⟩ := f
  unfold stepFinish at h
  dsimp only at h
  split at h
  · cases h
    exact stepOk_goto_action hi hf _ (by simp)
  · cases h

end

theorem inv_init (h : init s) : Inv w s := by
  obtain ⟨⟨n, hn, hasher, hnew⟩, hclosed, hframes, _⟩ := h
  have hl : ∀ label, s.once.lookup label = none := fun label => Map.lookup_new hnew label
  have hno : ∀ i c, ¬ s.Called i c := by
    rintro i c ⟨f, hf, _⟩
    rw [hframes] at hf
    cases hf
  refine ⟨fun i _ => hframes i, ⟨?_, ?_, ?_⟩, ?_, ?_, ?_, ?_, ?_, ?_⟩
  · intro label v ch h
    rw [hl] at h
    cases h
  · intro label₁ label₂ v₁ v₂ ch h
    rw [hl] at h
    cases h
  · rw [hclosed]
    exact forall_mem_nil _
  · intro i f hf
    rw [hframes] at hf
    cases hf
  · intro label v h
    rw [hl] at h
    cases h
  · exact fun i label h => absurd h (hno i _)
  · exact fun i j label h => absurd h (hno i _)
  · exact fun i label h => absurd h (hno i _)
  · exact fun i j label h => absurd h (hno i _)

theorem stepOk_invoke (hi : Inv w s) (label : BuildLabel) : StepOk w s { s with
    frames := Function.update s.frames s.next (some ⟨.build label, 0, .start⟩)
    next := s.next + 1 } := by
  generalize hs' : ({ s with
    frames := update s.frames s.next (some ⟨.build label, 0, .start⟩)
    next := s.next + 1 } : State) = s'
  have honce : s'.once = s.once := by rw [← hs']
  have hnew : s'.frames s.next = some ⟨.build label, 0, .start⟩ := by
    rw [← hs']
    exact update_self ..
  have hold : ∀ i, i ≠ s.next → s'.frames i = s.frames i := by
    intro i hne
    rw [← hs']
    exact update_of_ne hne ..
  have hext : Ext s s' := by
    refine ⟨.of_lookup fun _ => by rw [honce], fun i f hf => ⟨f, ?_, rfl, fun _ h => h⟩⟩
    rw [hold i (hi.lt_next hf).ne, hf]
  -- the only new call is the one of `Build`
  have hcalled : ∀ {i c}, c ≠ .build label → s'.Called i c → s.Called i c := by
    rintro i c hc ⟨f, hf, rfl⟩
    by_cases h : i = s.next
    · rw [h, hnew] at hf
      cases hf
      exact absurd rfl hc
    · exact ⟨f, (hold i h).symm.trans hf, rfl⟩
  refine ⟨⟨?_, ?_, ?_, ?_, ?_, ?_, ?_, ?_⟩, hext, ?_⟩
  · intro i hle
    have hnext : s'.next = s.next + 1 := by rw [← hs']
    rw [hold i (by omega)]
    exact hi.fresh i (by omega)
  · rw [← hs']
    exact hi.chans
  · intro i f hf
    by_cases h : i = s.next
    · rw [h, hnew] at hf
      cases hf
      trivial
    · exact hext.frameOk (hi.frame i f ((hold i h).symm.trans hf))
  · rw [honce]
    exact fun label v h => hext.returned (hi.valued label v h)
  · rw [honce]
    exact fun i label h => hi.one_entry i label (hcalled (by simp) h)
  · exact fun i j label h₁ h₂ =>
      hi.one_unique i j label (hcalled (by simp) h₁) (hcalled (by simp) h₂)
  · intro i label h
    obtain ⟨j, f, hf, hcall, hnot⟩ := hi.action_parent i label (hcalled (by simp) h)
    exact ⟨j, f, (hold j (hi.lt_next hf).ne).trans hf, hcall, hnot⟩
  · exact fun i j label h₁ h₂ =>
      hi.action_unique i j label (hcalled (by simp) h₁) (hcalled (by simp) h₂)
  · rintro label ⟨_, h⟩
    exact .inl ⟨_, hcalled (by simp) h⟩

/-- The invariant says nothing about contexts. -/
theorem stepOk_cancel (hi : Inv w s) (ctxs : List ℕ) : StepOk w s { s with cancelled := ctxs } where
  inv := ⟨hi.fresh, hi.chans, hi.frame, hi.valued, hi.one_entry, hi.one_unique, hi.action_parent,
    hi.action_unique⟩
  ext := ⟨.of_lookup fun _ => rfl, fun _ f hf => ⟨f, hf, rfl, fun _ h => h⟩⟩
  started _ h := .inl h

/-- **What one step preserves.** -/
theorem stepOk_step {e : Event} (hi : Inv w s) (h : step w s e = some s') : StepOk w s s' := by
  cases e with
  | invoke label => cases h; exact stepOk_invoke hi label
  | cancel =>
    unfold step at h
    dsimp only at h
    split at h <;> split_ifs at h <;> cases h <;> exact stepOk_cancel hi _
  | run =>
    obtain ⟨f, hf, hstep⟩ := bind_eq_some_iff.mp h
    exact stepOk_stepFrame hi hf hstep
  | join =>
    obtain ⟨f, hf, hstep⟩ := bind_eq_some_iff.mp h
    exact stepOk_stepJoin hi hf hstep
  | giveUp =>
    obtain ⟨f, hf, hstep⟩ := bind_eq_some_iff.mp h
    exact stepOk_stepGiveUp hi hf hstep
  | finish =>
    obtain ⟨f, hf, hstep⟩ := bind_eq_some_iff.mp h
    exact stepOk_stepFinish hi hf hstep

/-- **The invariant holds in every reachable state.** -/
theorem inv_reachable (hs : (system w).Reachable s) : Inv w s :=
  System.invariant (P := Inv w) (fun _ h => inv_init h)
    (fun _ _ _ _ hi h => (stepOk_step hi h).inv) s hs

theorem returned_run (hs : (system w).Reachable s) (h : (system w).Run s s')
    (hc : s.Returned c err) :
    s'.Returned c err :=
  System.Run.stable (P := fun s => s.Returned c err)
    (fun _ _ _ hr hP h => (stepOk_step (inv_reachable hr) h).ext.returned hP) hs h hc

/-- `buildOne` of a label returns once. -/
theorem Inv.returned_unique (hi : Inv w s) {err' : Option Err}
    (h : s.Returned (.buildOne label) err) (h' : s.Returned (.buildOne label) err') :
    err = err' := by
  obtain ⟨i, f, hf, hcall, hpc⟩ := h
  obtain ⟨j, g, hg, hcall', hpc'⟩ := h'
  obtain rfl := hi.one_unique i j label ⟨f, hf, hcall⟩ ⟨g, hg, hcall'⟩
  rw [hf] at hg
  cases hg
  rw [hpc] at hpc'
  cases hpc'
  rfl

/-- What an action has been started for has its dependencies built. -/
theorem Inv.depsBuilt_of_started (hi : Inv w s) (h : s.Started label) : DepsBuilt w s label := by
  obtain ⟨i, f, hf, hcall⟩ := h
  have hok := hi.frame i f hf
  unfold FrameOk at hok
  rw [hcall] at hok
  exact hok

/-- **Builds are scheduled safely**, in every interleaving: `runBuildAction` is
started at most once for a label; it is started only when, for every build
dependency and every label source of its target, every target this resolves to
has had its `buildOne` return without error; and once one of those has
returned an error, it has not been started and never is. -/
theorem schedule_safe (w : World) (s : State) (hs : (system w).Reachable s) (label : BuildLabel) :
    (∀ i j, s.Called i (.runBuildAction label) → s.Called j (.runBuildAction label) → i = j) ∧
    ∀ target, w.graph.target label = some target →
      ∀ dep ∈ target.buildDependencyLabels ++ target.allSources.filterMap BuildInput.label,
      ∀ x ∈ resolveTarget w dep target,
        (∀ e s', step w s e = some s' → ¬ s.Started label → s'.Started label →
          ∃ l, x = some l ∧ s.Built l) ∧
        ∀ l err, x = some l → s.Returned (.buildOne l) (some err) →
          ∀ s', (system w).Run s s' → ¬ s'.Started label := by
  have hi := inv_reachable hs
  refine ⟨fun i j => hi.action_unique i j label, ?_⟩
  intro target ht dep hdep x hx
  constructor
  · intro e s' hstep hnot hstart
    rcases (stepOk_step hi hstep).started label hstart with h | h
    · exact absurd h hnot
    · exact h target ht dep hdep x hx
  · intro l err hl hret s' hrun hstart
    have hi' := inv_reachable (hs.run hrun)
    obtain ⟨l', hl', hbuilt⟩ := hi'.depsBuilt_of_started hstart target ht dep hdep x hx
    rw [hl] at hl'
    cases hl'
    have := hi'.returned_unique (returned_run hs hrun hret) hbuilt
    cases this

/-- `//:b` depends on `//:a`. -/
def twoTargets : World where
  graph :=
    { targets := [BuildTarget.new ⟨"", "a", ""⟩,
        { BuildTarget.new ⟨"", "b", ""⟩ with
          dependencies := [⟨⟨"", "a", ""⟩, false, false, false, false, false⟩] }] }
  allTargets _ := none
  keepGoing := false

/-- Nothing has been called, and the map has one shard. -/
def idle : State :=
  ⟨⟨1, 0, fun _ => 0, fun _ => ⟨∅⟩, Nat.one_pos⟩, 0, [], fun _ => none, 0, fun _ => none, 1, []⟩

theorem idle_reachable (w : World) : (system w).Reachable idle :=
  .init ⟨⟨1, Nat.one_pos, fun _ => 0, rfl⟩, rfl, fun _ => rfl, fun _ => rfl, Nat.one_pos, rfl⟩

/-- `//:b` is built: `//:a` has been, and the action of `//:b` is next. -/
def buildTwo : List Event :=
  [.invoke ⟨"", "b", ""⟩, .run 0, .run 0, .run 1, .run 1, .run 2, .run 3, .run 3, .run 4,
      .run 4, .run 4,
    .run 5, .run 5, .finish 5 none, .run 4, .run 3, .run 3, .run 2, .join 1 2, .run 1]

theorem schedule_safe_two : ∃ s s', (system twoTargets).Reachable s ∧
    step twoTargets s (.run 1) = some s' ∧ ¬ s.Started ⟨"", "b", ""⟩ ∧ s'.Started ⟨"", "b", ""⟩ ∧
    s.Built ⟨"", "a", ""⟩ := by
  obtain ⟨s, s', hexec, hstep, hnext, hno, hstart⟩ : ∃ s s',
      (system twoTargets).exec idle buildTwo = some s ∧ step twoTargets s (.run 1) = some s' ∧
      s.next = 6 ∧ (∀ i < 6, (s.frames i).map (·.call) ≠ some (.runBuildAction ⟨"", "b", ""⟩)) ∧
      (s'.frames 6).map (·.call) = some (.runBuildAction ⟨"", "b", ""⟩) :=
    ⟨_, _, rfl, rfl, rfl, by decide, rfl⟩
  have hs := (idle_reachable twoTargets).exec hexec
  have hnot : ¬ s.Started ⟨"", "b", ""⟩ := by
    rintro ⟨i, f, hf, hcall⟩
    have hlt := (inv_reachable hs).lt_next hf
    rw [hnext] at hlt
    apply hno i hlt
    rw [hf, map_some, hcall]
  have hstarted : s'.Started ⟨"", "b", ""⟩ := by
    obtain ⟨f, hf, hcall⟩ := map_eq_some_iff.mp hstart
    exact ⟨6, f, hf, hcall⟩
  have hsafe := (schedule_safe twoTargets s hs ⟨"", "b", ""⟩).2 _ rfl ⟨"", "a", ""⟩ (by decide)
    (some ⟨"", "a", ""⟩) (by decide)
  obtain ⟨l, hl, hbuilt⟩ := hsafe.1 _ s' hstep hnot hstarted
  cases hl
  exact ⟨s, s', hs, hstep, hnot, hstarted, hbuilt⟩

end Please.Plz.Runner
