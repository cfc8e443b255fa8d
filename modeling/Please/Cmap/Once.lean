import Please.Cmap.ErrMap

/-!
# What the callers of an `ErrMap` get

Consequences of the invariant of `Please.Cmap.ErrMap`, for every interleaving
of any number of `GetOrSet` and `GetOrSetCtx` callers.

* `errMap_agreement`: if the functions return normally, one is run for a key, once, for all callers.
* `ctxErr_before_waiting`: a context that is done before the caller starts to
  wait makes it give up too.
-/

namespace Please.Cmap.ErrMap

open Please.Lib Option Function State Pc

variable {K V E : Type} [DecidableEq K] [Inhabited V]

/-- Every function passed to the map so far returns normally. -/
def State.Normal (s : State K V E) : Prop :=
  ∀ c caller, s.callers c = some caller → ∃ val err, caller.f = .returns val err

/-- The caller's `GetOrWait` has returned. -/
def Caller.Past (caller : Caller K V E) : Prop := caller.pc ≠ .called ∧ caller.pc ≠ .missed

/-- The number of steps a caller can still take. -/
def Pc.rank : Pc V E → ℕ
  | .called => 6
  | .missed => 5
  | .running => 4
  | .setting _ _ => 3
  | .waiting _ => 3
  | .woken => 2
  | .acquiring _ => 1
  | .returned _ => 0

/-- The caller returns, or is about to return, the error of its context. -/
def Pc.GivesUp : Pc V E → Prop
  | .acquiring .ctxErr => True
  | .returned .ctxErr => True
  | _ => False

/-- One execution per key, and everybody returns its outcome. -/
structure Agreement (s : State K V E) : Prop where
  /-- A function is started at most once. -/
  once : s.runs.Nodup
  /-- As soon as some caller's `GetOrWait` has returned, the function of
      exactly one caller of the key has been started. -/
  exactly_one : ∀ c caller, s.callers c = some caller → caller.Past →
    ∃! c₀, ∃ x, s.Executor c₀ x ∧ x.key = caller.key
  /-- A caller that does not give up returns what that function returned. -/
  same_pair : ∀ c caller val err, s.callers c = some caller →
      caller.pc = .returned (.pair val err) →
    ∃ c₀ x, s.Executor c₀ x ∧ x.key = caller.key ∧ x.f = .returns val err
  /-- A caller that gives up has a done context, and another caller's function
      has been started. -/
  gave_up : ∀ c caller, s.callers c = some caller → caller.pc = .returned .ctxErr →
    caller.ctx = true ∧ caller.done = true ∧ ∃ c₀ x, c₀ ≠ c ∧ s.Executor c₀ x ∧ x.key = caller.key

/-- What the next steps can do. -/
structure StepsOk (limited : Bool) (s : State K V E) : Prop where
  /-- A caller gives up only while it waits, with a done context. -/
  gives_up : ∀ e s' c x x', step limited s e = some s' → s.callers c = some x →
    s'.callers c = some x' → x'.pc.GivesUp →
    x.pc.GivesUp ∨ ∃ ch, x.pc = .waiting ch ∧ x.ctx = true ∧ x.done = true
  /-- If no caller can take a step, every caller has returned. -/
  progress : (∀ c, step limited s (.run c) = none) →
    ∀ c caller, s.callers c = some caller → ∃ ret, caller.pc = .returned ret
  /-- Every step brings the caller that takes it closer to returning. -/
  rank_lt : ∀ c s', step limited s (.run c) = some s' → ∃ caller pc, s.callers c = some caller ∧
    s'.callers = Function.update s.callers c (some { caller with pc := pc }) ∧
    pc.rank < caller.pc.rank

/-! ## Reading the invariant -/

variable {s s' : State K V E} {c : ℕ} {caller x : Caller K V E} {limited : Bool}

theorem Inv.executor_of_lookup (hi : Inv s) {k : K} (h : s.map.lookup k ≠ none) :
    ∃ c x, s.Executor c x ∧ x.key = k := by
  obtain ⟨⟨v, w⟩, he⟩ := ne_none_iff_exists'.mp h
  cases w with
  | none =>
    obtain ⟨c, x, hx, hk, _⟩ := hi.valued k v he
    exact ⟨c, x, hx, hk⟩
  | some ch => exact (hi.pending k v ch he).2.2.2

theorem Inv.existsUnique_executor (hi : Inv s) (hc : s.callers c = some caller) (hp : caller.Past) :
    ∃! c₀, ∃ x, s.Executor c₀ x ∧ x.key = caller.key := by
  obtain ⟨c₀, x, hx, hk⟩ := hi.executor_of_lookup ((hi.caller c caller hc).lookup_ne hp.1 hp.2)
  refine ⟨c₀, ⟨x, hx, hk⟩, ?_⟩
  rintro c₁ ⟨y, hy, hky⟩
  exact hi.runs_unique c₁ c₀ y x hy hx (hky.trans hk.symm)

variable {ret : Ret V E}

/-- What a returned caller got, by whether it ran its function. -/
theorem Inv.returned_cases (hi : Inv s) (hc : s.callers c = some caller)
    (hpc : caller.pc = .returned ret) :
    s.Executor c caller ∧ ret = caller.f.result ∨
    c ∉ s.runs ∧ ∃ c₀ x, c₀ ≠ c ∧ s.Executor c₀ x ∧ x.key = caller.key ∧
      ((∃ val err, ret = .pair val err ∧ x.f.stored = ⟨err, val⟩) ∨
        ret = .ctxErr ∧ caller.ctx = true ∧ caller.done = true) := by
  have hok := hi.caller c caller hc
  rw [CallerOk, hpc] at hok
  rcases hok with ⟨hr, _, h⟩ | ⟨hr, h⟩
  · exact .inl ⟨⟨hr, hc⟩, h⟩
  · right
    have hne : ∀ c₀ x, s.Executor c₀ x → c₀ ≠ c := by
      rintro c₀ x ⟨h, _⟩ rfl
      exact hr h
    cases ret with
    | pair val err =>
      obtain ⟨c₀, x, hx, hk, hv⟩ := hi.valued _ _ h
      exact ⟨hr, c₀, x, hne c₀ x hx, hx, hk, .inl ⟨val, err, rfl, hv.symm⟩⟩
    | ctxErr =>
      obtain ⟨c₀, x, hx, hk⟩ := hi.executor_of_lookup h.2.2
      exact ⟨hr, c₀, x, hne c₀ x hx, hx, hk, .inr ⟨rfl, h.1, h.2.1⟩⟩

theorem Inv.agreement (hi : Inv s) (hn : s.Normal) : Agreement s where
  once := hi.runs_nodup
  exactly_one := fun c caller hc hp => hi.existsUnique_executor hc hp
  same_pair := by
    intro c caller val err hc hpc
    rcases hi.returned_cases hc hpc with ⟨hx, hret⟩ | ⟨_, c₀, x, _, hx, hk, h | ⟨h, _⟩⟩
    · obtain ⟨v, e, hf⟩ := hn c caller hc
      rw [hf] at hret
      cases hret
      exact ⟨c, caller, hx, rfl, hf⟩
    · obtain ⟨val', err', hret, hst⟩ := h
      cases hret
      obtain ⟨v, e, hf⟩ := hn c₀ x hx.2
      rw [hf] at hst
      cases hst
      exact ⟨c₀, x, hx, hk, hf⟩
    · cases h
  gave_up := by
    intro c caller hc hpc
    rcases hi.returned_cases hc hpc with ⟨hx, hret⟩ | ⟨_, c₀, x, hne, hx, hk, h | ⟨_, h1, h2⟩⟩
    · obtain ⟨v, e, hf⟩ := hn c caller hc
      rw [hf] at hret
      cases hret
    · obtain ⟨_, _, h, _⟩ := h
      cases h
    · exact ⟨h1, h2, c₀, x, hne, hx, hk⟩

/-! ## Progress -/

theorem runCaller_eq_none (h : runCaller limited s c caller = none) :
    (∃ ret, caller.pc = .returned ret) ∨ ∃ ch, caller.pc = .waiting ch ∧ ch ∉ s.closed := by
  unfold runCaller at h
  obtain ⟨key, ctx, f, done, pc⟩ := caller
  cases pc with
  | called =>
    dsimp only at h
    split at h <;> cases h
  | waiting ch =>
    dsimp only at h
    split_ifs at h with hch
    exact .inr ⟨ch, rfl, hch⟩
  | returned ret => exact .inl ⟨ret, rfl⟩
  | _ => cases h

/-- In a state in which no caller can take a step, every caller has returned:
a caller can only be held up by the one that executes for its key, and
that one can always go on. -/
theorem Inv.returned_of_stuck (hi : Inv s) (hstuck : ∀ c, step limited s (.run c) = none)
    (hc : s.callers c = some caller) : ∃ ret, caller.pc = .returned ret := by
  have hnone : ∀ c₀ x, s.callers c₀ = some x → runCaller limited s c₀ x = none := by
    intro c₀ x hx
    have := hstuck c₀
    simp only [step, hx, bind_some] at this
    exact this
  rcases runCaller_eq_none (hnone c caller hc) with h | ⟨ch, hpc, hch⟩
  · exact h
  · exfalso
    have hok := hi.caller c caller hc
    rw [CallerOk, hpc] at hok
    obtain ⟨w, hw⟩ : s.Pending caller.key ch := hok.2.resolve_right fun h => hch h.1
    obtain ⟨_, _, _, c₀, x, ⟨hr, hx⟩, hk⟩ := hi.pending _ _ _ hw
    have hx' := hi.caller c₀ x hx
    rcases runCaller_eq_none (hnone c₀ x hx) with ⟨ret, hxpc⟩ | ⟨ch', hxpc, _⟩
    · rw [CallerOk, hxpc] at hx'
      rcases hx' with ⟨_, hv, _⟩ | ⟨hr', _⟩
      · rw [State.Valued, hk, hw] at hv
        cases hv
      · exact hr' hr
    · rw [CallerOk, hxpc] at hx'
      exact hx'.1 hr

omit [Inhabited V] in
theorem rank_afterGetOrWait (v : ErrV V E) (wait : Option Chan) (first : Bool) :
    (afterGetOrWait v wait first).rank ≤ 4 := by
  unfold afterGetOrWait
  split_ifs
  · simp [rank]
  · simp [rank]
  · cases wait <;> simp [rank]

omit [Inhabited V] in
theorem rank_leave (limited : Bool) (ret : Ret V E) : (leave limited ret).rank ≤ 1 := by
  cases limited <;> simp [leave, rank]

omit [Inhabited V] in
theorem not_givesUp_afterGetOrWait (v : ErrV V E) (wait : Option Chan) (first : Bool) :
    ¬ (afterGetOrWait v wait first).GivesUp := by
  unfold afterGetOrWait
  split_ifs
  · exact id
  · exact id
  · cases wait <;> exact id

theorem not_givesUp_result (f : Outcome V E) : ¬ GivesUp (.returned f.result) := by
  cases f <;> exact id

/-- What a step of a caller does: it brings the caller closer to returning, it may start its
function, and the caller does not give up in it. -/
theorem runCaller_spec (h : runCaller limited s c caller = some s') :
    ∃ pc, s'.callers = Function.update s.callers c (some { caller with pc := pc }) ∧
      pc.rank < caller.pc.rank ∧ (s'.runs = s.runs ∨ s'.runs = s.runs ++ [c]) ∧
      (CallerOk s c caller → pc.GivesUp → caller.pc.GivesUp) := by
  unfold runCaller at h
  obtain ⟨key, ctx, f, done, pc⟩ := caller
  cases pc with
  | called =>
    dsimp only at h
    split at h <;> cases h
    · exact ⟨_, rfl, lt_of_le_of_lt (rank_afterGetOrWait ..) (by simp [rank]), .inl rfl,
        fun _ hg => absurd hg (not_givesUp_afterGetOrWait _ _ _)⟩
    · exact ⟨_, rfl, by simp [rank], .inl rfl, fun _ hg => hg⟩
  | missed =>
    cases h
    refine ⟨_, rfl, lt_of_le_of_lt (rank_afterGetOrWait ..) (by simp [rank]), ?_,
      fun _ hg => absurd hg (not_givesUp_afterGetOrWait _ _ _)⟩
    split_ifs
    · exact .inr rfl
    · exact .inl rfl
  | setting =>
    cases h
    refine ⟨_, rfl, by simp [rank], .inl rfl, fun hok hg => ?_⟩
    rw [hok.2.2.2] at hg
    exact absurd hg (not_givesUp_result f)
  | waiting =>
    dsimp only at h
    split_ifs at h
    cases h
    exact ⟨_, rfl, by simp [rank], .inl rfl, fun _ hg => hg⟩
  | woken =>
    cases h
    refine ⟨_, rfl, lt_of_le_of_lt (rank_leave ..) (by simp [rank]), .inl rfl, fun _ hg => ?_⟩
    cases limited <;> exact hg
  | acquiring ret =>
    cases h
    refine ⟨_, rfl, by simp [rank], .inl rfl, fun _ hg => ?_⟩
    cases ret <;> exact hg
  | running =>
    cases h
    exact ⟨_, rfl, by simp [rank], .inl rfl, fun _ hg => hg⟩
  | returned => cases h

variable {e : Event K V E}

/-- What a step does to the callers and the executions: one caller moves on, and it may start its
function or give up. -/
theorem step_frame (h : step limited s e = some s') :
    ∃ c y, s'.callers = Function.update s.callers c (some y) ∧
      (s'.runs = s.runs ∨ s'.runs = s.runs ++ [c]) ∧
      ∀ x, s.callers c = some x → y.key = x.key ∧ y.f = x.f ∧ (Inv s → y.pc.GivesUp →
        x.pc.GivesUp ∨ ∃ ch, x.pc = .waiting ch ∧ x.ctx = true ∧ x.done = true) := by
  cases e with
  | invoke c =>
    simp only [step] at h
    split_ifs at h with hnone
    cases h
    refine ⟨c, _, rfl, .inl rfl, fun x hx => ?_⟩
    rw [hx] at hnone
    cases hnone
  | cancel c =>
    obtain ⟨y, hy, rfl⟩ := map_eq_some_iff.mp h
    refine ⟨c, _, rfl, .inl rfl, fun x hx => ?_⟩
    cases hy.symm.trans hx
    exact ⟨rfl, rfl, fun _ => .inl⟩
  | run c =>
    obtain ⟨y, hy, h⟩ := bind_eq_some_iff.mp h
    obtain ⟨pc, hs', _, hruns, hgives⟩ := runCaller_spec h
    refine ⟨c, _, hs', hruns, fun x hx => ?_⟩
    cases hy.symm.trans hx
    exact ⟨rfl, rfl, fun hi hg => .inl (hgives (hi.caller c y hy) hg)⟩
  | giveUp c =>
    obtain ⟨y, hy, h⟩ := bind_eq_some_iff.mp h
    unfold giveUpCaller at h
    split at h
    · rename_i ch hpc
      split_ifs at h with hdone
      cases h
      refine ⟨c, _, rfl, .inl rfl, fun x hx => ?_⟩
      cases hy.symm.trans hx
      rw [Bool.and_eq_true] at hdone
      exact ⟨rfl, rfl, fun _ _ => .inr ⟨ch, hpc, hdone⟩⟩
    · cases h

theorem givesUp_step (hi : Inv s) {x' : Caller K V E}
    (h : step limited s e = some s') (hx : s.callers c = some x) (hx' : s'.callers c = some x')
    (hg : x'.pc.GivesUp) :
    x.pc.GivesUp ∨ ∃ ch, x.pc = .waiting ch ∧ x.ctx = true ∧ x.done = true := by
  obtain ⟨c₀, y, hs', _, hmoved⟩ := step_frame h
  by_cases hc : c = c₀
  · subst hc
    rw [hs', update_self] at hx'
    cases hx'
    exact (hmoved x hx).2.2 hi hg
  · rw [hs', update_of_ne hc, hx] at hx'
    cases hx'
    exact .inl hg

/-! ## Main results -/

/-- **Agreement.** In every state reached by any interleaving of `GetOrSet` and
`GetOrSetCtx` callers whose functions return normally, exactly one function
has been started for every key that a caller has got past, it has been
started once, and whoever returned without giving up on its context
returned exactly its result. Callers give up only while waiting on another
caller's execution with a done context. Nobody is left waiting: when no
caller can take a step all have returned, and every step counts down. -/
theorem errMap_agreement {limited : Bool} (s : State K V E)
    (hs : (system K V E limited).Reachable s) (hn : s.Normal) :
    Agreement s ∧ StepsOk limited s := by
  have hi := inv_reachable s hs
  refine ⟨hi.agreement hn, ?_, fun h c caller hc => hi.returned_of_stuck h hc, ?_⟩
  · intro e s' c x x' h hx hx' hg
    exact givesUp_step hi h hx hx' hg
  · intro c s' h
    obtain ⟨caller, hc, h⟩ := bind_eq_some_iff.mp h
    obtain ⟨pc, hs', hrank, _⟩ := runCaller_spec h
    exact ⟨caller, pc, hc, hs', hrank⟩

/-- An `ErrMap` with one shard and no callers. -/
def oneShard : State ℕ ℕ ℕ := ⟨⟨1, 0, id, fun _ => ⟨∅⟩, Nat.one_pos⟩, 0, [], fun _ => none, []⟩

theorem oneShard_reachable (limited : Bool) : (system ℕ ℕ ℕ limited).Reachable oneShard :=
  .init ⟨⟨1, Nat.one_pos, id, rfl⟩, rfl, rfl, fun _ => rfl⟩

/-- Caller 0 executes for key 7 and returns `(3, nil)`; caller 1 waits for it. -/
def sharing : List (Event ℕ ℕ ℕ) :=
  [.invoke 0 7 false (.returns 3 none), .run 0, .run 0, .invoke 1 7 true (.returns 4 (some 5)),
    .run 1, .run 0, .run 0, .run 1, .run 1, .run 1]

/-- Two callers whose functions return normally. -/
theorem normal_of_two {s : State ℕ ℕ ℕ} {x₀ x₁ : Caller ℕ ℕ ℕ} (h₀ : s.callers 0 = some x₀)
    (h₁ : s.callers 1 = some x₁) (hother : ∀ c, c ≠ 0 → c ≠ 1 → s.callers c = none)
    (hf₀ : ∃ val err, x₀.f = .returns val err) (hf₁ : ∃ val err, x₁.f = .returns val err) :
    s.Normal := by
  intro c caller hc
  by_cases e₀ : c = 0
  · subst e₀; rw [h₀] at hc; cases hc; exact hf₀
  · by_cases e₁ : c = 1
    · subst e₁; rw [h₁] at hc; cases hc; exact hf₁
    · rw [hother c e₀ e₁] at hc; cases hc

theorem errMap_agreement_sharing : ∃ s : State ℕ ℕ ℕ, (system ℕ ℕ ℕ true).Reachable s ∧ s.Normal ∧
    s.runs = [0] ∧ s.callers 1 =
      some ⟨7, true, .returns 4 (some 5), false, .returned (.pair 3 none)⟩ ∧
    Agreement s := by
  obtain ⟨s, hexec, hruns, h₀, h₁, hother⟩ : ∃ s,
      (system ℕ ℕ ℕ true).exec oneShard sharing = some s ∧
      s.runs = [0] ∧ s.callers 0 =
        some ⟨7, false, .returns 3 none, false, .returned (.pair 3 none)⟩ ∧
      s.callers 1 = some ⟨7, true, .returns 4 (some 5), false, .returned (.pair 3 none)⟩ ∧
      ∀ c, c ≠ 0 → c ≠ 1 → s.callers c = none := by
    refine ⟨_, rfl, rfl, rfl, rfl, fun c h₀ h₁ => ?_⟩
    simp [setPc, update_of_ne h₀, update_of_ne h₁, oneShard]
  have hs := (oneShard_reachable true).exec hexec
  have hn : s.Normal := normal_of_two h₀ h₁ hother ⟨_, _, rfl⟩ ⟨_, _, rfl⟩
  exact ⟨s, hs, hn, hruns, h₁, (errMap_agreement s hs hn).1⟩

/-- A caller can return the context error although it was not waiting on
anybody when its context was cancelled: the context of caller 1 is
cancelled before caller 1 has looked at the map. -/
theorem ctxErr_before_waiting :
    ¬ ∀ (s₁ s₂ s₃ : State ℕ ℕ ℕ) (c : ℕ) (x₁ x₃ : Caller ℕ ℕ ℕ),
      (system ℕ ℕ ℕ false).Reachable s₁ → s₁.Normal → s₁.callers c = some x₁ → x₁.done = false →
      step false s₁ (.cancel c) = some s₂ → (system ℕ ℕ ℕ false).Run s₂ s₃ →
      s₃.callers c = some x₃ → x₃.pc = .returned .ctxErr →
      ∃ ch, x₁.pc = .waiting ch ∧ s₁.Pending x₁.key ch := by
  intro h
  obtain ⟨s₁, s₂, s₃, hexec, h₀, h₁, hother, hcancel, hrun, h₃⟩ : ∃ s₁ s₂ s₃,
      (system ℕ ℕ ℕ false).exec oneShard
        [.invoke 0 7 false (.returns 3 none), .run 0, .run 0, .invoke 1 7 true (.returns 4 none)] =
        some s₁ ∧
      s₁.callers 0 = some ⟨7, false, .returns 3 none, false, .running⟩ ∧
      s₁.callers 1 = some ⟨7, true, .returns 4 none, false, .called⟩ ∧
      (∀ c, c ≠ 0 → c ≠ 1 → s₁.callers c = none) ∧ step false s₁ (.cancel 1) = some s₂ ∧
      (system ℕ ℕ ℕ false).exec s₂ [.run 1, .giveUp 1] = some s₃ ∧
      s₃.callers 1 = some ⟨7, true, .returns 4 none, true, .returned .ctxErr⟩ := by
    refine ⟨_, _, _, rfl, rfl, rfl, fun c h₀ h₁ => ?_, rfl, rfl, rfl⟩
    simp [setPc, update_of_ne h₀, update_of_ne h₁, oneShard]
  have hs := (oneShard_reachable false).exec hexec
  have hn : s₁.Normal := normal_of_two h₀ h₁ hother ⟨_, _, rfl⟩ ⟨_, _, rfl⟩
  obtain ⟨ch, hpc, _⟩ := h s₁ s₂ s₃ 1 _ _ hs hn h₁ rfl hcancel (.of_exec hrun) h₃ rfl
  cases hpc

/-! ## Functions that panic -/

/-- Executions are never forgotten, and callers keep their key and function. -/
theorem State.Executor.step (hx : s.Executor c x) (h : step limited s e = some s') :
    ∃ x', s'.Executor c x' ∧ x'.key = x.key ∧ x'.f = x.f := by
  obtain ⟨c₀, y, hcallers, hruns, hmoved⟩ := step_frame h
  have hmem : c ∈ s'.runs := by
    rcases hruns with hruns | hruns <;> rw [hruns]
    · exact hx.1
    · exact List.mem_append_left _ hx.1
  by_cases hc : c = c₀
  · subst hc
    refine ⟨y, ⟨hmem, ?_⟩, (hmoved x hx.2).1, (hmoved x hx.2).2.1⟩
    rw [hcallers, update_self]
  · refine ⟨x, ⟨hmem, ?_⟩, rfl, rfl⟩
    rw [hcallers, update_of_ne hc, hx.2]

theorem State.Executor.run (hx : s.Executor c x) (h : (system K V E limited).Run s s') :
    ∃ x', s'.Executor c x' ∧ x'.key = x.key ∧ x'.f = x.f := by
  induction h with
  | refl => exact ⟨x, hx, rfl, rfl⟩
  | tail _ h ih =>
    obtain ⟨e, he⟩ := h
    obtain ⟨y, hy, hk, hf⟩ := ih
    obtain ⟨z, hz, hk', hf'⟩ := hy.step he
    exact ⟨z, hz, hk'.trans hk, hf'.trans hf⟩

/-- The step in which the `GetOrWait` of a caller returns makes it the one that
runs its function exactly if the key has no entry. -/
theorem Inv.mem_runs_iff (hi : Inv s) {y : Caller K V E} (hx : s.callers c = some x)
    (hpast : ¬ x.Past) (h : step limited s (.run c) = some s') (hy : s'.callers c = some y)
    (hy' : y.Past) :
    c ∈ s'.runs ↔ s.map.lookup x.key = none := by
  have hok := hi.caller c x hx
  obtain ⟨x', hx', h⟩ := bind_eq_some_iff.mp h
  rw [hx] at hx'
  cases hx'
  have hmoved : ∀ (t : State K V E) (pc : Pc V E), (t.setPc c x pc).callers c = some y →
      y = { x with pc := pc } := by
    intro t pc h
    simp only [setPc, update_self, some.injEq] at h
    exact h.symm
  have hpc : x.pc = .called ∨ x.pc = .missed := by
    by_contra hne
    rw [not_or] at hne
    exact hpast hne
  unfold runCaller at h
  rcases hpc with hpc | hpc
  · rw [CallerOk, hpc] at hok
    simp only [hpc, Map.probe_eq] at h
    cases hl : s.map.lookup x.key with
    | none =>
      simp only [hl, map_none] at h
      cases h
      rw [hmoved _ _ hy] at hy'
      exact absurd rfl hy'.2
    | some v =>
      simp only [hl, map_some] at h
      cases h
      exact iff_of_false hok (some_ne_none v)
  · rw [CallerOk, hpc] at hok
    simp only [hpc] at h
    cases hl : s.map.lookup x.key with
    | none =>
      obtain ⟨h2, _⟩ := Map.register_of_none hl s.nextChan
      rw [h2] at h
      cases h
      exact iff_of_true (List.mem_append_right _ (List.mem_singleton_self c)) rfl
    | some v =>
      obtain ⟨h2, _⟩ := Map.register_of_some hl s.nextChan
      rw [h2] at h
      cases h
      exact iff_of_false hok (some_ne_none v)

/-- If the function that was started for a key panics, every caller of the key
gets an error, except the one that ran the function. -/
theorem Inv.failed_iff_ne (hi : Inv s) {c₀ : ℕ} {e : E} (hx : s.Executor c₀ x)
    (hk : x.key = caller.key) (hf : x.f = .panics e) (hc : s.callers c = some caller)
    (hpc : caller.pc = .returned ret) :
    ret.failed = true ↔ c ≠ c₀ := by
  rcases hi.returned_cases hc hpc with ⟨hexec, hret⟩ | ⟨_, c₁, y, hne, hy, hky, h⟩
  · have hcc : c = c₀ := hi.runs_unique c c₀ caller x hexec hx hk.symm
    subst hcc
    have hsame : caller = x := some.inj (hc.symm.trans hx.2)
    rw [hret, hsame, hf]
    simp [Outcome.result, Ret.failed]
  · have hcc : c₁ = c₀ := hi.runs_unique c₁ c₀ y x hy hx (hky.trans hk.symm)
    subst hcc
    have hsame : y = x := some.inj (hy.2.symm.trans hx.2)
    refine iff_of_true ?_ hne.symm
    rcases h with ⟨val, err, rfl, hst⟩ | ⟨rfl, _⟩
    · rw [hsame, hf] at hst
      cases hst
      rfl
    · rfl

/-- A caller's call from the step in which its `GetOrWait` returned, in `s₁`,
to a state `s₃` in which it has returned `ret`. -/
structure Served (limited : Bool) (s₁ s₃ : State K V E) (c : ℕ) (key : K)
    (ret : Ret V E) : Prop where
  reachable : (system K V E limited).Reachable s₁
  before : ∃ x, s₁.callers c = some x ∧ ¬ x.Past ∧ x.key = key
  looked : ∃ s₂ y, step limited s₁ (.run c) = some s₂ ∧ s₂.callers c = some y ∧ y.Past ∧
    (system K V E limited).Run s₂ s₃
  after : ∃ z, s₃.callers c = some z ∧ z.key = key ∧ z.pc = .returned ret

/-- The function that was run for the key panics. -/
def State.Panicked (s : State K V E) (key : K) (e : E) : Prop :=
  ∃ c x, s.Executor c x ∧ x.key = key ∧ x.f = .panics e

/-- If the function that is run for a key panics, a caller of the key gets an
error exactly if the key already had an entry when the caller's
`GetOrWait` looked. -/
theorem Served.failed_iff {s₁ s₃ : State K V E} {key : K} {e : E}
    (h : Served limited s₁ s₃ c key ret) (hp : s₃.Panicked key e) :
    ret.failed = true ↔ s₁.map.lookup key ≠ none := by
  obtain ⟨x, hx, hpast, hxk⟩ := h.before
  obtain ⟨s₂, y, hstep, hy, hy', hrun⟩ := h.looked
  obtain ⟨z, hz, hzk, hret⟩ := h.after
  obtain ⟨c₀, w, hw, hwk, hf⟩ := hp
  have h₂ : (system K V E limited).Reachable s₂ := h.reachable.step (e := .run c) hstep
  have hi₃ := inv_reachable s₃ (h₂.run hrun)
  have hmem := (inv_reachable s₁ h.reachable).mem_runs_iff hx hpast hstep hy hy'
  rw [hxk] at hmem
  rw [hi₃.failed_iff_ne hw (hwk.trans hzk.symm) hf hz hret, Ne, Ne, ← hmem, not_iff_not]
  -- both sides say that `c` is the one that executes, in `s₃` and already in `s₂`
  constructor
  · rintro rfl
    by_contra hnot
    obtain ⟨c₁, u, hu, huk⟩ := (inv_reachable s₁ h.reachable).executor_of_lookup
      (fun hnone => hnot (hmem.mpr hnone))
    obtain ⟨u₂, hu₂, huk₂, _⟩ := hu.step hstep
    obtain ⟨u₃, hu₃, huk₃, _⟩ := hu₂.run hrun
    have hc₁ : c₁ = c := hi₃.runs_unique _ _ _ _ hu₃ hw
      ((huk₃.trans (huk₂.trans huk)).trans hwk.symm)
    subst hc₁
    exact hnot hu₂.1
  · intro hc
    obtain ⟨y₃, hy₃, hyk, _⟩ := Executor.run ⟨hc, hy⟩ hrun
    have hkey : y₃.key = z.key := congrArg Caller.key (some.inj (hy₃.2.symm.trans hz))
    exact hi₃.runs_unique _ _ _ _ hy₃ hw (hkey.trans (hzk.trans hwk.symm))

end Please.Cmap.ErrMap
