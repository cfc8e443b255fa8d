import Please.Lib.Transition
import Please.Cmap.Map

/-!
# `ErrMap`: computing every key once

Model of `src/cmap/cerrmap.go`. Any number of callers run `GetOrSet` or
`GetOrSetCtx` on one `ErrMap`, each with its own key, function and context.
Every critical section of the underlying map, the start and the end of a
caller's function, waking up from the wait channel and giving up on a done
context are separate steps, so that every interleaving is a run.
-/

namespace Please.Cmap.ErrMap

open Please.Lib Option Function Map
open Function (update)

/-- `errV` (lines 23–26). A Go `error` is an `Option`; `none` is nil. -/
structure ErrV (V E : Type) where
  err : Option E
  val : V

instance {V E : Type} [Inhabited V] : Inhabited (ErrV V E) := ⟨⟨none, default⟩⟩

/-- What the function `f` passed to `GetOrSet` does: it returns a value and an
error, or it panics. `panics e` carries `fmt.Errorf("%s", r)` of the
recovered value `r`. -/
inductive Outcome (V E : Type)
  | returns (val : V) (err : Option E)
  | panics (err : E)

/-- What a caller gets back: a value and an error, or the zero value and
`ctx.Err()`. -/
inductive Ret (V E : Type)
  | pair (val : V) (err : Option E)
  | ctxErr

/-- The returned error is not nil. -/
def Ret.failed {V E : Type} : Ret V E → Bool
  | .pair _ err => err.isSome
  | .ctxErr => true

/-- Where a caller is. -/
inductive Pc (V E : Type)
  /-- about to read the entry under the read lock -/
  | called
  /-- did not find the key, about to take the write lock -/
  | missed
  /-- is the first, and is executing its function -/
  | running
  /-- its function ended; about to store `v` and return `ret` -/
  | setting (v : ErrV V E) (ret : Ret V E)
  /-- waits for another caller's execution -/
  | waiting (ch : Chan)
  /-- received from the channel, about to read the entry -/
  | woken
  /-- about to take the limiter back and return -/
  | acquiring (ret : Ret V E)
  | returned (ret : Ret V E)

/-- One call of `GetOrSet` (`ctx = false`) or `GetOrSetCtx`; `done` says that
its context has been cancelled. -/
structure Caller (K V E : Type) where
  key : K
  ctx : Bool
  f : Outcome V E
  done : Bool
  pc : Pc V E

/-- The map, the next fresh channel, the closed channels, the callers, and the
callers whose function has been started, in order. -/
structure State (K V E : Type) where
  map : Map K (ErrV V E)
  nextChan : Chan
  closed : List Chan
  callers : ℕ → Option (Caller K V E)
  runs : List ℕ

/-- A new caller, a context is cancelled, a caller takes its next step, or a
waiting caller sees that its context is done. -/
inductive Event (K V E : Type)
  | invoke (c : ℕ) (key : K) (ctx : Bool) (f : Outcome V E)
  | cancel (c : ℕ)
  | run (c : ℕ)
  | giveUp (c : ℕ)

section Model

variable {K V E : Type} [DecidableEq K]

/-- What is stored for the key when the function ends (lines 65–71). -/
def Outcome.stored [Inhabited V] : Outcome V E → ErrV V E
  | .returns val err => ⟨err, val⟩
  | .panics err => ⟨some err, default⟩

/-- What the caller that ran the function returns. When the function panics
the deferred function recovers, and the caller returns the current values
of its unnamed results: the zero value and a nil error. -/
def Outcome.result [Inhabited V] : Outcome V E → Ret V E
  | .returns val err => .pair val err
  | .panics _ => .pair default none

def State.setPc (s : State K V E) (c : ℕ) (caller : Caller K V E) (pc : Pc V E) : State K V E :=
  { s with callers := update s.callers c (some { caller with pc := pc }) }

/-- The branches of `GetOrSet` after `GetOrWait` returned (lines 62–82). -/
def afterGetOrWait (v : ErrV V E) (wait : Option Chan) (first : Bool) : Pc V E :=
  if v.err.isSome then .returned (.pair v.val v.err)
  else if first then .running
  else match wait with
    | some ch => .waiting ch
    | none => .returned (.pair v.val v.err)

/-- Leaving the waiting branch runs the deferred `m.l.Acquire()` if there is a
limiter. -/
def leave (limited : Bool) (ret : Ret V E) : Pc V E :=
  if limited then .acquiring ret else .returned ret

variable [Inhabited V]

/-- The next step of caller `c`. -/
def runCaller (limited : Bool) (s : State K V E) (c : ℕ) (caller : Caller K V E) :
    Option (State K V E) :=
  match caller.pc with
  | .called =>
    match s.map.probe caller.key with
    | some (v, wait) => some (s.setPc c caller (afterGetOrWait v wait false))
    | none => some (s.setPc c caller .missed)
  | .missed =>
    let r := s.map.register caller.key s.nextChan
    some ({ s with
      map := r.1
      nextChan := if r.2.2.2 then s.nextChan + 1 else s.nextChan
      runs := if r.2.2.2 then s.runs ++ [c] else s.runs }.setPc c caller
        (afterGetOrWait r.2.1 r.2.2.1 r.2.2.2))
  | .running => some (s.setPc c caller (.setting caller.f.stored caller.f.result))
  | .setting v ret =>
    let r := s.map.set caller.key v
    some ({ s with map := r.1, closed := s.closed ++ r.2.toList }.setPc c caller (.returned ret))
  | .waiting ch => if ch ∈ s.closed then some (s.setPc c caller .woken) else none
  | .woken =>
    let v := s.map.get caller.key
    some (s.setPc c caller (leave limited (.pair v.val v.err)))
  | .acquiring ret => some (s.setPc c caller (.returned ret))
  | .returned _ => none

/-- The `ctx.Done()` branch of the `select` (lines 105–111). -/
def giveUpCaller (limited : Bool) (s : State K V E) (c : ℕ) (caller : Caller K V E) :
    Option (State K V E) :=
  match caller.pc with
  | .waiting _ =>
    if caller.ctx && caller.done then some (s.setPc c caller (leave limited .ctxErr)) else none
  | _ => none

def step (limited : Bool) (s : State K V E) : Event K V E → Option (State K V E)
  | .invoke c key ctx f =>
    if (s.callers c).isNone then
      some { s with callers := update s.callers c (some ⟨key, ctx, f, false, .called⟩) }
    else none
  | .cancel c =>
    (s.callers c).map fun caller =>
      { s with callers := update s.callers c (some { caller with done := true }) }
  | .run c => (s.callers c).bind (runCaller limited s c)
  | .giveUp c => (s.callers c).bind (giveUpCaller limited s c)

def init (s : State K V E) : Prop :=
  (∃ n hn hasher, new n hn hasher = some s.map) ∧ s.closed = [] ∧ s.runs = [] ∧
    ∀ c, s.callers c = none

variable (K V E) in
/-- Every interleaving of every set of callers on one `ErrMap`; `limited` says
whether it was made with a limiter. -/
def system (limited : Bool) : System (State K V E) (Event K V E) := ⟨init, step limited⟩

/-! ## The invariant -/

/-- The key has the value `v`. -/
def State.Valued (s : State K V E) (k : K) (v : ErrV V E) : Prop := s.map.lookup k = some ⟨v, none⟩

/-- The key is pending on the channel `ch`. -/
def State.Pending (s : State K V E) (k : K) (ch : Chan) : Prop :=
  ∃ v, s.map.lookup k = some ⟨v, some ch⟩

/-- Caller `c` has started its function, and it is `caller`. -/
def State.Executor (s : State K V E) (c : ℕ) (caller : Caller K V E) : Prop :=
  c ∈ s.runs ∧ s.callers c = some caller

/-- What a caller that did not run its function may return. -/
def RetOk (s : State K V E) (caller : Caller K V E) : Ret V E → Prop
  | .pair val err => s.Valued caller.key ⟨err, val⟩
  | .ctxErr => caller.ctx = true ∧ caller.done = true ∧ s.map.lookup caller.key ≠ none

/-- What a caller's position says about the entry of its key and about whether
it is the one that executes. -/
def CallerOk (s : State K V E) (c : ℕ) (caller : Caller K V E) : Prop :=
  match caller.pc with
  | .called => c ∉ s.runs
  | .missed => c ∉ s.runs
  | .running => c ∈ s.runs ∧ ∃ ch, s.Pending caller.key ch
  | .setting v ret => c ∈ s.runs ∧ (∃ ch, s.Pending caller.key ch) ∧ v = caller.f.stored ∧
      ret = caller.f.result
  | .waiting ch => c ∉ s.runs ∧
      (s.Pending caller.key ch ∨ ch ∈ s.closed ∧ ∃ v, s.Valued caller.key v)
  | .woken => c ∉ s.runs ∧ ∃ v, s.Valued caller.key v
  | .acquiring ret => c ∉ s.runs ∧ RetOk s caller ret
  | .returned ret => c ∈ s.runs ∧ s.Valued caller.key caller.f.stored ∧ ret = caller.f.result ∨
      c ∉ s.runs ∧ RetOk s caller ret

structure Inv (s : State K V E) : Prop where
  caller : ∀ c caller, s.callers c = some caller → CallerOk s c caller
  pending : ∀ k v ch, s.map.lookup k = some ⟨v, some ch⟩ → v = default ∧ ch < s.nextChan ∧
    ch ∉ s.closed ∧ ∃ c caller, s.Executor c caller ∧ caller.key = k
  valued : ∀ k v, s.Valued k v → ∃ c caller, s.Executor c caller ∧ caller.key = k ∧
    v = caller.f.stored
  own : ∀ k₁ k₂ ch, s.Pending k₁ ch → s.Pending k₂ ch → k₁ = k₂
  closed_lt : ∀ ch ∈ s.closed, ch < s.nextChan
  runs_nodup : s.runs.Nodup
  runs_caller : ∀ c ∈ s.runs, ∃ caller, s.callers c = some caller
  runs_unique : ∀ c₁ c₂ caller₁ caller₂, s.Executor c₁ caller₁ → s.Executor c₂ caller₂ →
    caller₁.key = caller₂.key → c₁ = c₂

variable {s s' : State K V E} {c : ℕ} {caller : Caller K V E} {limited : Bool}

omit [Inhabited V] in
theorem State.Pending.not_valued {k : K} {ch : Chan} (h : s.Pending k ch) (v : ErrV V E) :
    ¬ s.Valued k v := by
  intro hv
  obtain ⟨w, hw⟩ := h
  rw [State.Valued, hw] at hv
  cases hv

omit [Inhabited V] in
theorem State.Pending.unique {k : K} {ch₁ ch₂ : Chan} (h₁ : s.Pending k ch₁)
    (h₂ : s.Pending k ch₂) :
    ch₁ = ch₂ := by
  obtain ⟨v₁, h₁⟩ := h₁
  obtain ⟨v₂, h₂⟩ := h₂
  rw [h₁] at h₂
  cases h₂
  rfl

omit [Inhabited V] in
theorem State.lookup_ne_none {k : K} :
    s.map.lookup k ≠ none ↔ (∃ ch, s.Pending k ch) ∨ ∃ v, s.Valued k v := by
  constructor
  · intro hne
    obtain ⟨⟨v, wait⟩, hv⟩ := ne_none_iff_exists'.mp hne
    cases wait with
    | some ch => exact .inl ⟨ch, v, hv⟩
    | none => exact .inr ⟨v, hv⟩
  · rintro (⟨ch, v, hv⟩ | ⟨v, hv⟩)
    · rw [hv]; exact some_ne_none _
    · rw [State.Valued] at hv; rw [hv]; exact some_ne_none _

/-- A caller that has gone past its probe has left an entry for its key. -/
theorem CallerOk.lookup_ne (h : CallerOk s c caller) (h₁ : caller.pc ≠ .called)
    (h₂ : caller.pc ≠ .missed) :
    s.map.lookup caller.key ≠ none := by
  obtain ⟨key, ctx, f, done, pc⟩ := caller
  have hr : ∀ ret, RetOk s ⟨key, ctx, f, done, pc⟩ ret → s.map.lookup key ≠ none := by
    intro ret hret
    cases ret with
    | pair => exact State.lookup_ne_none.mpr (.inr ⟨_, hret⟩)
    | ctxErr => exact hret.2.2
  cases pc with
  | called => exact absurd rfl h₁
  | missed => exact absurd rfl h₂
  | running => exact State.lookup_ne_none.mpr (.inl h.2)
  | setting => exact State.lookup_ne_none.mpr (.inl h.2.1)
  | waiting ch => exact State.lookup_ne_none.mpr (h.2.imp (fun h => ⟨ch, h⟩) And.right)
  | woken => exact State.lookup_ne_none.mpr (.inr h.2)
  | acquiring ret => exact hr ret h.2
  | returned ret =>
    rcases h with ⟨_, h, _⟩ | ⟨_, h⟩
    · exact State.lookup_ne_none.mpr (.inr ⟨_, h⟩)
    · exact hr ret h

/-- A caller's position stays right when the value of its key stays, the key stays pending for the
caller that executes, and it stays pending or gets a value for those that wait. -/
theorem CallerOk.mono (h : CallerOk s c caller) (hr : c ∈ s'.runs ↔ c ∈ s.runs)
    (hc : ∀ ch ∈ s.closed, ch ∈ s'.closed)
    (hv : ∀ v, s.Valued caller.key v → s'.Valued caller.key v)
    (hp : c ∈ s.runs → ∀ ch, s.Pending caller.key ch → s'.Pending caller.key ch)
    (hw : ∀ ch, s.Pending caller.key ch →
      s'.Pending caller.key ch ∨ ch ∈ s'.closed ∧ ∃ v, s'.Valued caller.key v) {d : Bool}
    (hd : caller.done = true → d = true) : CallerOk s' c { caller with done := d } := by
  obtain ⟨key, ctx, f, done, pc⟩ := caller
  have hret : ∀ ret, RetOk s ⟨key, ctx, f, done, pc⟩ ret → RetOk s' ⟨key, ctx, f, d, pc⟩ ret := by
    intro ret h
    cases ret with
    | pair => exact hv _ h
    | ctxErr =>
      refine ⟨h.1, hd h.2.1, State.lookup_ne_none.mpr ?_⟩
      rcases State.lookup_ne_none.mp h.2.2 with ⟨ch, h⟩ | ⟨v, h⟩
      · exact (hw ch h).imp (fun h => ⟨ch, h⟩) And.right
      · exact .inr ⟨v, hv v h⟩
  cases pc with
  | called | missed => exact fun hmem => h (hr.mp hmem)
  | running => exact ⟨hr.mpr h.1, h.2.imp (hp h.1)⟩
  | setting => exact ⟨hr.mpr h.1, h.2.1.imp (hp h.1), h.2.2⟩
  | waiting ch =>
    refine ⟨fun hmem => h.1 (hr.mp hmem), ?_⟩
    rcases h.2 with h | ⟨hch, v, h⟩
    · exact hw ch h
    · exact .inr ⟨hc ch hch, v, hv v h⟩
  | woken => exact ⟨fun hmem => h.1 (hr.mp hmem), h.2.imp hv⟩
  | acquiring ret => exact ⟨fun hmem => h.1 (hr.mp hmem), hret ret h.2⟩
  | returned ret =>
    exact h.imp (fun h => ⟨hr.mpr h.1, hv _ h.2.1, h.2.2⟩)
      fun h => ⟨fun hmem => h.1 (hr.mp hmem), hret ret h.2⟩

/-- A caller's position stays right when only other keys' entries change and
channels are closed. -/
theorem CallerOk.of_frame (hl : s'.map.lookup caller.key = s.map.lookup caller.key)
    (hr : c ∈ s'.runs ↔ c ∈ s.runs) (hc : ∀ ch ∈ s.closed, ch ∈ s'.closed)
      (h : CallerOk s c caller) :
    CallerOk s' c caller := by
  have hp : ∀ ch, s.Pending caller.key ch → s'.Pending caller.key ch := fun ch h => by
    unfold State.Pending; rw [hl]; exact h
  exact h.mono hr hc (fun v h => hl.trans h) (fun _ => hp) (fun ch h => .inl (hp ch h)) id

/-! ## Every step keeps the invariant -/

theorem inv_init (h : init s) : Inv s := by
  obtain ⟨⟨n, hn, hasher, hmap⟩, hclosed, hruns, hcallers⟩ := h
  have hl : ∀ k, s.map.lookup k = none := lookup_new hmap
  refine ⟨?_, ?_, ?_, ?_, ?_, ?_, ?_, ?_⟩
  · intro c caller hc; rw [hcallers] at hc; cases hc
  · intro k v ch h; rw [hl] at h; cases h
  · intro k v h; rw [State.Valued, hl] at h; cases h
  · rintro k₁ k₂ ch ⟨v, hv⟩; rw [hl] at hv; cases hv
  · rw [hclosed]; simp
  · rw [hruns]; exact List.nodup_nil
  · rw [hruns]; simp
  · rintro c₁ c₂ caller₁ caller₂ ⟨h, _⟩; rw [hruns] at h; cases h

theorem Inv.chans (hi : Inv s) : s.map.ChansOk s.nextChan s.closed where
  pending k v ch h := (hi.pending k v ch h).2.imp_right And.left
  own k₁ k₂ v₁ v₂ ch h₁ h₂ := hi.own k₁ k₂ ch ⟨v₁, h₁⟩ ⟨v₂, h₂⟩
  closed_lt := hi.closed_lt

/-- A key that somebody has executed for has an entry. -/
theorem Inv.lookup_of_executor (hi : Inv s) (h : s.Executor c caller) :
    s.map.lookup caller.key ≠ none := by
  have hok := hi.caller c caller h.2
  refine hok.lookup_ne ?_ ?_
  · intro hpc; rw [CallerOk, hpc] at hok; exact hok h.1
  · intro hpc; rw [CallerOk, hpc] at hok; exact hok h.1

/-- A step of one caller. It may start its function if its key has no entry, and the entries of
other keys stay. -/
theorem Inv.of_moved (hi : Inv s) {caller' : Caller K V E}
    (hcallers : s'.callers = update s.callers c (some caller'))
    (hsame : ∀ x, s.callers c = some x → caller'.key = x.key ∧ caller'.f = x.f)
    (hruns : ∀ c₀, c₀ ≠ c → (c₀ ∈ s'.runs ↔ c₀ ∈ s.runs)) (hmem : c ∈ s.runs → c ∈ s'.runs)
    (hnew : c ∈ s'.runs → c ∈ s.runs ∨ s.map.lookup caller'.key = none) (hnodup : s'.runs.Nodup)
    (hchans : s'.map.ChansOk s'.nextChan s'.closed)
    (hentry : ∀ k e, s'.map.lookup k = some e → s.map.lookup k = some e ∨ c ∈ s'.runs ∧
      caller'.key = k ∧ e.val = if e.wait.isSome then default else caller'.f.stored)
    (hok : CallerOk s' c caller')
    (hother : ∀ c₀ x, c₀ ≠ c → s.callers c₀ = some x → CallerOk s' c₀ x) : Inv s' := by
  have hself : s'.callers c = some caller' := by rw [hcallers, update_self]
  have hstay : ∀ c₀, c₀ ≠ c → s'.callers c₀ = s.callers c₀ := fun c₀ h => by
    rw [hcallers, update_of_ne h]
  have hexec : ∀ c₀ x, s.Executor c₀ x → ∃ x', s'.Executor c₀ x' ∧ x'.key = x.key ∧ x'.f = x.f := by
    rintro c₀ x ⟨hr, hx⟩
    by_cases h : c₀ = c
    · subst h; exact ⟨caller', ⟨hmem hr, hself⟩, hsame x hx⟩
    · exact ⟨x, ⟨(hruns c₀ h).mpr hr, (hstay c₀ h).trans hx⟩, rfl, rfl⟩
  -- nobody else executes for the key of a caller that does
  have hold : ∀ c₀ x, c₀ ≠ c → s'.Executor c₀ x →
      s.Executor c₀ x ∧ (c ∈ s'.runs → x.key ≠ caller'.key) := by
    rintro c₀ x h ⟨hr, hx⟩
    have hx' : s.Executor c₀ x := ⟨(hruns c₀ h).mp hr, (hstay c₀ h).symm.trans hx⟩
    refine ⟨hx', fun hc hk => ?_⟩
    obtain hc | hl := hnew hc
    · obtain ⟨y, hy⟩ := hi.runs_caller c hc
      exact h (hi.runs_unique c₀ c x y hx' ⟨hc, hy⟩ (hk.trans (hsame y hy).1))
    · exact hi.lookup_of_executor hx' (hk ▸ hl)
  have hentries : ∀ k e, s'.map.lookup k = some e → ∃ c₀ x, s'.Executor c₀ x ∧ x.key = k ∧
      e.val = if e.wait.isSome then default else x.f.stored := by
    intro k e he
    obtain he | ⟨hr, hk, hv⟩ := hentry k e he
    · obtain ⟨c₀, x, hx, hk, hv⟩ : ∃ c₀ x, s.Executor c₀ x ∧ x.key = k ∧
          e.val = if e.wait.isSome then default else x.f.stored := by
        obtain ⟨v, _ | ch⟩ := e
        · exact hi.valued k v he
        · obtain ⟨hv, _, _, c₀, x, hx, hk⟩ := hi.pending k v ch he
          exact ⟨c₀, x, hx, hk, hv⟩
      obtain ⟨x', hx', hk', hf'⟩ := hexec c₀ x hx
      exact ⟨c₀, x', hx', hk'.trans hk, by rw [hf']; exact hv⟩
    · exact ⟨c, caller', ⟨hr, hself⟩, hk, hv⟩
  refine ⟨?_, ?_, fun k v h => hentries k _ h, ?_, hchans.closed_lt, hnodup, ?_, ?_⟩
  · intro c₀ x hx
    by_cases h : c₀ = c
    · subst h; rw [hself] at hx; cases hx; exact hok
    · exact hother c₀ x h ((hstay c₀ h).symm.trans hx)
  · intro k v ch h
    obtain ⟨hlt, hopen⟩ := hchans.pending k v ch h
    obtain ⟨c₀, x, hx, hk, hv⟩ := hentries k _ h
    exact ⟨hv, hlt, hopen, c₀, x, hx, hk⟩
  · rintro k₁ k₂ ch ⟨v₁, h₁⟩ ⟨v₂, h₂⟩
    exact hchans.own k₁ k₂ v₁ v₂ ch h₁ h₂
  · intro c₀ hr
    by_cases h : c₀ = c
    · exact ⟨caller', h ▸ hself⟩
    · obtain ⟨x, hx⟩ := hi.runs_caller c₀ ((hruns c₀ h).mp hr)
      exact ⟨x, (hstay c₀ h).trans hx⟩
  · have hnot : ∀ c₀ x y, c₀ ≠ c → s'.Executor c₀ x → s'.Executor c y → x.key ≠ y.key := by
      rintro c₀ x y h hx ⟨hr, hy⟩
      cases hself.symm.trans hy
      exact (hold c₀ x h hx).2 hr
    intro c₁ c₂ x₁ x₂ h₁ h₂ hk
    by_cases e₁ : c₁ = c <;> by_cases e₂ : c₂ = c
    · rw [e₁, e₂]
    · exact absurd hk.symm (hnot c₂ x₂ x₁ e₂ h₂ (e₁ ▸ h₁))
    · exact absurd hk (hnot c₁ x₁ x₂ e₁ h₁ (e₂ ▸ h₂))
    · exact hi.runs_unique c₁ c₂ x₁ x₂ (hold _ _ e₁ h₁).1 (hold _ _ e₂ h₂).1 hk

/-- A step of one caller that leaves the map's entries, the channels and the
executions alone. -/
theorem Inv.of_local (hi : Inv s) {caller' : Caller K V E}
    (hsame : ∀ x, s.callers c = some x → caller'.key = x.key ∧ caller'.f = x.f)
    {m : Map K (ErrV V E)} (hm : ∀ k, m.lookup k = s.map.lookup k) (hok : CallerOk s c caller') :
    Inv { s with map := m, callers := update s.callers c (some caller') } := by
  refine hi.of_moved rfl hsame (fun _ _ => .rfl) id .inl hi.runs_nodup (hi.chans.of_lookup hm)
    (fun k e h => .inl ((hm k).symm.trans h)) (hok.of_frame (hm _) .rfl fun _ h => h) ?_
  exact fun c₀ x _ hx => (hi.caller c₀ x hx).of_frame (hm _) .rfl fun _ h => h

/-- Where `GetOrWait` of a key that has an entry leads. -/
theorem callerOk_afterGetOrWait (hi : Inv s) (hr : c ∉ s.runs) {e : AwaitableValue (ErrV V E)}
    (hl : s.map.lookup caller.key = some e) :
    CallerOk s c { caller with pc := afterGetOrWait e.val e.wait false } := by
  obtain ⟨v, w⟩ := e
  cases w with
  | none =>
    have : afterGetOrWait v none false = .returned (.pair v.val v.err) := by
      unfold afterGetOrWait; simp
    rw [this]
    exact .inr ⟨hr, hl⟩
  | some =>
    obtain ⟨rfl, _⟩ := hi.pending _ _ _ hl
    exact ⟨hr, .inl ⟨_, hl⟩⟩

/-- While its key has no entry, a caller has not gone past its probe. -/
theorem CallerOk.of_lookup_eq_none (hok : CallerOk s c caller) (hl : s.map.lookup caller.key = none)
    (hr : c ∈ s'.runs ↔ c ∈ s.runs) : CallerOk s' c caller := by
  obtain ⟨key, ctx, f, done, pc⟩ := caller
  cases pc with
  | called | missed => exact fun hmem => hok (hr.mp hmem)
  | _ => exact absurd hl (hok.lookup_ne (by simp) (by simp))

/-- The caller that registers an absent key starts to execute. -/
theorem inv_register (hi : Inv s) (hc : s.callers c = some caller) (hpc : caller.pc = .missed)
    (hl : s.map.lookup caller.key = none) {m : Map K (ErrV V E)}
    (hm : ∀ k, m.lookup k =
      if k = caller.key then some ⟨default, some s.nextChan⟩ else s.map.lookup k) :
    Inv ({ s with map := m, nextChan := s.nextChan + 1, runs := s.runs ++ [c] }.setPc c caller
      .running) := by
  have hrun : c ∉ s.runs := by
    have := hi.caller c caller hc
    rw [CallerOk, hpc] at this
    exact this
  set s' : State K V E :=
    State.setPc { s with map := m, nextChan := s.nextChan + 1, runs := s.runs ++ [c] } c
      caller .running
    with hs'
  have hlk : ∀ k, k ≠ caller.key → s'.map.lookup k = s.map.lookup k := fun k hk =>
    (hm k).trans (if_neg hk)
  have hkey : s'.map.lookup caller.key = some ⟨default, some s.nextChan⟩ :=
    (hm _).trans (if_pos rfl)
  have hruns : ∀ c₀, c₀ ≠ c → (c₀ ∈ s'.runs ↔ c₀ ∈ s.runs) := fun c₀ h => by
    simp [hs', State.setPc, h]
  have hmem : c ∈ s'.runs := List.mem_append_right _ (List.mem_singleton_self c)
  refine hi.of_moved rfl (by simp [hc]) hruns (fun _ => hmem) (fun _ => .inr hl) ?_
    (hi.chans.register hm) ?_ ⟨hmem, s.nextChan, default, hkey⟩ ?_
  · show (s.runs ++ [c]).Nodup
    rw [← List.concat_eq_append]
    exact hi.runs_nodup.concat hrun
  · intro k e he
    by_cases hk : k = caller.key
    · rw [hk, hkey] at he
      cases he
      exact .inr ⟨hmem, hk.symm, rfl⟩
    · exact .inl ((hlk k hk).symm.trans he)
  · intro c₀ x h hx
    have hx' := hi.caller c₀ x hx
    by_cases hk : x.key = caller.key
    · exact hx'.of_lookup_eq_none (hk ▸ hl) (hruns c₀ h)
    · exact hx'.of_frame (hlk _ hk) (hruns c₀ h) fun _ h => h

/-- When a pending key gets its value, the callers of it that do not execute wait on
the channel that is closed, or have given up. -/
theorem CallerOk.of_valued (hok : CallerOk s c caller) (hr : c ∉ s.runs)
    (hr' : c ∈ s'.runs ↔ c ∈ s.runs) (hc : ∀ ch ∈ s.closed, ch ∈ s'.closed) {ch : Chan}
    (hp : s.Pending caller.key ch) {v : ErrV V E} (hv : s'.Valued caller.key v)
    (hch : ch ∈ s'.closed) : CallerOk s' c caller := by
  refine hok.mono hr' hc (fun v' hv' => absurd hv' (hp.not_valued _)) (fun h => absurd h hr) ?_ id
  intro ch' hp'
  exact .inr ⟨hp.unique hp' ▸ hch, v, hv⟩

/-- The caller that executed stores the outcome, which wakes the waiters. -/
theorem inv_set (hi : Inv s) {v : ErrV V E} {ret : Ret V E} (hc : s.callers c = some caller)
    (hpc : caller.pc = .setting v ret) :
    Inv ({ s with
      map := (s.map.set caller.key v).1
      closed := s.closed ++ (s.map.set caller.key v).2.toList }.setPc c caller
        (.returned ret)) := by
  obtain ⟨hrun, ⟨ch, w, hl⟩, hv, hret⟩ : c ∈ s.runs ∧ (∃ ch, s.Pending caller.key ch) ∧
      v = caller.f.stored ∧ ret = caller.f.result := by
    have := hi.caller c caller hc
    rw [CallerOk, hpc] at this
    exact this
  obtain ⟨h2, hm⟩ := set_spec s.map caller.key v
  have hchans := hi.chans.set caller.key v
  replace h2 : (s.map.set caller.key v).2 = some ch := by rw [h2, hl]; rfl
  rw [h2] at hchans ⊢
  set s' : State K V E := State.setPc { s with
    map := (s.map.set caller.key v).1
    closed := s.closed ++ (some ch : Option Chan).toList } c caller (.returned ret) with hs'
  have hclosed : ∀ ch' ∈ s.closed, ch' ∈ s'.closed := fun ch' h => List.mem_append_left _ h
  have hlk : ∀ k, k ≠ caller.key → s'.map.lookup k = s.map.lookup k := fun k hk =>
    (hm k).trans (if_neg hk)
  have hkey : s'.map.lookup caller.key = some ⟨v, none⟩ := (hm _).trans (if_pos rfl)
  refine hi.of_moved rfl (by simp [hc]) (fun _ _ => .rfl) id .inl hi.runs_nodup hchans ?_
    (.inl ⟨hrun, hv ▸ hkey, hret⟩) ?_
  · intro k e he
    by_cases hk : k = caller.key
    · rw [hk, hkey] at he
      cases he
      exact .inr ⟨hrun, hk.symm, hv⟩
    · exact .inl ((hlk k hk).symm.trans he)
  · intro c₀ x h hx
    have hx' := hi.caller c₀ x hx
    by_cases hk : x.key = caller.key
    · have hne : c₀ ∉ s.runs := fun hr => h (hi.runs_unique c₀ c x caller ⟨hr, hx⟩ ⟨hrun, hc⟩ hk)
      exact hx'.of_valued hne .rfl hclosed ⟨w, hk ▸ hl⟩ (hk ▸ hkey)
        (List.mem_append_right _ (List.mem_singleton_self ch))
    · exact hx'.of_frame (hlk _ hk) .rfl hclosed

theorem callerOk_leave {ret : Ret V E} (hr : c ∉ s.runs) (hret : RetOk s caller ret) :
    CallerOk s c { caller with pc := leave limited ret } := by
  have hret' : ∀ pc, RetOk s { caller with pc := pc } ret := by
    intro pc
    cases ret with
    | pair val err | ctxErr => exact hret
  cases limited with
  | false => exact .inr ⟨hr, hret' _⟩
  | true => exact ⟨hr, hret' _⟩

theorem inv_runCaller (hi : Inv s) (hc : s.callers c = some caller)
    (h : runCaller limited s c caller = some s') : Inv s' := by
  have hok := hi.caller c caller hc
  unfold runCaller at h
  obtain ⟨key, ctx, f, done, pc⟩ := caller
  cases pc with
  | called =>
    simp only [probe_eq] at h
    cases hl : s.map.lookup key with
    | none =>
      simp only [hl, map_none] at h
      cases h
      exact hi.of_local (by simp [hc]) (fun _ => rfl) hok
    | some =>
      simp only [hl, map_some] at h
      cases h
      exact hi.of_local (by simp [hc]) (fun _ => rfl) (callerOk_afterGetOrWait hi hok hl)
  | missed =>
    dsimp only at h
    cases hl : s.map.lookup key with
    | none =>
      obtain ⟨h2, hm⟩ := register_of_none hl s.nextChan
      rw [h2] at h
      cases h
      exact inv_register hi hc rfl hl hm
    | some =>
      obtain ⟨h2, hm⟩ := register_of_some hl s.nextChan
      rw [h2] at h
      cases h
      exact hi.of_local (by simp [hc]) hm (callerOk_afterGetOrWait hi hok hl)
  | running =>
    cases h
    exact hi.of_local (by simp [hc]) (fun _ => rfl) ⟨hok.1, hok.2, rfl, rfl⟩
  | setting =>
    cases h
    exact inv_set hi hc rfl
  | waiting =>
    dsimp only at h
    split_ifs at h with hch
    cases h
    refine hi.of_local (by simp [hc]) (fun _ => rfl) ⟨hok.1, ?_⟩
    rcases hok.2 with ⟨w, hp⟩ | ⟨_, hv⟩
    · exact absurd hch (hi.pending _ _ _ hp).2.2.1
    · exact hv
  | woken =>
    obtain ⟨hr, v, hv⟩ := hok
    simp only [get_eq] at h
    rw [show s.map.lookup key = some ⟨v, none⟩ from hv] at h
    cases h
    exact hi.of_local (by simp [hc]) (fun _ => rfl) (callerOk_leave hr hv)
  | acquiring ret =>
    cases h
    have hleave : CallerOk s c ⟨key, ctx, f, done, leave false ret⟩ := callerOk_leave hok.1 hok.2
    exact hi.of_local (by simp [hc]) (fun _ => rfl) hleave
  | returned => cases h

theorem inv_giveUp (hi : Inv s) (hc : s.callers c = some caller)
    (h : giveUpCaller limited s c caller = some s') : Inv s' := by
  have hok := hi.caller c caller hc
  unfold giveUpCaller at h
  obtain ⟨key, ctx, f, done, pc⟩ := caller
  cases pc with
  | waiting =>
    split_ifs at h with hdone
    cases h
    rw [Bool.and_eq_true] at hdone
    have hne := hok.lookup_ne (by simp) (by simp)
    exact hi.of_local (by simp [hc]) (fun _ => rfl) (callerOk_leave hok.1 ⟨hdone.1, hdone.2, hne⟩)
  | _ => cases h

theorem inv_step {e : Event K V E} (hi : Inv s) (h : step limited s e = some s') : Inv s' := by
  cases e with
  | invoke c =>
    simp only [step] at h
    split_ifs at h with hc
    cases h
    have hnone : s.callers c = none := isNone_iff_eq_none.mp hc
    have hr : c ∉ s.runs := by
      intro hr
      obtain ⟨x, hx⟩ := hi.runs_caller c hr
      rw [hnone] at hx
      cases hx
    exact hi.of_local (by simp [hnone]) (fun _ => rfl) hr
  | cancel c =>
    obtain ⟨caller, hc, rfl⟩ := map_eq_some_iff.mp h
    refine hi.of_local (by simp [hc]) (fun _ => rfl) ?_
    exact (hi.caller c caller hc).mono .rfl (fun _ h => h) (fun _ h => h) (fun _ _ h => h)
      (fun _ h => .inl h) fun _ => rfl
  | run =>
    obtain ⟨caller, hc, h⟩ := bind_eq_some_iff.mp h
    exact inv_runCaller hi hc h
  | giveUp =>
    obtain ⟨caller, hc, h⟩ := bind_eq_some_iff.mp h
    exact inv_giveUp hi hc h

theorem inv_reachable : ∀ s : State K V E, (system K V E limited).Reachable s → Inv s :=
  System.invariant (fun _ => inv_init) fun _ _ _ _ hi h => inv_step hi h

end Model

end Please.Cmap.ErrMap
