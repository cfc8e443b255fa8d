import Please.Lib.Transition
import Please.Cmap.Map

/-!
# The awaitable map protocol

Any number of clients call `Add`, `Set`, `Get`, `GetOrWait` and the per-shard
`Values` and `Range` of one `Map`. Each critical section is one step, so a
`GetOrWait` that misses is two steps with anything in between.

* `awaitable_protocol`: the guarantees of the map over every interleaving.
-/

namespace Please.Cmap.Await

open Please.Lib Option AwaitableValue Map

/-- The calls a client can make. `values` and `range` are the methods of one
shard, named by its index. -/
inductive Op (K V : Type)
  | add (key : K) (val : V)
  | set (key : K) (val : V)
  | get (key : K)
  | getOrWait (key : K)
  | values (shard : ℕ)
  | range (shard : ℕ)

/-- What a call returned. -/
inductive Result (K V : Type)
  | added (inserted : Bool)
  | done
  | got (val : V)
  | waited (val : V) (wait : Option Chan) (first : Bool)
  | listed (vals : List V)
  | ranged (pairs : List (K × V))

/-- Where a call is. `missed` is a `GetOrWait` that did not find the key under
the read lock and has not taken the write lock yet. -/
inductive Call (K V : Type)
  | invoked (op : Op K V)
  | missed (key : K)
  | returned (op : Op K V) (r : Result K V)

/-- The shared map, the next fresh channel, the channels closed so far in the
order of the `close` calls, and every call made so far. -/
structure State (K V : Type) where
  map : Map K V
  nextChan : Chan
  closed : List Chan
  calls : ℕ → Option (Call K V)

/-- A client starts call `c`, or call `c` executes its next critical section. -/
inductive Event (K V : Type)
  | invoke (c : ℕ) (op : Op K V)
  | run (c : ℕ)

section Protocol

variable {K V : Type} [DecidableEq K]

/-- The state with call `c` moved on. -/
def State.setCall (s : State K V) (c : ℕ) (call : Call K V) : State K V :=
  { s with calls := Function.update s.calls c (some call) }

/-- The next critical section of call `c`, which is at `call`. -/
def runCall [Inhabited V] (s : State K V) (c : ℕ) : Call K V → Option (State K V)
  | .invoked (.add key val) =>
    let r := s.map.add key val
    some ({ s with map := r.1, closed := s.closed ++ r.2.1.toList }.setCall c
      (.returned (.add key val) (.added r.2.2)))
  | .invoked (.set key val) =>
    let r := s.map.set key val
    some ({ s with map := r.1, closed := s.closed ++ r.2.toList }.setCall c
      (.returned (.set key val) .done))
  | .invoked (.get key) => some (s.setCall c (.returned (.get key) (.got (s.map.get key))))
  | .invoked (.getOrWait key) =>
    match s.map.probe key with
    | some (val, wait) => some (s.setCall c (.returned (.getOrWait key) (.waited val wait false)))
    | none => some (s.setCall c (.missed key))
  | .missed key =>
    let r := s.map.register key s.nextChan
    some ({ s with map := r.1, nextChan := if r.2.2.2 then s.nextChan + 1
      else s.nextChan }.setCall c
      (.returned (.getOrWait key) (.waited r.2.1 r.2.2.1 r.2.2.2)))
  | .invoked (.values i) =>
    if h : i < s.map.shardCount then
      some (s.setCall c (.returned (.values i) (.listed (s.map.shards ⟨i, h⟩).values)))
    else none
  | .invoked (.range i) =>
    if h : i < s.map.shardCount then
      some (s.setCall c (.returned (.range i) (.ranged (s.map.shards ⟨i, h⟩).range)))
    else none
  | .returned _ _ => none

def step [Inhabited V] (s : State K V) : Event K V → Option (State K V)
  | .invoke c op => if (s.calls c).isNone then some (s.setCall c (.invoked op)) else none
  | .run c => (s.calls c).bind (runCall s c)

/-- A freshly made map and no calls. -/
def init (s : State K V) : Prop :=
  (∃ n hn hasher, new n hn hasher = some s.map) ∧ s.closed = [] ∧ ∀ c, s.calls c = none

variable (K V) in
/-- Every interleaving of every set of calls on one map. -/
def system [Inhabited V] : System (State K V) (Event K V) := ⟨init, step⟩

/-- The key has a value. -/
def State.Valued (s : State K V) (key : K) : Prop := ∃ v, s.map.lookup key = some ⟨v, none⟩

/-- The key has no value and its waiters wait on `ch`. -/
def State.Pending (s : State K V) (key : K) (ch : Chan) : Prop :=
  ∃ v, s.map.lookup key = some ⟨v, some ch⟩

/-- Call `c` is a `GetOrWait(key)` that returned the channel `ch`. -/
def State.Holds (s : State K V) (c : ℕ) (key : K) (ch : Chan) (first : Bool) : Prop :=
  ∃ v, s.calls c = some (.returned (.getOrWait key) (.waited v (some ch) first))

/-! ## What a step can do -/

/-- What a call that changes nothing returns, in terms of the state it reads. -/
def Reads [Inhabited V] (s : State K V) : Op K V → Result K V → Prop
  | .add key _, r => s.Valued key ∧ r = .added false
  | .set _ _, _ => False
  | .get key, r => r = .got (((s.map.lookup key).map val).getD default)
  | .getOrWait key, r => ∃ e, s.map.lookup key = some e ∧ r = .waited e.val e.wait false
  | .values i, r => ∃ h : i < s.map.shardCount, r = .listed (s.map.shards ⟨i, h⟩).values
  | .range i, r => ∃ h : i < s.map.shardCount, r = .ranged (s.map.shards ⟨i, h⟩).range

/-- What a call that writes a value returns. -/
def Writes (key : K) (val : V) : Op K V → Result K V → Prop
  | .add k v, r => k = key ∧ v = val ∧ r = .added true
  | .set k v, r => k = key ∧ v = val ∧ r = .done
  | _, _ => False

/-- Everything a step can do. -/
inductive Effect [Inhabited V] (s : State K V) : Event K V → State K V → Prop
  | invoke {c : ℕ} {op : Op K V} (hc : s.calls c = none) :
      Effect s (.invoke c op) (s.setCall c (.invoked op))
  | read {c : ℕ} {op : Op K V} {r : Result K V} {m : Map K V}
      (hm : ∀ k, m.lookup k = s.map.lookup k) (hr : Reads s op r) :
      Effect s (.run c) ({ s with map := m }.setCall c (.returned op r))
  | write {c : ℕ} {op : Op K V} {r : Result K V} {m : Map K V} {key : K} {val : V}
      (hm : ∀ k, m.lookup k = if k = key then some ⟨val, none⟩ else s.map.lookup k)
      (hr : Writes key val op r) :
      Effect s (.run c) ({ s with
        map := m
        closed := s.closed ++ ((s.map.lookup key).bind wait).toList }.setCall c
        (.returned op r))
  | miss {c : ℕ} {key : K} (hl : s.map.lookup key = none) :
      Effect s (.run c) (s.setCall c (.missed key))
  | register {c : ℕ} {key : K} {m : Map K V} (hl : s.map.lookup key = none)
      (hm : ∀ k, m.lookup k = if k = key then some ⟨default, some s.nextChan⟩ else s.map.lookup k) :
      Effect s (.run c) ({ s with map := m, nextChan := s.nextChan + 1 }.setCall c
        (.returned (.getOrWait key) (.waited default (some s.nextChan) true)))

theorem effect_add [Inhabited V] (s : State K V) (c : ℕ) (key : K) (val : V) :
    Effect s (.run c) ({ s with
      map := (s.map.add key val).1
      closed := s.closed ++ (s.map.add key val).2.1.toList }.setCall c
      (.returned (.add key val) (.added (s.map.add key val).2.2))) := by
  unfold add
  rcases setWith_cases s.map key val false with ⟨_, ⟨v, hv⟩, h2, hm⟩ | ⟨h2, hm⟩
  · rw [h2]
    have hread : Reads s (.add key val) (.added false) := ⟨⟨v, hv⟩, rfl⟩
    simpa using .read (c := c) hm hread
  · rw [h2]
    exact .write hm ⟨rfl, rfl, rfl⟩

variable {s s' : State K V} {c : ℕ} {call : Call K V}

theorem effect_runCall [Inhabited V] (h : runCall s c call = some s') : Effect s (.run c) s' := by
  match call with
  | .invoked (.add key val) => cases h; exact effect_add s c key val
  | .invoked (.set key val) =>
    cases h
    obtain ⟨h2, hm⟩ := set_spec s.map key val
    rw [h2]
    exact .write hm ⟨rfl, rfl, rfl⟩
  | .invoked (.get key) =>
    cases h
    exact .read (fun _ => rfl) (congrArg Result.got (get_eq s.map key))
  | .invoked (.getOrWait key) =>
    simp only [runCall, probe_eq] at h
    cases hl : s.map.lookup key with
    | none => simp only [hl, map_none] at h; cases h; exact .miss hl
    | some e =>
      simp only [hl, map_some] at h
      cases h
      exact .read (fun _ => rfl) ⟨e, hl, rfl⟩
  | .missed key =>
    simp only [runCall] at h
    cases hl : s.map.lookup key with
    | none =>
      obtain ⟨h2, hm⟩ := register_of_none hl s.nextChan
      rw [h2] at h
      cases h
      exact .register hl hm
    | some e =>
      obtain ⟨h2, hm⟩ := register_of_some hl s.nextChan
      rw [h2] at h
      cases h
      exact .read hm ⟨e, hl, rfl⟩
  | .invoked (.values i) | .invoked (.range i) =>
    simp only [runCall] at h
    split_ifs at h with hi
    cases h
    exact .read (fun _ => rfl) ⟨hi, rfl⟩
  | .returned _ _ => cases h

variable {e : Event K V}

theorem effect_of_step [Inhabited V] (h : step s e = some s') : Effect s e s' := by
  cases e with
  | invoke =>
    simp only [step] at h
    split_ifs at h with hc
    cases h
    exact .invoke (isNone_iff_eq_none.mp hc)
  | run c =>
    obtain ⟨call, _, h⟩ := bind_eq_some_iff.mp h
    exact effect_runCall h

/-! ## The invariant -/

/-- Channels are fresh until used, a pending key's channel is open and its own,
and every channel a caller holds is the open channel of its pending key or
a closed channel of a key that has a value. -/
structure Inv (s : State K V) : Prop where
  pending_open : ∀ k ch, s.Pending k ch → ch < s.nextChan ∧ ch ∉ s.closed
  pending_own : ∀ k₁ k₂ ch, s.Pending k₁ ch → s.Pending k₂ ch → k₁ = k₂
  closed_lt : ∀ ch ∈ s.closed, ch < s.nextChan
  closed_nodup : s.closed.Nodup
  holds : ∀ c k ch first, s.Holds c k ch first → s.Pending k ch ∨ s.Valued k ∧ ch ∈ s.closed
  same_channel : ∀ c₁ c₂ k ch₁ ch₂ first₁ first₂,
    s.Holds c₁ k ch₁ first₁ → s.Holds c₂ k ch₂ first₂ → ch₁ = ch₂
  first_unique : ∀ c₁ c₂ k ch₁ ch₂, s.Holds c₁ k ch₁ true → s.Holds c₂ k ch₂ true → c₁ = c₂

variable {k : K}

theorem State.Pending.unique {ch₁ ch₂ : Chan} (h₁ : s.Pending k ch₁) (h₂ : s.Pending k ch₂) :
    ch₁ = ch₂ := by
  obtain ⟨v₁, h₁⟩ := h₁
  obtain ⟨v₂, h₂⟩ := h₂
  rw [h₁] at h₂
  cases h₂
  rfl

variable {ch : Chan}

theorem State.Pending.not_valued (h : s.Pending k ch) : ¬ s.Valued k := by
  rintro ⟨v, hv⟩
  obtain ⟨w, hw⟩ := h
  rw [hv] at hw
  cases hw

omit [DecidableEq K] in
theorem holds_setCall {c' : ℕ} {first : Bool} :
    (s.setCall c call).Holds c' k ch first ↔
      (c' = c ∧ ∃ v, call = .returned (.getOrWait k) (.waited v (some ch) first)) ∨
      (c' ≠ c ∧ s.Holds c' k ch first) := by
  unfold State.Holds State.setCall
  by_cases h : c' = c
  · subst h; simp
  · simp [h]

theorem State.Pending.lookup_ne (h : s.Pending k ch) : s.map.lookup k ≠ none := by
  obtain ⟨v, hv⟩ := h
  rw [hv]
  exact some_ne_none _

theorem State.Valued.lookup_ne (h : s.Valued k) : s.map.lookup k ≠ none := by
  obtain ⟨v, hv⟩ := h
  rw [hv]
  exact some_ne_none _

theorem Inv.chans (hi : Inv s) : s.map.ChansOk s.nextChan s.closed where
  pending k v ch h := hi.pending_open k ch ⟨v, h⟩
  own k₁ k₂ v₁ v₂ ch h₁ h₂ := hi.pending_own k₁ k₂ ch ⟨v₁, h₁⟩ ⟨v₂, h₂⟩
  closed_lt := hi.closed_lt

/-- A step keeps the invariant if it keeps what the invariant says about the
map and the only new holder of a channel, call `c₀`, holds the channel of
a pending key, as the first one only if the key was absent. -/
theorem Inv.of_holders (hi : Inv s) (c₀ : ℕ)
    (hchans : s'.map.ChansOk s'.nextChan s'.closed) (hnd : s'.closed.Nodup)
    (hkeep : ∀ k ch, s.Pending k ch ∨ s.Valued k ∧ ch ∈ s.closed →
      s'.Pending k ch ∨ s'.Valued k ∧ ch ∈ s'.closed)
    (hnew : ∀ c k ch first, s'.Holds c k ch first → s.Holds c k ch first ∨
      c = c₀ ∧ s'.Pending k ch ∧ (first = true → s.map.lookup k = none)) : Inv s' := by
  -- a caller that held a channel of a key holds the one the key is pending on
  have hold : ∀ c k ch ch' first, s.Holds c k ch first → s'.Pending k ch' → ch = ch' := by
    intro c k ch ch' first h hp
    rcases hkeep k ch (hi.holds c k ch first h) with h' | ⟨h', _⟩
    · exact h'.unique hp
    · exact absurd h' hp.not_valued
  have hne : ∀ c k ch first, s.Holds c k ch first → s.map.lookup k ≠ none := by
    intro c k ch first h
    rcases hi.holds c k ch first h with h | ⟨h, _⟩
    · exact h.lookup_ne
    · exact h.lookup_ne
  refine ⟨?_, ?_, hchans.closed_lt, hnd, ?_, ?_, ?_⟩
  · rintro k ch ⟨v, h⟩
    exact hchans.pending k v ch h
  · rintro k₁ k₂ ch ⟨v₁, h₁⟩ ⟨v₂, h₂⟩
    exact hchans.own k₁ k₂ v₁ v₂ ch h₁ h₂
  · intro c k ch first h
    rcases hnew c k ch first h with h | ⟨_, h, _⟩
    · exact hkeep k ch (hi.holds c k ch first h)
    · exact .inl h
  · intro c₁ c₂ k ch₁ ch₂ first₁ first₂ h₁ h₂
    rcases hnew _ _ _ _ h₁ with h₁ | ⟨_, p₁, _⟩ <;> rcases hnew _ _ _ _ h₂ with h₂ | ⟨_, p₂, _⟩
    · exact hi.same_channel _ _ _ _ _ _ _ h₁ h₂
    · exact hold _ _ _ _ _ h₁ p₂
    · exact (hold _ _ _ _ _ h₂ p₁).symm
    · exact p₁.unique p₂
  · intro c₁ c₂ k ch₁ ch₂ h₁ h₂
    rcases hnew _ _ _ _ h₁ with h₁ | ⟨e₁, _, n₁⟩ <;> rcases hnew _ _ _ _ h₂ with h₂ | ⟨e₂, _, n₂⟩
    · exact hi.first_unique _ _ _ _ _ h₁ h₂
    · exact absurd (n₂ rfl) (hne _ _ _ _ h₁)
    · exact absurd (n₁ rfl) (hne _ _ _ _ h₂)
    · rw [e₁, e₂]

/-! ## Every step keeps the invariant -/

theorem inv_init (h : init s) : Inv s := by
  obtain ⟨⟨n, hn, hasher, hmap⟩, hclosed, hcalls⟩ := h
  have hl : ∀ k, s.map.lookup k = none := lookup_new hmap
  refine ⟨?_, ?_, ?_, ?_, ?_, ?_, ?_⟩
  · rintro k ch ⟨v, hv⟩; rw [hl] at hv; cases hv
  · rintro k₁ k₂ ch ⟨v, hv⟩; rw [hl] at hv; cases hv
  · rw [hclosed]; simp
  · rw [hclosed]; exact List.nodup_nil
  · rintro c k ch first ⟨v, hv⟩; rw [hcalls] at hv; cases hv
  · rintro c₁ c₂ k ch₁ ch₂ first₁ first₂ ⟨v, hv⟩; rw [hcalls] at hv; cases hv
  · rintro c₁ c₂ k ch₁ ch₂ ⟨v, hv⟩; rw [hcalls] at hv; cases hv

/-- A step that leaves the map's entries and the channels alone. -/
theorem Inv.of_same_map (hi : Inv s) (c₀ : ℕ) (hm : ∀ k, s'.map.lookup k = s.map.lookup k)
    (hn : s'.nextChan = s.nextChan) (hc : s'.closed = s.closed)
    (hnew : ∀ c k ch first, s'.Holds c k ch first → s.Holds c k ch first ∨
      c = c₀ ∧ s.Pending k ch ∧ first = false) : Inv s' := by
  have hp : ∀ k ch, s'.Pending k ch ↔ s.Pending k ch := fun k ch => by
    unfold State.Pending; rw [hm]
  have hv : ∀ k, s'.Valued k ↔ s.Valued k := fun k => by unfold State.Valued; rw [hm]
  refine hi.of_holders c₀ ?_ ?_ ?_ ?_
  · rw [hn, hc]; exact hi.chans.of_lookup hm
  · rw [hc]; exact hi.closed_nodup
  · intro k ch h; rw [hp, hv, hc]; exact h
  · intro c k ch first h
    rcases hnew c k ch first h with h | ⟨e, h, hf⟩
    · exact .inl h
    · exact .inr ⟨e, (hp k ch).mpr h, fun h' => by rw [hf] at h'; cases h'⟩

variable {key : K}

theorem mem_wait_toList :
    ch ∈ ((s.map.lookup key).bind wait).toList ↔ s.Pending key ch := by
  rw [mem_toList, bind_eq_some_iff]
  constructor
  · rintro ⟨⟨v, w⟩, h, hw⟩
    obtain rfl : w = some ch := hw
    exact ⟨v, h⟩
  · rintro ⟨v, h⟩
    exact ⟨_, h, rfl⟩

variable {m : Map K V} {r : Result K V} {op : Op K V}

/-- The step that gives a key its value closes the key's own open channel. -/
theorem inv_write (hi : Inv s) {val : V}
    (hm : ∀ k, m.lookup k = if k = key then some ⟨val, none⟩ else s.map.lookup k)
    (hr : Writes key val op r) :
    Inv ({ s with
      map := m
      closed := s.closed ++ ((s.map.lookup key).bind wait).toList }.setCall c
      (.returned op r)) := by
  set s' := State.setCall _ c (Call.returned op r) with hs'
  have hclosed : ∀ ch, ch ∈ s'.closed ↔ ch ∈ s.closed ∨ s.Pending key ch := fun ch => by
    rw [← mem_wait_toList, ← List.mem_append]; rfl
  refine hi.of_holders c (hi.chans.write hm) ?_ ?_ ?_
  · refine .append hi.closed_nodup ?_ ?_
    · cases (s.map.lookup key).bind wait <;> simp
    · intro ch h₁ h₂
      exact (hi.pending_open key ch (mem_wait_toList.mp h₂)).2 h₁
  · intro k ch h
    rw [hclosed]
    by_cases hk : k = key
    · subst hk
      have hv : s'.Valued k := ⟨val,
        by rw [show s'.map.lookup k = m.lookup k from rfl, hm, if_pos rfl]⟩
      rcases h with h | ⟨_, h⟩
      · exact .inr ⟨hv, .inr h⟩
      · exact .inr ⟨hv, .inl h⟩
    · have hl : s'.map.lookup k = s.map.lookup k := by
        rw [show s'.map.lookup k = m.lookup k from rfl, hm, if_neg hk]
      unfold State.Pending State.Valued
      rw [hl]
      rcases h with h | ⟨h, hc⟩
      · exact .inl h
      · exact .inr ⟨h, .inl hc⟩
  · intro c' k ch first h
    rcases holds_setCall.mp h with ⟨_, v, hcall⟩ | ⟨_, h⟩
    · cases hcall
      exact absurd hr id
    · exact .inl h

/-- Registering an absent key makes it pending on a fresh channel. -/
theorem inv_register [Inhabited V] (hi : Inv s) (hl : s.map.lookup key = none)
    (hm : ∀ k, m.lookup k = if k = key then some ⟨default, some s.nextChan⟩ else s.map.lookup k) :
    Inv ({ s with map := m, nextChan := s.nextChan + 1 }.setCall c
      (.returned (.getOrWait key) (.waited default (some s.nextChan) true))) := by
  set s' := State.setCall _ c (Call.returned (.getOrWait key) _) with hs'
  have hlook : ∀ k, s'.map.lookup k =
      if k = key then some ⟨default, some s.nextChan⟩ else s.map.lookup k := hm
  have hp : ∀ k ch, s'.Pending k ch ↔ (k = key ∧ ch = s.nextChan) ∨ (k ≠ key ∧ s.Pending k ch) := by
    intro k ch
    unfold State.Pending
    rw [hlook]
    by_cases hk : k = key
    · simp [hk, eq_comm]
    · simp [hk]
  refine hi.of_holders c (hi.chans.register hm) hi.closed_nodup ?_ ?_
  · intro k ch h
    have hk : k ≠ key := by
      rintro rfl
      rcases h with h | ⟨h, _⟩
      · exact h.lookup_ne hl
      · exact h.lookup_ne hl
    rw [hp]
    unfold State.Valued
    rw [hlook, if_neg hk]
    rcases h with h | h
    · exact .inl (.inr ⟨hk, h⟩)
    · exact .inr h
  · intro c' k ch first h
    rcases holds_setCall.mp h with ⟨e, v, hcall⟩ | ⟨_, h⟩
    · cases hcall
      exact .inr ⟨e, (hp _ _).mpr (.inl ⟨rfl, rfl⟩), fun _ => hl⟩
    · exact .inl h

theorem inv_step [Inhabited V] (hi : Inv s) (h : step s e = some s') : Inv s' := by
  cases effect_of_step h with
  | invoke hc =>
    rename_i c op
    refine hi.of_same_map c (fun _ => rfl) rfl rfl fun c' k ch first h => ?_
    rcases holds_setCall.mp h with ⟨_, v, hcall⟩ | ⟨_, h⟩
    · cases hcall
    · exact .inl h
  | read hm hr =>
    rename_i c op r m
    refine hi.of_same_map c hm rfl rfl fun c' k ch first h => ?_
    rcases holds_setCall.mp h with ⟨e, v, hcall⟩ | ⟨_, h⟩
    · cases hcall
      obtain ⟨⟨v', w⟩, hl, hw⟩ := hr
      cases hw
      exact .inr ⟨e, ⟨_, hl⟩, rfl⟩
    · exact .inl h
  | write hm hr => exact inv_write hi hm hr
  | miss hl =>
    rename_i c key
    refine hi.of_same_map c (fun _ => rfl) rfl rfl fun c' k ch first h => ?_
    rcases holds_setCall.mp h with ⟨_, v, hcall⟩ | ⟨_, h⟩
    · cases hcall
    · exact .inl h
  | register hl hm => exact inv_register hi hl hm

theorem inv_reachable [Inhabited V] : ∀ s : State K V, (system K V).Reachable s → Inv s :=
  System.invariant (fun _ => inv_init) fun _ _ _ _ hi h => inv_step hi h

/-! ## The guarantees of the map -/

/-- What holds of the calls made so far in every reachable state. -/
structure Agreement (s : State K V) : Prop where
  /-- At most one `GetOrWait` of a key returned `first = true`. -/
  first_unique : ∀ k c₁ c₂ v₁ v₂ w₁ w₂,
    s.calls c₁ = some (.returned (.getOrWait k) (.waited v₁ w₁ true)) →
    s.calls c₂ = some (.returned (.getOrWait k) (.waited v₂ w₂ true)) → c₁ = c₂
  /-- No channel is closed twice. -/
  closed_nodup : s.closed.Nodup
  /-- The channel a `GetOrWait` returned has been closed once if the key has a
      value, and not at all if it has not. -/
  closed_once : ∀ c k ch first, s.Holds c k ch first →
    s.Valued k ∧ s.closed.count ch = 1 ∨ s.Pending k ch ∧ s.closed.count ch = 0
  /-- All callers that saw the key pending hold the same channel. -/
  same_channel : ∀ k c₁ c₂ ch₁ ch₂ first₁ first₂,
    s.Holds c₁ k ch₁ first₁ → s.Holds c₂ k ch₂ first₂ → ch₁ = ch₂

/-- The pairs are the keys of the shard that have a value, each once. -/
def Exact (shard : Shard K V) (pairs : List (K × V)) : Prop :=
  (pairs.map Prod.fst).Nodup ∧ ∀ k v, (k, v) ∈ pairs ↔ shard.lookup k = some ⟨v, none⟩

/-- What holds of every step. -/
structure StepOk (s : State K V) (e : Event K V) (s' : State K V) : Prop where
  /-- A key that has a value keeps having one. -/
  value_stays : ∀ k, s.Valued k → s'.Valued k
  /-- The step that first gives a key a value closes the channel the key is
      pending on. -/
  closes : ∀ k ch, s.Pending k ch → s'.Valued k → s'.closed = s.closed ++ [ch]
  /-- No other step closes a channel. -/
  closes_only : s'.closed = s.closed ∨
    ∃ k ch, s.Pending k ch ∧ s'.Valued k ∧ s'.closed = s.closed ++ [ch]
  /-- `GetOrWait` returns the nil channel iff the key has a value at the step
      it reads. -/
  wait_nil : ∀ c k v w first, e = .run c →
    s'.calls c = some (.returned (.getOrWait k) (.waited v w first)) → (w = none ↔ s.Valued k)
  /-- `Range` reports exactly the keys of the shard that have a value. -/
  range_exact : ∀ c i pairs, e = .run c →
    s'.calls c = some (.returned (.range i) (.ranged pairs)) →
    ∃ h : i < s.map.shardCount, Exact (s.map.shards ⟨i, h⟩) pairs
  /-- `Values` reports exactly the values of these keys. -/
  values_exact : ∀ c i vals, e = .run c →
    s'.calls c = some (.returned (.values i) (.listed vals)) →
    ∃ (h : i < s.map.shardCount) (pairs : List (K × V)),
      vals = pairs.map Prod.snd ∧ Exact (s.map.shards ⟨i, h⟩) pairs

theorem exact_range (shard : Shard K V) : Exact shard shard.range :=
  ⟨shard.range_keys_nodup, shard.mem_range⟩

/-- The first `GetOrWait` of a key returns the channel it made. -/
def FirstWaits (s : State K V) : Prop :=
  ∀ c k v w, s.calls c = some (.returned (.getOrWait k) (.waited v w true)) → w ≠ none

omit [DecidableEq K] in
theorem FirstWaits.setCall (hs : FirstWaits s)
    (h : ∀ k v w, call = .returned (.getOrWait k) (.waited v w true) → w ≠ none) :
    FirstWaits (s.setCall c call) := by
  intro c' k v w hc
  by_cases hcc : c' = c
  · subst hcc
    simp only [State.setCall, Function.update_self, some.injEq] at hc
    exact h k v w hc
  · simp only [State.setCall, Function.update_of_ne hcc] at hc
    exact hs c' k v w hc

theorem firstWaits_reachable [Inhabited V] :
    ∀ s : State K V, (system K V).Reachable s → FirstWaits s := by
  refine System.invariant ?_ ?_
  · rintro s ⟨_, _, hcalls⟩ c k v w hc
    rw [hcalls] at hc
    cases hc
  · intro s e s' _ hs h
    cases effect_of_step h with
    | invoke _ | miss _ => exact hs.setCall fun _ _ _ h => by cases h
    | register _ _ => exact .setCall hs fun _ _ _ h => by cases h; exact some_ne_none _
    | write _ hr => exact .setCall hs fun _ _ _ h => by cases h; exact absurd hr id
    | read _ hr =>
      refine .setCall hs fun _ _ _ h => ?_
      cases h
      obtain ⟨_, _, hw⟩ := hr
      cases hw

theorem Inv.agreement (hi : Inv s) (hch : FirstWaits s) : Agreement s where
  first_unique := by
    intro k c₁ c₂ v₁ v₂ w₁ w₂ h₁ h₂
    obtain ⟨ch₁, rfl⟩ := ne_none_iff_exists'.mp (hch _ _ _ _ h₁)
    obtain ⟨ch₂, rfl⟩ := ne_none_iff_exists'.mp (hch _ _ _ _ h₂)
    exact hi.first_unique c₁ c₂ k ch₁ ch₂ ⟨v₁, h₁⟩ ⟨v₂, h₂⟩
  closed_nodup := hi.closed_nodup
  closed_once := by
    intro c k ch first h
    rcases hi.holds c k ch first h with h | ⟨h, hmem⟩
    · exact .inr ⟨h, List.count_eq_zero.mpr (hi.pending_open k ch h).2⟩
    · exact .inl ⟨h, List.count_eq_one_of_mem hi.closed_nodup hmem⟩
  same_channel := fun k c₁ c₂ ch₁ ch₂ first₁ first₂ h₁ h₂ =>
    hi.same_channel c₁ c₂ k ch₁ ch₂ first₁ first₂ h₁ h₂

/-- What a call returned is what `s` says. -/
def Answered (s : State K V) : Call K V → Prop
  | .returned (.getOrWait k) (.waited _ w _) => w = none ↔ s.Valued k
  | .returned (.range i) (.ranged pairs) =>
    ∃ h : i < s.map.shardCount, Exact (s.map.shards ⟨i, h⟩) pairs
  | .returned (.values i) (.listed vals) =>
    ∃ (h : i < s.map.shardCount) (pairs : List (K × V)),
      vals = pairs.map Prod.snd ∧ Exact (s.map.shards ⟨i, h⟩) pairs
  | _ => True

/-- A step of call `c` is right if it treats values and channels right and the call returns what it
read. -/
theorem stepOk_setCall (hvalue : ∀ k, s.Valued k → s'.Valued k)
    (hcloses : ∀ k ch, s.Pending k ch → s'.Valued k → s'.closed = s.closed ++ [ch])
    (honly : s'.closed = s.closed ∨
      ∃ k ch, s.Pending k ch ∧ s'.Valued k ∧ s'.closed = s.closed ++ [ch])
    (hcall : Answered s call) (he : ∀ c', e = .run c' → c' = c) :
      StepOk s e (s'.setCall c call) := by
  have hself : ∀ c' call', e = .run c' → (s'.setCall c call).calls c' = some call' →
      Answered s call' := by
    intro c' call' h h'
    rw [he c' h] at h'
    simp only [State.setCall, Function.update_self, some.injEq] at h'
    exact h' ▸ hcall
  exact ⟨hvalue, hcloses, honly, fun c' k v w first => hself c' _, fun c' i pairs => hself c' _,
    fun c' i vals => hself c' _⟩

/-- A step that keeps every entry and closes nothing. -/
theorem stepOk_of_kept (hkeep : ∀ k, s.map.lookup k ≠ none → s'.map.lookup k = s.map.lookup k)
    (hclosed : s'.closed = s.closed) (hcall : Answered s call) (he : ∀ c', e = .run c' → c' = c) :
    StepOk s e (s'.setCall c call) := by
  refine stepOk_setCall ?_ ?_ (.inl hclosed) hcall he
  · rintro k ⟨v, hv⟩
    exact ⟨v, (hkeep k (by simp [hv])).trans hv⟩
  · rintro k ch hp ⟨v, hv⟩
    exact absurd ⟨v, (hkeep k hp.lookup_ne).symm.trans hv⟩ hp.not_valued

theorem Reads.answered [Inhabited V] (hr : Reads s op r) : Answered s (.returned op r) := by
  cases op with
  | add | set | get => cases r <;> trivial
  | getOrWait k =>
    obtain ⟨⟨v, w⟩, hl, rfl⟩ := hr
    show w = none ↔ ∃ v', s.map.lookup k = some ⟨v', none⟩
    rw [hl]
    simp
  | range i =>
    obtain ⟨hi, rfl⟩ := hr
    exact ⟨hi, exact_range _⟩
  | values i =>
    obtain ⟨hi, rfl⟩ := hr
    exact ⟨hi, _, Shard.values_eq _, exact_range _⟩

theorem stepOk_write {val : V}
    (hm : ∀ k, m.lookup k = if k = key then some ⟨val, none⟩ else s.map.lookup k)
    (hr : Writes key val op r) :
    StepOk s (.run c) ({ s with
      map := m
      closed := s.closed ++ ((s.map.lookup key).bind wait).toList }.setCall c
      (.returned op r)) := by
  have hother : ∀ k, k ≠ key → m.lookup k = s.map.lookup k := fun k hk => (hm k).trans (if_neg hk)
  have hclose : ∀ ch, s.Pending key ch →
      s.closed ++ ((s.map.lookup key).bind wait).toList = s.closed ++ [ch] := by
    rintro ch ⟨v, hv⟩
    rw [hv]
    rfl
  have hkey : ∃ v, m.lookup key = some ⟨v, none⟩ := ⟨val, (hm key).trans (if_pos rfl)⟩
  refine stepOk_setCall ?_ ?_ ?_ ?_ (by rintro _ ⟨⟩; rfl)
  · rintro k ⟨v, hv⟩
    by_cases hk : k = key
    · rw [hk]; exact hkey
    · exact ⟨v, (hother k hk).trans hv⟩
  · rintro k ch hp ⟨v, hv⟩
    by_cases hk : k = key
    · subst hk; exact hclose ch hp
    · exact absurd ⟨v, (hother k hk).symm.trans hv⟩ hp.not_valued
  · cases hw : (s.map.lookup key).bind wait with
    | none => exact .inl (List.append_nil _)
    | some ch =>
      have hp : s.Pending key ch := mem_wait_toList.mp (by rw [hw]; simp)
      exact .inr ⟨key, ch, hp, hkey, rfl⟩
  · cases op with
    | add | set => trivial
    | _ => exact absurd hr id

theorem stepOk_step [Inhabited V] (h : step s e = some s') : StepOk s e s' := by
  cases effect_of_step h with
  | invoke _ => exact stepOk_of_kept (fun _ _ => rfl) rfl trivial (by rintro _ ⟨⟩)
  | read hm hr => exact stepOk_of_kept (fun k _ => hm k) rfl hr.answered (by rintro _ ⟨⟩; rfl)
  | write hm hr => exact stepOk_write hm hr
  | miss _ => exact stepOk_of_kept (fun _ _ => rfl) rfl trivial (by rintro _ ⟨⟩; rfl)
  | register hl hm =>
    refine stepOk_of_kept (fun k hk => (hm k).trans (if_neg ?_)) rfl ?_ (by rintro _ ⟨⟩; rfl)
    · rintro rfl
      exact hk hl
    · exact iff_of_false (some_ne_none _) fun hv => hv.lookup_ne hl

/-- **The awaitable map protocol.** In every state reached by any interleaving
of any number of calls: the calls made so far agree, every further step
treats values and channels as `StepOk` says, and a key that has a value
has one ever after. -/
theorem awaitable_protocol [Inhabited V] (s : State K V) (hs : (system K V).Reachable s) :
    Agreement s ∧ (∀ e s', step s e = some s' → StepOk s e s') ∧
      ∀ s' k, (system K V).Run s s' → s.Valued k → s'.Valued k := by
  refine ⟨(inv_reachable s hs).agreement (firstWaits_reachable s hs), fun e s' => stepOk_step, ?_⟩
  intro s' k hrun
  exact System.Run.stable (P := fun t => t.Valued k)
    (fun _ _ _ _ h hst => (stepOk_step hst).value_stays k h)
    hs hrun

theorem valued_add [Inhabited V] (hc : s.calls c = some (.invoked (.add k v)))
    (h : step s (.run c) = some s') : s'.Valued k := by
  simp only [step, hc, bind_some, runCall, some.injEq] at h
  subst h
  rcases setWith_cases s.map k v false with ⟨-, ⟨w, hw⟩, -, hm⟩ | ⟨-, hm⟩
  · exact ⟨w, (hm k).trans hw⟩
  · exact ⟨v, (hm k).trans (if_pos rfl)⟩

/-- An `Add` of a key that has a value has no effect. -/
theorem add_of_valued [Inhabited V] (hc : s.calls c = some (.invoked (.add k v))) (hv : s.Valued k)
    (h : step s (.run c) = some s') :
    s'.calls c = some (.returned (.add k v) (.added false)) ∧ s'.closed = s.closed ∧
      ∀ k', s'.map.lookup k' = s.map.lookup k' := by
  obtain ⟨w, hw⟩ := hv
  simp only [step, hc, bind_some, runCall, some.injEq] at h
  subst h
  unfold add
  rcases setWith_cases s.map k v false with ⟨-, -, hr, hm⟩ | ⟨hr, -⟩
  · rw [hr]
    exact ⟨Function.update_self .., List.append_nil _, hm⟩
  · have hl : (s.map.shards (s.map.idx k)).lookup k = some ⟨w, none⟩ := hw
    simp [setWith, Shard.set, hl] at hr

/-- **Of the `Add`s of a key only the first can insert.** Once one of them has run, each one that
runs later, whatever runs between them, returns false and leaves the map as it is. -/
theorem add_loses_later [Inhabited V] {s s₁ s₂ s₃ : State K V} {c c' : ℕ} {v v' : V}
    (hs : (system K V).Reachable s) (hc : s.calls c = some (.invoked (.add k v)))
    (hfirst : step s (.run c) = some s₁) (hrun : (system K V).Run s₁ s₂)
    (hc' : s₂.calls c' = some (.invoked (.add k v'))) (hlater : step s₂ (.run c') = some s₃) :
    s₃.calls c' = some (.returned (.add k v') (.added false)) ∧ s₃.closed = s₂.closed ∧
      ∀ k', s₃.map.lookup k' = s₂.map.lookup k' := by
  have hvalued : s₂.Valued k :=
    System.Run.stable (P := fun t => t.Valued k)
      (fun _ _ _ _ h hst => (stepOk_step hst).value_stays k h) (hs.run (.single ⟨.run c, hfirst⟩))
      hrun (valued_add hc hfirst)
  exact add_of_valued hc' hvalued hlater

end Protocol

/-- A map with one shard and no calls. -/
def oneShard : State ℕ ℕ := ⟨⟨1, 0, id, fun _ => ⟨∅⟩, Nat.one_pos⟩, 0, [], fun _ => none⟩

/-- Two `GetOrWait` calls that both miss before either registers the key, then
a `Set`. -/
def racing : List (Event ℕ ℕ) :=
  [.invoke 0 (.getOrWait 7), .run 0, .invoke 1 (.getOrWait 7), .run 1, .run 1, .run 0,
    .invoke 2 (.set 7 5), .run 2]

theorem awaitable_protocol_racing : ∃ s : State ℕ ℕ, (system ℕ ℕ).Reachable s ∧
    s.Holds 0 7 0 false ∧ s.Holds 1 7 0 true ∧ s.closed = [0] ∧ Agreement s := by
  obtain ⟨s, hexec, h0, h1, hclosed⟩ : ∃ s, (system ℕ ℕ).exec oneShard racing = some s ∧
      s.Holds 0 7 0 false ∧ s.Holds 1 7 0 true ∧ s.closed = [0] :=
    ⟨_, rfl, ⟨0, rfl⟩, ⟨0, rfl⟩, rfl⟩
  have hinit : (system ℕ ℕ).Reachable oneShard :=
    .init ⟨⟨1, Nat.one_pos, id, rfl⟩, rfl, fun _ => rfl⟩
  have hs := hinit.exec hexec
  exact ⟨s, hs, h0, h1, hclosed, (awaitable_protocol s hs).1⟩

/-- Two `Add`s of one key; the first one runs, then a `Set`, then the other one. -/
theorem add_loses_later_set : ∃ s₂ s₃ : State ℕ ℕ, s₂.map.lookup 7 = some ⟨9, none⟩ ∧
    step s₂ (.run 1) = some s₃ ∧ s₃.calls 1 = some (.returned (.add 7 6) (.added false)) := by
  obtain ⟨s, s₁, s₂, s₃, hs, hc, hfirst, hrun, hc', hlater, hset⟩ : ∃ s s₁ s₂ s₃,
      (system ℕ ℕ).exec oneShard [.invoke 0 (.add 7 5), .invoke 1 (.add 7 6)] = some s ∧
      s.calls 0 = some (.invoked (.add 7 5)) ∧ step s (.run 0) = some s₁ ∧
      (system ℕ ℕ).exec s₁ [.invoke 2 (.set 7 9), .run 2] = some s₂ ∧
      s₂.calls 1 = some (.invoked (.add 7 6)) ∧ step s₂ (.run 1) = some s₃ ∧
      s₂.map.lookup 7 = some ⟨9, none⟩ := ⟨_, _, _, _, rfl, rfl, rfl, rfl, rfl, rfl, rfl⟩
  have hinit : (system ℕ ℕ).Reachable oneShard :=
    .init ⟨⟨1, Nat.one_pos, id, rfl⟩, rfl, fun _ => rfl⟩
  exact ⟨s₂, s₃, hset, hlater,
    (add_loses_later (hinit.exec hs) hc hfirst (.of_exec hrun) hc' hlater).1⟩

end Please.Cmap.Await
