import Mathlib.Data.List.AList
import Mathlib.Data.Fintype.Basic

/-!
# The awaitable concurrent map

Model of `src/cmap/cmap.go`. A `Map` is a slice of shards; the shard of a key
is `hasher(key) & mask`. A shard is a Go map from keys to awaitable values: a
value together with the channel that callers wait on while the value does not
exist yet (`nil` once it does).

Every method of `shard` below is the body of one critical section, so a method
that takes the lock twice (`GetOrWait`) is two functions. A channel is only
ever created, received from and closed; it is modelled by its identity, and a
method that closes one returns it.
-/

namespace Please.Cmap

/-- A `chan struct{}`. -/
abbrev Chan := ℕ

/-- `awaitableValue` (lines 97–100). `wait = none` is the nil channel. -/
structure AwaitableValue (V : Type) where
  val : V
  wait : Option Chan
deriving DecidableEq

/-- `shard` (lines 103–106) without its lock: the Go map `m`. -/
structure Shard (K V : Type) where
  m : AList fun _ : K => AwaitableValue V

namespace Shard

variable {K V : Type} [DecidableEq K]

/-- The Go expression `v, ok := s.m[key]`. -/
def lookup (s : Shard K V) (key : K) : Option (AwaitableValue V) := s.m.lookup key

/-- The Go statement `s.m[key] = v`. -/
def put (s : Shard K V) (key : K) (v : AwaitableValue V) : Shard K V := ⟨s.m.insert key v⟩

variable (s : Shard K V)

theorem lookup_put (key key' : K) (v : AwaitableValue V) :
    (s.put key v).lookup key' = if key' = key then some v else s.lookup key' := by
  split_ifs with h
  · subst h; exact AList.lookup_insert _
  · exact AList.lookup_insert_ne h

/-- `shard.Set` (lines 111–130): the new shard, the channel it closes, and the
returned bool. -/
def set (s : Shard K V) (key : K) (val : V) (overwrite : Bool) : Shard K V × Option Chan × Bool :=
  match s.lookup key with
  | some existing =>
    match existing.wait with
    | none =>
      if overwrite then (s.put key ⟨val, none⟩, none, true)
      else (s, none, false)
    | some ch => (s.put key ⟨val, none⟩, some ch, true)
  | none => (s.put key ⟨val, none⟩, none, true)

/-- `shard.Get` (lines 134–138): the zero value if the key is not present. -/
def get [Inhabited V] (s : Shard K V) (key : K) : V :=
  match s.lookup key with
  | some v => v.val
  | none => default

/-- The read-locked part of `shard.GetOrWait` (lines 145–149): the value and
the channel if the key is present. -/
def probe (s : Shard K V) (key : K) : Option (V × Option Chan) :=
  (s.lookup key).map fun v => (v.val, v.wait)

/-- The write-locked part of `shard.GetOrWait` (lines 152–161); `ch` is the
channel `make(chan struct{})` would return. -/
def register [Inhabited V] (s : Shard K V) (key : K) (ch : Chan) :
    Shard K V × V × Option Chan × Bool :=
  match s.lookup key with
  | some v => (s, v.val, v.wait, false)
  | none => (s.put key ⟨default, some ch⟩, default, some ch, true)

/-- `shard.Range` (lines 186–194): the pairs `f` is called on. -/
def range (s : Shard K V) : List (K × V) :=
  s.m.entries.filterMap fun e => if e.2.wait = none then some (e.1, e.2.val) else none

/-- `shard.Values` (lines 165–175). -/
def values (s : Shard K V) : List V :=
  s.m.entries.filterMap fun e => if e.2.wait = none then some e.2.val else none

theorem mem_range (key : K) (val : V) : (key, val) ∈ s.range ↔ s.lookup key = some ⟨val, none⟩ := by
  unfold range lookup
  rw [List.mem_filterMap, AList.mem_lookup_iff.symm.trans Option.mem_def |>.symm]
  constructor
  · rintro ⟨⟨k, v⟩, hmem, h⟩
    split_ifs at h with hw
    obtain ⟨rfl, rfl⟩ := Prod.mk.inj (Option.some.inj h)
    obtain ⟨v, w⟩ := v
    obtain rfl : w = none := hw
    exact hmem
  · intro h
    exact ⟨⟨key, val, none⟩, h, by simp⟩

omit [DecidableEq K] in
theorem values_eq : s.values = s.range.map Prod.snd := by
  unfold values range
  rw [List.map_filterMap]
  congr 1
  funext e
  split_ifs <;> rfl

omit [DecidableEq K] in
theorem range_keys_nodup : (s.range.map Prod.fst).Nodup := by
  have h : s.range.map Prod.fst =
      (s.m.entries.filter fun e => decide (e.2.wait = none)).map Sigma.fst := by
    unfold range
    induction s.m.entries with
    | nil => rfl
    | cons e es ih => by_cases hw : e.2.wait = none <;> simp [hw, ih]
  rw [h]
  exact (List.Sublist.map Sigma.fst List.filter_sublist).nodup s.m.nodupKeys

end Shard

/-- `Map` (lines 24–28). Field `mask_lt` is what `New` establishes: every
masked hash is the index of a shard. -/
structure Map (K V : Type) where
  shardCount : ℕ
  mask : ℕ
  hasher : K → ℕ
  shards : Fin shardCount → Shard K V
  mask_lt : mask < shardCount

namespace Map

variable {K V : Type} [DecidableEq K]

/-- `New` (lines 34–48) for a positive shard count; `none` is the panic on a
count that is not a power of two. -/
def new (shardCount : ℕ) (h : 0 < shardCount) (hasher : K → ℕ) : Option (Map K V) :=
  let mask := shardCount - 1
  if shardCount &&& mask ≠ 0 then none
  else some
    { shardCount := shardCount
      mask := mask
      hasher := hasher
      shards := fun _ => ⟨∅⟩
      mask_lt := Nat.sub_lt h Nat.one_pos }

/-- The index `m.hasher(key) & m.mask`. -/
def idx (m : Map K V) (key : K) : Fin m.shardCount :=
  ⟨m.hasher key &&& m.mask, lt_of_le_of_lt Nat.and_le_right m.mask_lt⟩

/-- The map with one shard replaced. -/
def update (m : Map K V) (i : Fin m.shardCount) (s : Shard K V) : Map K V :=
  { m with shards := Function.update m.shards i s }

/-- The entry of a key, in its shard. -/
def lookup (m : Map K V) (key : K) : Option (AwaitableValue V) := (m.shards (m.idx key)).lookup key

/-- The shared body of `Map.Add` and `Map.Set`: `shard.Set` on the shard of the
key. -/
def setWith (m : Map K V) (key : K) (val : V) (overwrite : Bool) : Map K V × Option Chan × Bool :=
  let r := (m.shards (m.idx key)).set key val overwrite
  (m.update (m.idx key) r.1, r.2)

/-- `Map.Add` (lines 52–54). -/
def add (m : Map K V) (key : K) (val : V) : Map K V × Option Chan × Bool := m.setWith key val false

/-- `Map.Set` (lines 58–60). -/
def set (m : Map K V) (key : K) (val : V) : Map K V × Option Chan :=
  let r := m.setWith key val true
  (r.1, r.2.1)

/-- `Map.Get` (lines 63–65). -/
def get [Inhabited V] (m : Map K V) (key : K) : V := (m.shards (m.idx key)).get key

/-- The first critical section of `Map.GetOrWait` (lines 74–76). -/
def probe (m : Map K V) (key : K) : Option (V × Option Chan) := (m.shards (m.idx key)).probe key

/-- The second critical section of `Map.GetOrWait`. -/
def register [Inhabited V] (m : Map K V) (key : K) (ch : Chan) : Map K V × V × Option Chan × Bool :=
  let r := (m.shards (m.idx key)).register key ch
  (m.update (m.idx key) r.1, r.2)

/-! ## What each method does to the entries -/

theorem lookup_new {n : ℕ} {hn : 0 < n} {hasher : K → ℕ} {m : Map K V}
    (h : new n hn hasher = some m) (key : K) : m.lookup key = none := by
  unfold new at h
  dsimp only at h
  split_ifs at h
  cases h
  rfl

section

variable (m : Map K V) (key : K)

/-- Replacing the shard of `key` by one that differs at `key` only changes
the entry of `key` only. -/
theorem lookup_update (key' : K) (s : Shard K V) (e : Option (AwaitableValue V))
    (hs : ∀ k, s.lookup k = if k = key then e else (m.shards (m.idx key)).lookup k) :
    (m.update (m.idx key) s).lookup key' = if key' = key then e else m.lookup key' := by
  have hidx : (m.update (m.idx key) s).idx key' = m.idx key' := rfl
  unfold lookup
  rw [hidx]
  unfold update
  dsimp only
  by_cases hi : m.idx key' = m.idx key
  · rw [hi, Function.update_self, hs]
  · rw [Function.update_of_ne hi, if_neg]
    rintro rfl
    exact hi rfl

theorem lookup_update_put (key' : K) (v : AwaitableValue V) :
    (m.update (m.idx key) ((m.shards (m.idx key)).put key v)).lookup key' =
      if key' = key then some v else m.lookup key' :=
  lookup_update m key key' _ _ fun k => Shard.lookup_put _ key k v

theorem lookup_update_self (key' : K) :
    (m.update (m.idx key) (m.shards (m.idx key))).lookup key' = m.lookup key' := by
  unfold update
  rw [Function.update_eq_self]

/-- The whole effect of `Map.Add` and `Map.Set`. Either nothing happens
(a value is there and must not be overwritten), or the key gets the value,
and the channel it was pending on, if any, is closed. -/
theorem setWith_cases (val : V) (overwrite : Bool) :
    let r := m.setWith key val overwrite
    (overwrite = false ∧ (∃ v, m.lookup key = some ⟨v, none⟩) ∧ r.2 = (none, false) ∧
      ∀ k, r.1.lookup k = m.lookup k) ∨
    (r.2 = ((m.lookup key).bind AwaitableValue.wait, true) ∧
      ∀ k, r.1.lookup k = if k = key then some ⟨val, none⟩ else m.lookup k) := by
  intro r
  have hl : (m.shards (m.idx key)).lookup key = m.lookup key := rfl
  cases hm : m.lookup key with
  | none =>
    right
    have hr : r = (m.update (m.idx key) ((m.shards (m.idx key)).put key ⟨val, none⟩),
        none, true) := by
      simp only [r, setWith, Shard.set, hl, hm]
    exact ⟨by simp [hr], fun k => by rw [hr]; exact lookup_update_put m key k _⟩
  | some e =>
    obtain ⟨v, w⟩ := e
    cases w with
    | none =>
      cases overwrite with
      | false =>
        left
        have hr : r = (m.update (m.idx key) (m.shards (m.idx key)), none, false) := by
          simp [r, setWith, Shard.set, hl, hm]
        exact ⟨rfl, ⟨v, rfl⟩, by simp [hr], fun k => by rw [hr]; exact lookup_update_self m key k⟩
      | true =>
        right
        have hr : r = (m.update (m.idx key) ((m.shards (m.idx key)).put key ⟨val, none⟩),
            none, true) := by
          simp [r, setWith, Shard.set, hl, hm]
        exact ⟨by simp [hr], fun k => by rw [hr]; exact lookup_update_put m key k _⟩
    | some ch =>
      right
      have hr : r = (m.update (m.idx key) ((m.shards (m.idx key)).put key ⟨val, none⟩),
          some ch, true) := by
        simp [r, setWith, Shard.set, hl, hm]
      exact ⟨by simp [hr], fun k => by rw [hr]; exact lookup_update_put m key k _⟩

theorem set_spec (val : V) :
    (m.set key val).2 = (m.lookup key).bind AwaitableValue.wait ∧
      ∀ k, (m.set key val).1.lookup k = if k = key then some ⟨val, none⟩ else m.lookup k := by
  rcases setWith_cases m key val true with ⟨h, _⟩ | ⟨h1, h2⟩
  · cases h
  · exact ⟨congrArg Prod.fst h1, h2⟩

theorem get_eq [Inhabited V] :
    m.get key = ((m.lookup key).map AwaitableValue.val).getD default := by
  unfold get Shard.get lookup
  cases (m.shards (m.idx key)).lookup key <;> rfl

theorem probe_eq : m.probe key = (m.lookup key).map fun v => (v.val, v.wait) := rfl

end

variable {key : K}

theorem register_of_some [Inhabited V] {m : Map K V} {e : AwaitableValue V}
    (h : m.lookup key = some e) (ch : Chan) :
    (m.register key ch).2 = (e.val, e.wait, false) ∧
      ∀ k, (m.register key ch).1.lookup k = m.lookup k := by
  have hl : (m.shards (m.idx key)).lookup key = some e := h
  unfold register Shard.register
  simp only [hl]
  exact ⟨trivial, lookup_update_self m key⟩

theorem register_of_none [Inhabited V] {m : Map K V} (h : m.lookup key = none) (ch : Chan) :
    (m.register key ch).2 = (default, some ch, true) ∧
      ∀ k, (m.register key ch).1.lookup k =
        if k = key then some ⟨default, some ch⟩ else m.lookup k := by
  have hl : (m.shards (m.idx key)).lookup key = none := h
  unfold register Shard.register
  simp only [hl]
  exact ⟨trivial, fun k => lookup_update_put m key k _⟩

/-! ## Channels -/

/-- How channels are used: a pending entry has a channel of its own that is not
closed, and no channel from `nextChan` on has been made. -/
structure ChansOk (m : Map K V) (nextChan : Chan) (closed : List Chan) : Prop where
  pending : ∀ k v ch, m.lookup k = some ⟨v, some ch⟩ → ch < nextChan ∧ ch ∉ closed
  own : ∀ k₁ k₂ v₁ v₂ ch, m.lookup k₁ = some ⟨v₁, some ch⟩ → m.lookup k₂ = some ⟨v₂, some ch⟩ →
    k₁ = k₂
  closed_lt : ∀ ch ∈ closed, ch < nextChan

variable {m m' : Map K V} {nextChan : Chan} {closed : List Chan}

variable (h : m.ChansOk nextChan closed)
include h

theorem ChansOk.of_lookup (hm : ∀ k, m'.lookup k = m.lookup k) : m'.ChansOk nextChan closed where
  pending k v ch hk := h.pending k v ch ((hm k).symm.trans hk)
  own k₁ k₂ v₁ v₂ ch h₁ h₂ := h.own k₁ k₂ v₁ v₂ ch ((hm k₁).symm.trans h₁) ((hm k₂).symm.trans h₂)
  closed_lt := h.closed_lt

/-- Registering a key makes the next channel its own. -/
theorem ChansOk.register {v₀ : V}
    (hm : ∀ k, m'.lookup k = if k = key then some ⟨v₀, some nextChan⟩ else m.lookup k) :
    m'.ChansOk (nextChan + 1) closed := by
  have hcases : ∀ k v ch, m'.lookup k = some ⟨v, some ch⟩ →
      k = key ∧ ch = nextChan ∨ k ≠ key ∧ m.lookup k = some ⟨v, some ch⟩ := by
    intro k v ch hk
    rw [hm] at hk
    split_ifs at hk with hkey
    · cases hk; exact .inl ⟨hkey, rfl⟩
    · exact .inr ⟨hkey, hk⟩
  refine ⟨?_, ?_, fun ch hch => Nat.lt_succ_of_lt (h.closed_lt ch hch)⟩
  · intro k v ch hk
    rcases hcases k v ch hk with ⟨_, rfl⟩ | ⟨_, hk⟩
    · exact ⟨Nat.lt_succ_self _, fun hmem => lt_irrefl _ (h.closed_lt _ hmem)⟩
    · obtain ⟨hlt, hnot⟩ := h.pending k v ch hk
      exact ⟨Nat.lt_succ_of_lt hlt, hnot⟩
  · intro k₁ k₂ v₁ v₂ ch h₁ h₂
    rcases hcases k₁ v₁ ch h₁ with ⟨e₁, f₁⟩ | ⟨_, h₁⟩ <;>
      rcases hcases k₂ v₂ ch h₂ with ⟨e₂, f₂⟩ | ⟨_, h₂⟩
    · rw [e₁, e₂]
    · exact absurd f₁ (h.pending _ _ _ h₂).1.ne
    · exact absurd f₂ (h.pending _ _ _ h₁).1.ne
    · exact h.own k₁ k₂ v₁ v₂ ch h₁ h₂

/-- Giving a key a value closes the channel it was pending on, if any. -/
theorem ChansOk.write {val : V}
    (hm : ∀ k, m'.lookup k = if k = key then some ⟨val, none⟩ else m.lookup k) :
    m'.ChansOk nextChan (closed ++ ((m.lookup key).bind AwaitableValue.wait).toList) := by
  have hpending : ∀ k v ch, m'.lookup k = some ⟨v, some ch⟩ →
      k ≠ key ∧ m.lookup k = some ⟨v, some ch⟩ := by
    intro k v ch hk
    rw [hm] at hk
    split_ifs at hk with hkey
    · cases hk
    · exact ⟨hkey, hk⟩
  -- a closed channel is the one the key was pending on
  have hclosed : ∀ ch ∈ ((m.lookup key).bind AwaitableValue.wait).toList,
      ∃ v, m.lookup key = some ⟨v, some ch⟩ := by
    intro ch hch
    obtain ⟨e, he, hw⟩ := Option.bind_eq_some_iff.mp (Option.mem_toList.mp hch)
    exact ⟨e.val, by rw [he, ← hw]⟩
  refine ⟨?_, ?_, ?_⟩
  · intro k v ch hk
    obtain ⟨hne, hk⟩ := hpending k v ch hk
    obtain ⟨hlt, hnot⟩ := h.pending k v ch hk
    refine ⟨hlt, fun hmem => ?_⟩
    rcases List.mem_append.mp hmem with hmem | hmem
    · exact hnot hmem
    · obtain ⟨v', hv'⟩ := hclosed ch hmem
      exact hne (h.own k key v v' ch hk hv')
  · intro k₁ k₂ v₁ v₂ ch h₁ h₂
    exact h.own k₁ k₂ v₁ v₂ ch (hpending _ _ _ h₁).2 (hpending _ _ _ h₂).2
  · intro ch hch
    rcases List.mem_append.mp hch with hch | hch
    · exact h.closed_lt ch hch
    · obtain ⟨v, hv⟩ := hclosed ch hch
      exact (h.pending key v ch hv).1

theorem ChansOk.set (key : K) (val : V) :
    (m.set key val).1.ChansOk nextChan (closed ++ (m.set key val).2.toList) := by
  obtain ⟨h2, hm⟩ := m.set_spec key val
  rw [h2]
  exact h.write hm

end Map

end Please.Cmap
