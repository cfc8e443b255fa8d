import Please.Asp.Expressions

/-!
# Equality and membership

`==`, which is `reflect.DeepEqual` on Go's values (`src/parse/asp/interpreter.go`, lines 719–722),
and `in` on a list, which is `==` of Go (`src/parse/asp/objects.go`, lines 363–369), on values that
are built from integers, strings, booleans, `None`, lists and dicts. Lists that read the same may
be held in different ways: `filter` (`src/parse/asp/builtins.go`, lines 925–943) returns a nil slice
if nothing is left, and a frozen list has another type than the list in it.

* `equalityMembership_iff`: where `==` is extensional, and where `in` agrees with it.
-/

namespace Please.Asp.Interp

open Please.Fs (Bytes)
open Please.Build (utf8)
open Please.Lib List

/-! ## Values as Go holds them -/

/-- A value, with the type of a list or dict and whether a slice is nil. A map has a key once. -/
inductive GoVal
  | none
  | bool (b : Bool)
  | int (i : Int64)
  | str (s : Bytes)
  | list (frozen isNil : Bool) (items : List GoVal)
  | dict (frozen : Bool) (entries : List (Bytes × GoVal))

namespace GoVal

mutual

/-- `reflect.DeepEqual`. -/
def deepEqual : GoVal → GoVal → Bool
  | .none, .none => true
  | .bool b, .bool b' => b = b'
  | .int i, .int i' => i = i'
  | .str s, .str s' => s = s'
  | .list frozen isNil items, .list frozen' isNil' items' =>
    frozen = frozen' && isNil = isNil' && deepEqualItems items items'
  | .dict frozen entries, .dict frozen' entries' =>
    frozen = frozen' && entries.length = entries'.length && deepEqualEntries entries entries'
  | _, _ => false

/-- Two slices have as many elements, and they are equal. -/
def deepEqualItems : List GoVal → List GoVal → Bool
  | [], [] => true
  | x :: xs, y :: ys => deepEqual x y && deepEqualItems xs ys
  | _, _ => false

/-- The keys of a map are in another, with equal values. -/
def deepEqualEntries : List (Bytes × GoVal) → List (Bytes × GoVal) → Bool
  | [], _ => true
  | (key, x) :: xs, ys =>
    (match ys.lookup key with
      | some y => deepEqual x y
      | Option.none => false) && deepEqualEntries xs ys

end

mutual

/-- Two values satisfy `p`, and so do those at corresponding places in them. -/
def allPairs (p : GoVal → GoVal → Bool) : GoVal → GoVal → Bool
  | .list frozen isNil items, .list frozen' isNil' items' =>
    p (.list frozen isNil items) (.list frozen' isNil' items') && allItems p items items'
  | .dict frozen entries, .dict frozen' entries' =>
    p (.dict frozen entries) (.dict frozen' entries') && allEntries p entries entries'
  | v, v' => p v v'

def allItems (p : GoVal → GoVal → Bool) : List GoVal → List GoVal → Bool
  | x :: xs, y :: ys => allPairs p x y && allItems p xs ys
  | _, _ => true

def allEntries (p : GoVal → GoVal → Bool) : List (Bytes × GoVal) → List (Bytes × GoVal) → Bool
  | [], _ => true
  | (key, x) :: xs, ys =>
    (match ys.lookup key with
      | some y => allPairs p x y
      | Option.none => true) && allEntries p xs ys

end

/-- The same leaf, two lists of one length, or two dicts with the same keys. -/
def sameShape : GoVal → GoVal → Bool
  | .none, .none => true
  | .bool b, .bool b' => b = b'
  | .int i, .int i' => i = i'
  | .str s, .str s' => s = s'
  | .list _ _ items, .list _ _ items' => items.length = items'.length
  | .dict _ entries, .dict _ entries' =>
    entries.length = entries'.length && entries.all fun e => (entries'.lookup e.1).isSome
  | _, _ => false

/-- Two lists, or two dicts, are held in the same way. -/
def sameFlags : GoVal → GoVal → Bool
  | .list frozen isNil _, .list frozen' isNil' _ => frozen = frozen' && isNil = isNil'
  | .dict frozen _, .dict frozen' _ => frozen = frozen'
  | _, _ => true

/-- The same structure and leaves. -/
def Same (v v' : GoVal) : Prop := allPairs sameShape v v' = true

/-- Lists and dicts at corresponding places are held in the same way. -/
def HeldAlike (v v' : GoVal) : Prop := allPairs sameFlags v v' = true

theorem deepEqualItems_of_length_ne {xs ys : List GoVal} (h : xs.length ≠ ys.length) :
    deepEqualItems xs ys = false := by
  induction xs generalizing ys with
  | nil =>
    cases ys with
    | nil => exact absurd rfl h
    | cons => rfl
  | cons x xs ih =>
    cases ys with
    | nil => rfl
    | cons => rw [deepEqualItems, ih (fun h' => h (congrArg Nat.succ h')), Bool.and_false]

mutual

theorem deepEqual_eq : ∀ v v' : GoVal,
    deepEqual v v' = (allPairs sameShape v v' && allPairs sameFlags v v')
  | .list frozen isNil items, v' => by
    cases v' with
    | list frozen' isNil' items' =>
      simp only [deepEqual, allPairs, sameShape, sameFlags]
      by_cases hlen : items.length = items'.length
      · rw [deepEqualItems_eq items items' hlen]
        cases decide (frozen = frozen') <;> cases decide (isNil = isNil') <;> simp [hlen]
      · rw [deepEqualItems_of_length_ne hlen]
        simp [hlen]
    | _ => simp [deepEqual, allPairs, sameShape]
  | .dict frozen entries, v' => by
    cases v' with
    | dict frozen' entries' =>
      simp only [deepEqual, allPairs, sameShape, sameFlags]
      rw [deepEqualEntries_eq entries entries']
      cases decide (frozen = frozen') <;> cases decide (entries.length = entries'.length) <;>
        cases entries.all _ <;> simp
    | _ => simp [deepEqual, allPairs, sameShape]
  | .none, v' | .bool b, v' | .int i, v' | .str t, v' =>
    by cases v' <;> simp [deepEqual, allPairs, sameShape, sameFlags]

theorem deepEqualItems_eq : ∀ xs ys : List GoVal, xs.length = ys.length →
    deepEqualItems xs ys = (allItems sameShape xs ys && allItems sameFlags xs ys)
  | [], ys, h => by
    obtain rfl := eq_nil_of_length_eq_zero h.symm
    simp [deepEqualItems, allItems]
  | x :: xs, ys, h => by
    obtain ⟨y, ys, rfl⟩ := exists_cons_of_length_eq_add_one h.symm
    rw [deepEqualItems, allItems, allItems, deepEqual_eq x y,
      deepEqualItems_eq xs ys (Nat.succ.inj h)]
    cases allPairs sameShape x y <;> cases allPairs sameFlags x y <;> simp

theorem deepEqualEntries_eq : ∀ xs ys : List (Bytes × GoVal),
    deepEqualEntries xs ys = ((xs.all fun e => (ys.lookup e.1).isSome) &&
      (allEntries sameShape xs ys && allEntries sameFlags xs ys))
  | [], ys => by simp [deepEqualEntries, allEntries]
  | (key, x) :: xs, ys => by
    rw [deepEqualEntries, allEntries, allEntries, all_cons, deepEqualEntries_eq xs ys]
    cases ys.lookup key with
    | none => simp
    | some y =>
      simp only [deepEqual_eq x y, Option.isSome_some]
      cases allPairs sameShape x y <;> cases allPairs sameFlags x y <;> cases xs.all _ <;> simp

end

end GoVal

/-! ## Values in the store -/

variable {H : Type}

/-- The slice of a variable that has been declared and not set. -/
def nilSlice : Slice := { emptyList with isNil := true }

/-- The value of an object whose lists and dicts are nested at most `n` deep. -/
def view (st : Store H) : ℕ → Obj → Option GoVal
  | _, .none => some .none
  | _, .bool b => some (.bool b)
  | _, .int i => some (.int i)
  | _, .str s => some (.str s)
  | n + 1, .list l => ((l.contents st.arrays).mapM (view st n)).map (.list false l.isNil)
  | n + 1, .frozenList l => ((l.contents st.arrays).mapM (view st n)).map (.list true l.isNil)
  | n + 1, .dict d => ((st.dict d).mapM fun e => (view st n e.2).map (e.1, ·)).map (.dict false)
  | n + 1, .frozenDict d => ((st.dict d).mapM fun e => (view st n e.2).map (e.1, ·)).map
      (.dict true)
  | _, _ => none

/-- The runtime with `reflect.DeepEqual`, on values that are nested at most `depth` deep. -/
def Runtime.withEquality (R : Runtime H) (depth : ℕ) : Runtime H :=
  { R with
    deepEqual := fun st obj obj' =>
      match view st depth obj, view st depth obj' with
      | some v, some v' => v.deepEqual v'
      | _, _ => R.deepEqual st obj obj' }

/-- The two objects have one type, on whose values `==` of Go panics. -/
def sameUncomparable : Obj → Obj → Bool
  | .list _, .list _ | .frozenList _, .frozenList _ => true
  | .dict _, .dict _ | .frozenDict _, .frozenDict _ => true
  | _, _ => false

/-- `filter`. -/
def filter (R : Runtime H) (N : Natives H) (s : ℕ) (f seq : Obj) : P H Obj :=
  match f, seq with
  | .func _, .list l | .member _ _, .list l => do
    let items ← read fun st => l.contents st.arrays
    let ret ← items.foldlM (fun ret li => do
      let obj ← callObject N [] f s [([], fun _ => pure li)]
      if ← truthy obj then
        Prog.act fun st =>
          let appended := Slice.append R.growth st.arrays ret [li]
          .ok (appended.1, { st with arrays := appended.2 })
      else pure ret) nilSlice
    pure (.list ret)
  | .func _, seq | .member _ _, seq => raise (utf8 "Argument seq must be a list, not " ++ seq.type)
  | f, _ => raise (utf8 "Argument filter must be callable, not " ++ f.type)

section

variable (R : Runtime H) (s : ℕ) (st : Store H)

/-- `obj == obj'` -/
def equals (obj obj' : Obj) : P H Obj := interpretOp R s obj (.equal, some fun _ => pure obj')

/-- `x in l` -/
def isIn (x l : Obj) : P H Obj := interpretOp R s x (.in_, some fun _ => pure l)

/-- `==` holds exactly of objects with the same structure and leaves. -/
def EqualityExtensional (obj obj' : Obj) (v v' : GoVal) : Prop :=
  ∃ b, Evaluates st (equals R s obj obj') (.ok (.bool b)) ∧ (b = true ↔ v.Same v')

/-- `in` terminates, and holds exactly if some item is `==` to `x`. -/
def MembershipAgrees (x l : Obj) (items : List Obj) : Prop :=
  ∃ b, Evaluates st (isIn R s x l) (.ok (.bool b)) ∧
    (b = true ↔ ∃ item ∈ items, Evaluates st (equals R s item x) (.ok (.bool true)))

end

section

variable {R : Runtime H} {depth s : ℕ} {st : Store H} {obj obj' x l : Obj} {v v' : GoVal}
  {items : List Obj}

theorem evaluates_equals (hobj : view st depth obj = some v)
    (hobj' : view st depth obj' = some v') :
    Evaluates st (equals (R.withEquality depth) s obj obj') (.ok (.bool (v.deepEqual v'))) := by
  have hdeep : (R.withEquality depth).deepEqual st obj obj' = v.deepEqual v' := by
    simp only [Runtime.withEquality, hobj, hobj']
  intro answer fs
  rw [← hdeep]
  rfl

theorem equalityExtensional_iff (hobj : view st depth obj = some v)
    (hobj' : view st depth obj' = some v') :
    EqualityExtensional (R.withEquality depth) s st obj obj' v v' ↔
      (v.Same v' → v.HeldAlike v') := by
  have heval : Evaluates st (equals (R.withEquality depth) s obj obj') _ :=
    evaluates_equals hobj hobj'
  have hdeep : v.deepEqual v' = true ↔ v.Same v' ∧ v.HeldAlike v' := by
    rw [GoVal.deepEqual_eq, Bool.and_eq_true]
    rfl
  constructor
  · rintro ⟨b, hb, hiff⟩ hsame
    obtain rfl : v.deepEqual v' = b := Obj.bool.inj (Except.ok.inj (heval.unique hb))
    exact (hdeep.mp (hiff.mpr hsame)).2
  · intro h
    exact ⟨_, heval, hdeep.trans ⟨fun h => h.1, fun hsame => ⟨hsame, h hsame⟩⟩⟩

/-- What an object with a value is. -/
inductive HeldAs : Obj → GoVal → Prop
  | none : HeldAs .none .none
  | bool (b : Bool) : HeldAs (.bool b) (.bool b)
  | int (i : Int64) : HeldAs (.int i) (.int i)
  | str (t : Bytes) : HeldAs (.str t) (.str t)
  | list (l : Slice) (isNil : Bool) (vs : List GoVal) : HeldAs (.list l) (.list false isNil vs)
  | frozenList (l : Slice) (isNil : Bool) (vs : List GoVal) :
    HeldAs (.frozenList l) (.list true isNil vs)
  | dict (d : ℕ) (es : List (Bytes × GoVal)) : HeldAs (.dict d) (.dict false es)
  | frozenDict (d : ℕ) (es : List (Bytes × GoVal)) : HeldAs (.frozenDict d) (.dict true es)

theorem heldAs_of_view (h : view st depth obj = some v) : HeldAs obj v := by
  cases obj with
  | none =>
    rw [view] at h
    cases h
    exact .none
  | bool b =>
    rw [view] at h
    cases h
    exact .bool b
  | int i =>
    rw [view] at h
    cases h
    exact .int i
  | str t =>
    rw [view] at h
    cases h
    exact .str t
  | list l =>
    cases depth with
    | zero => cases h
    | succ =>
      obtain ⟨vs, -, rfl⟩ := Option.map_eq_some_iff.mp h
      exact .list l _ vs
  | frozenList l =>
    cases depth with
    | zero => cases h
    | succ =>
      obtain ⟨vs, -, rfl⟩ := Option.map_eq_some_iff.mp h
      exact .frozenList l _ vs
  | dict d =>
    cases depth with
    | zero => cases h
    | succ =>
      obtain ⟨es, -, rfl⟩ := Option.map_eq_some_iff.mp h
      exact .dict d es
  | frozenDict d =>
    cases depth with
    | zero => cases h
    | succ =>
      obtain ⟨es, -, rfl⟩ := Option.map_eq_some_iff.mp h
      exact .frozenDict d es
  | _ => cases depth <;> cases h

/-- Objects that Go can compare are the same exactly if they are deeply equal. -/
theorem HeldAs.deepEqual_iff (hobj : HeldAs obj v) (hobj' : HeldAs obj' v')
    (h : sameUncomparable obj obj' = false) : v.deepEqual v' = true ↔ obj = obj' := by
  cases hobj <;> cases hobj' <;> simp_all [GoVal.deepEqual, sameUncomparable]

/-- `==` of Go panics on two objects of an uncomparable type, and tells others apart. -/
theorem HeldAs.goEqual_eq (hobj : HeldAs obj v) (hobj' : HeldAs obj' v') (R : Runtime H) :
    (sameUncomparable obj obj' = true → ∃ e, goEqual R obj obj' = .error e) ∧
    (sameUncomparable obj obj' = false → goEqual R obj obj' = .ok (decide (obj = obj'))) := by
  cases hobj <;> cases hobj' <;> simp [goEqual, sameUncomparable]

theorem contains_of_comparable (R : Runtime H) {vx : GoVal} (hx : HeldAs x vx)
    (hitems : ∀ item ∈ items, ∃ v, HeldAs item v)
    (h : ∀ item ∈ items, sameUncomparable item x = false) :
    contains R x items = .ok (decide (x ∈ items)) := by
  induction items with
  | nil => rfl
  | cons item _ ih =>
    obtain ⟨v, hv⟩ := hitems item mem_cons_self
    rw [contains, (hv.goEqual_eq hx R).2 (h item mem_cons_self), Except.ok_bind,
      ih (forall_mem_cons.mp hitems).2 (forall_mem_cons.mp h).2]
    by_cases heq : item = x
    · simp [heq]
    · simp [heq, Ne.symm heq]

theorem sameUncomparable_self (h : sameUncomparable obj x = true) :
    sameUncomparable x x = true := by
  unfold sameUncomparable at h
  split at h
  · rfl
  · rfl
  · rfl
  · rfl
  · cases h

/-- It panics at the first one that cannot be. -/
theorem contains_of_uncomparable (R : Runtime H) {vx : GoVal} (hx : HeldAs x vx)
    (hitems : ∀ item ∈ items, ∃ v, HeldAs item v)
    (h : ∃ item ∈ items, sameUncomparable item x = true) : ∃ e, contains R x items = .error e := by
  induction items with
  | nil =>
    obtain ⟨item, hmem, -⟩ := h
    cases hmem
  | cons item items ih =>
    obtain ⟨v, hv⟩ := hitems item mem_cons_self
    cases hsame : sameUncomparable item x with
    | true =>
      obtain ⟨e, he⟩ := (hv.goEqual_eq hx R).1 hsame
      exact ⟨e, by rw [contains, he, Except.error_bind]⟩
    | false =>
      obtain ⟨other, hmem, hother⟩ := h
      have hrest : other ∈ items := by
        rcases mem_cons.mp hmem with rfl | hmem
        · exact absurd (hsame.symm.trans hother) Bool.false_ne_true
        · exact hmem
      -- the item is not the object, which Go cannot compare with itself
      have hne : item ≠ x := by
        rintro rfl
        exact Bool.false_ne_true (hsame.symm.trans (sameUncomparable_self hother))
      obtain ⟨e, he⟩ := ih (forall_mem_cons.mp hitems).2 ⟨other, hrest, hother⟩
      refine ⟨e, ?_⟩
      rw [contains, (hv.goEqual_eq hx R).2 hsame, Except.ok_bind, decide_eq_false hne,
        if_neg Bool.false_ne_true, he]

theorem evaluates_isIn {sl : Slice} (hl : l = .list sl ∨ l = .frozenList sl) :
    Evaluates st (isIn R s x l) ((contains R x (sl.contents st.arrays)).map .bool) := by
  intro answer fs
  have hop : operator R .in_ l x st = (contains R x (sl.contents st.arrays)).map fun b =>
      (.bool b, st) := by
    rcases hl with rfl | rfl
    all_goals
      show (contains R x (sl.contents st.arrays) >>= _) = _
      cases contains R x (sl.contents st.arrays) <;> rfl
  cases hc : contains R x (sl.contents st.arrays) with
  | ok =>
    rw [hc] at hop
    exact Prog.run_act_of_ok answer hop
  | error =>
    rw [hc] at hop
    exact Prog.run_act_of_error answer hop

theorem membershipAgrees_iff {sl : Slice} (hl : l = .list sl ∨ l = .frozenList sl)
    (hitems : ∀ item ∈ sl.contents st.arrays, ∃ v, view st depth item = some v)
    (hx : ∃ v, view st depth x = some v) :
    MembershipAgrees (R.withEquality depth) s st x l (sl.contents st.arrays) ↔
      ∀ item ∈ sl.contents st.arrays, sameUncomparable item x = false := by
  obtain ⟨vx, hvx⟩ := hx
  have hheld : ∀ item ∈ sl.contents st.arrays, ∃ v, HeldAs item v := fun item hmem =>
    (hitems item hmem).imp fun v hv => heldAs_of_view hv
  have heval : Evaluates st (isIn (R.withEquality depth) s x l) _ := evaluates_isIn hl
  constructor
  · rintro ⟨b, hb, -⟩
    by_contra hno
    obtain ⟨item, hitem⟩ := not_forall.mp hno
    obtain ⟨hmem, hsame⟩ := Classical.not_imp.mp hitem
    obtain ⟨e, he⟩ := contains_of_uncomparable (R.withEquality depth) (heldAs_of_view hvx) hheld
      ⟨item, hmem, by simpa using hsame⟩
    rw [he] at heval
    cases heval.unique hb
  · intro h
    rw [contains_of_comparable (R.withEquality depth) (heldAs_of_view hvx) hheld h] at heval
    refine ⟨_, heval, ?_⟩
    rw [decide_eq_true_eq]
    constructor
    · intro hmem
      have hself := (heldAs_of_view hvx).deepEqual_iff (heldAs_of_view hvx) (h x hmem)
      refine ⟨x, hmem, ?_⟩
      have heq : Evaluates st (equals (R.withEquality depth) s x x) _ := evaluates_equals hvx hvx
      rwa [hself.mpr rfl] at heq
    · rintro ⟨item, hmem, heq⟩
      obtain ⟨v, hv⟩ := hitems item hmem
      have hdeep : v.deepEqual vx = true :=
        Obj.bool.inj (Except.ok.inj ((evaluates_equals hv hvx).unique heq))
      rwa [← ((heldAs_of_view hv).deepEqual_iff (heldAs_of_view hvx) (h item hmem)).mp hdeep]

/-- `==` is extensional on two objects exactly if they are held in the same way where they read the
same, and `in` agrees with it exactly if no item has the type of `x`, when that is a list or
dict. -/
theorem equalityMembership_iff {sl : Slice} (hobj : view st depth obj = some v)
    (hobj' : view st depth obj' = some v') (hl : l = .list sl ∨ l = .frozenList sl)
    (hitems : ∀ item ∈ sl.contents st.arrays, ∃ v, view st depth item = some v)
    (hx : ∃ v, view st depth x = some v) :
    (EqualityExtensional (R.withEquality depth) s st obj obj' v v' ↔ (v.Same v' → v.HeldAlike v')) ∧
    (MembershipAgrees (R.withEquality depth) s st x l (sl.contents st.arrays) ↔
      ∀ item ∈ sl.contents st.arrays, sameUncomparable item x = false) :=
  ⟨equalityExtensional_iff hobj hobj', membershipAgrees_iff hl hitems hx⟩

end

/-- A store with the lists `[]` and `[1]`. -/
def oneStore : Store Unit := ⟨[[], [.int 1]], [], [], [], ()⟩

/-- The list `[1]` of this store. -/
def oneList : Slice := ⟨1, 0, 1, 1, false⟩

theorem equalityMembership_one :
    EqualityExtensional ((Runtime.bare Unit).withEquality 1) 0 oneStore (.list oneList)
      (.list oneList) (.list false false [.int 1]) (.list false false [.int 1]) ∧
    MembershipAgrees ((Runtime.bare Unit).withEquality 1) 0 oneStore (.int 1) (.list oneList)
      [.int 1] := by
  have hitem {item : Obj} (h : item ∈ oneList.contents oneStore.arrays) :
      item = .int 1 := mem_singleton.mp h
  have hitems : ∀ item ∈ oneList.contents oneStore.arrays,
      ∃ v, view oneStore 1 item = some v := fun item h => ⟨.int 1, by rw [hitem h]; rfl⟩
  have h : (EqualityExtensional ((Runtime.bare Unit).withEquality 1) 0 oneStore
      (.list oneList) (.list oneList) (.list false false [.int 1])
      (.list false false [.int 1]) ↔ _) ∧
      (MembershipAgrees ((Runtime.bare Unit).withEquality 1) 0 oneStore (.int 1)
        (.list oneList) _ ↔ _) :=
    equalityMembership_iff rfl rfl (.inl rfl) hitems ⟨.int 1, rfl⟩
  exact ⟨h.1.mpr fun _ => rfl, h.2.mpr fun item hmem => by rw [hitem hmem]; rfl⟩

/-- A native function of one argument that returns `False`. -/
def neverNatives : Natives Unit := fun _ =>
  some ⟨⟨utf8 "never", [utf8 "x"], [(utf8 "x", 0)], [[]], [none], [false], false, false, false⟩, [],
    fun _ _ => pure (.bool false)⟩

/-- `filter(never, [1]) == []`, a frozen `[1] == [1]` and `[1] in [[1]]`: the first two are false,
and the last one panics. -/
theorem equality_not_extensional :
    ((do
      let empty ← filter (Runtime.bare Unit) neverNatives 0 (.func (.native (utf8 "never")))
        (.list oneList)
      equals ((Runtime.bare Unit).withEquality 2) 0 empty (.list emptyList)).run
        noAnswer (oneStore, [])).1 = .ok (.bool false) ∧
    ((equals ((Runtime.bare Unit).withEquality 2) 0 (.frozenList oneList)
      (.list oneList)).run noAnswer (oneStore, [])).1 = .ok (.bool false) ∧
    ((isIn ((Runtime.bare Unit).withEquality 2) 0 (.list oneList) (.list ⟨2, 0, 1, 1, false⟩)).run
      noAnswer
        ({ oneStore with arrays := [[], [.int 1], [.list oneList]] }, [])).1 =
      .error (utf8 "runtime error: comparing uncomparable type asp.pyList") := by
  decide +kernel

end Please.Asp.Interp
