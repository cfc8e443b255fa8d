import Please.Asp.Optimise

/-!
# What marking joins changes

`Parser.optimise` replaces `'sep'.join([..])` by a node that `interpretJoin` evaluates without a
list (`src/parse/asp/parser.go`, lines 239–254; `src/parse/asp/interpreter.go`, lines 748–779). Its
test does not look at what follows the string literal or the list literal in brackets, and keeps
neither.

* `interpretJoin_eq_strJoin`: when the node gives what `strJoin` (`src/parse/asp/builtins.go`, lines
  533–537 and 777–790) gives for the list.
* `slice_of_join_lost`: `','.join(['a', 'b'][1:])` is `'a,b'` after the optimiser.
-/

namespace Please.Asp.Interp

open Please.Fs (Bytes)
open Please.Build (utf8)
open Please.Lib Prog Slice
open Please.Asp.Syntax List

variable {H : Type}

/-! ## The method -/

/-- The loop of `asStringList` (lines 784–788). -/
def asStrings (name : Bytes) : List Obj → Except Bytes (List Bytes)
  | [] => .ok []
  | .str s :: objs => do
    let strs ← asStrings name objs
    .ok (s :: strs)
  | _ => .error (name ++ utf8 " must be a list of strings")

/-- `asStringList` (lines 777–790). -/
def asStringList (name : Bytes) (arg : Obj) : P H (List Bytes) :=
  match arg with
  | .list l | .frozenList l => readOr fun st => asStrings name (l.contents st.arrays)
  | _ => raise (utf8 "argument " ++ name ++ utf8 " must be a list")

/-- `strJoin` (lines 533–537), with the signature `def join(self:str, seq:list) -> str`. -/
def strJoin : Native H where
  sig := {
    name := utf8 "join"
    args := [utf8 "self", utf8 "seq"]
    argIndices := [(utf8 "seq", 1), (utf8 "self", 0)]
    types := [[utf8 "str"], [utf8 "list"]]
    constants := [none, none]
    hasDefault := [false, false] }
  defaults := [none, none]
  code _ args :=
    match args with
    | [.str self, seq] => do
      let seq ← asStringList (utf8 "seq") seq
      pure (.str (joinBytes self seq))
    | _ => raise (utf8 "interface conversion: asp.pyObject is not asp.pyString")

/-- Strings have the method. -/
structure HasJoin (R : Runtime H) (N : Natives H) : Prop where
  stringMethods : R.stringMethods (utf8 "join") = some (.native (utf8 "join"))
  native : N (utf8 "join") = some strJoin

/-! ## What is written -/

/-- What `interpretJoin` has written after some strings. -/
def written (base : Bytes) : List Bytes → Option Bytes
  | [] => none
  | strs => some (joinBytes base strs)

theorem joinBytes_concat (base z x : Bytes) (strs : List Bytes) :
    joinBytes base (x :: (strs ++ [z])) = joinBytes base (x :: strs) ++ base ++ z := by
  induction strs generalizing x with
  | nil => simp [joinBytes]
  | cons y _ ih =>
    have h := ih y
    simp only [joinBytes] at h ⊢
    rw [cons_append, intercalate_cons_cons, intercalate_cons_cons, h]
    simp

theorem written_concat (base z : Bytes) (strs : List Bytes) :
    written base (strs ++ [z]) = write base (written base strs) z := by
  cases strs with
  | nil => simp [written, write, joinBytes]
  | cons x strs => exact congrArg some (joinBytes_concat base z x strs)

theorem getD_written (base : Bytes) (strs : List Bytes) :
    (written base strs).getD [] = joinBytes base strs := by
  cases strs with
  | nil => simp [written, joinBytes]
  | cons => rfl

/-! ## Joins with nothing after the literals -/

/-- Nothing follows the literal of a value. -/
def isBare : Node Ann .valueExpression → Bool
  | .valueExpression _ slices property call => slices.isNil && property.isAbsent && call.isAbsent

/-- Nothing follows the literal of an argument. -/
def isBareArgument : Node Ann .callArgument → Bool
  | .callArgument _ _ (.expression _ _ val _ _) => isBare val

/-- Nothing follows the literal of the only argument of a method. -/
def isBareProperty (property : Node Ann .identExpr) : Bool :=
  ((soleCall property).bind fun (_, call) => soleArgument call).any isBareArgument

/-- No index or slice follows the string literal of a join, and nothing follows its argument. -/
def isBareJoin : Syntax.Expression Ann → Bool
  | .expression _ _ (.valueExpression _ slices (.present property) _) _ _ =>
    slices.isNil && isBareProperty property
  | _ => false

variable {l : Node Ann .list}

theorem eq_of_listOfValue {val : Node Ann .valueExpression} (h : listOfValue val = some l)
    (hbare : isBare val) :
    val = .valueExpression (.listLiteral l) .nil .absent .absent := by
  cases val with
  | valueExpression literal =>
    simp only [isBare, Bool.and_eq_true] at hbare
    rw [Node.eq_nil_of_isNil hbare.1.1, Node.eq_absent_of_isAbsent hbare.1.2,
      Node.eq_absent_of_isAbsent hbare.2]
    cases literal <;> cases h
    rfl

/-- The method `join` with a list literal. -/
def IsJoinOf (l : Node Ann .list) (property : Node Ann .identExpr) : Prop :=
  ∃ p q pos ann endPos, ann.optimised = none ∧ property =
    .identExpr p q (utf8 "join") (.cons (.callAction (.call (.cons (.callArgument pos []
      (.expression ann endPos (.valueExpression (.listLiteral l) .nil .absent .absent)
        .nil .absent))
        .nil))) .nil)

theorem exists_of_joinArgument {arg : Node Ann .callArgument} (h : joinArgument arg = some l)
    (hbare : isBareArgument arg) :
    ∃ pos ann endPos, ann.optimised = none ∧ arg = .callArgument pos []
      (.expression ann endPos (.valueExpression (.listLiteral l) .nil .absent .absent) .nil
        .absent) := by
  cases arg with
  | callArgument pos =>
    obtain ⟨rfl, hl⟩ := Option.ite_none_right_eq_some.mp h
    obtain ⟨val, hval, hlist⟩ := Option.bind_eq_some_iff.mp hl
    obtain ⟨ann, endPos, hann, rfl⟩ := exists_of_bareValue hval
    exact ⟨pos, ann, endPos, hann, by rw [eq_of_listOfValue hlist hbare]⟩

theorem isJoinOf_of_joinProperty {property : Node Ann .identExpr}
    (h : joinProperty property = some l) (hbare : isBareProperty property) :
    IsJoinOf l property := by
  obtain ⟨⟨name, call⟩, hcall, h⟩ := Option.bind_eq_some_iff.mp h
  obtain ⟨arg, harg, h⟩ := Option.bind_eq_some_iff.mp h
  obtain ⟨rfl, hl⟩ := Option.ite_none_right_eq_some.mp h
  have hbare' : isBareArgument arg := by
    simpa only [isBareProperty, hcall, harg, Option.bind_some, Option.any_some] using hbare
  obtain ⟨p, q, rfl⟩ := exists_of_soleCall hcall
  obtain rfl := eq_of_soleArgument harg
  obtain ⟨pos, ann, endPos, hann, rfl⟩ := exists_of_joinArgument hl hbare'
  exact ⟨p, q, pos, ann, endPos, hann, rfl⟩

/-- What the optimiser has found when it has found a join with nothing after the literals. -/
theorem exists_of_spotJoin {e : Syntax.Expression Ann} {base : Bytes}
    (h : spotJoin e = some (base, l)) (hbare : isBareJoin e) :
    ∃ ann endPos call property, ann.optimised = none ∧ IsJoinOf l property ∧
      e = .expression ann endPos
        (.valueExpression (.string base) .nil (.present property) call) .nil
        .absent := by
  obtain ⟨val, hval, hjoin⟩ := Option.bind_eq_some_iff.mp h
  obtain ⟨ann, endPos, hann, rfl⟩ := exists_of_bareValue hval
  cases val with
  | valueExpression literal _ property call =>
    cases property with
    | absent => cases hbare
    | present property =>
      simp only [isBareJoin, Bool.and_eq_true] at hbare
      rw [Node.eq_nil_of_isNil hbare.1]
      cases literal with
      | string =>
        obtain ⟨-, hl⟩ := Option.ite_none_left_eq_some.mp hjoin
        obtain ⟨l', hl, hpair⟩ := Option.map_eq_some_iff.mp hl
        cases hpair
        exact ⟨ann, endPos, call, property, hann, isJoinOf_of_joinProperty hl hbare.2, rfl⟩
      | _ => cases hjoin

/-! ## Values that are strings -/

/-- The expression with an assertion: its value is a string. -/
def assertStr (m : Obj → Bytes) (e : Exp H) : Exp H := fun s => do
  let y ← e s
  match y with
  | .str z => pure (.str z)
  | y => raise (m y)

/-- The list with an assertion for each of its values. -/
def ListDen.assertStrs (l : ListDen H) (m : Obj → Bytes) : ListDen H :=
  { l with values := l.values.map (assertStr m) }

section like

variable {answer : Handler Answer (Store H) (List Closure) Bytes}

/-- The strings of a list, and what has been written for them. -/
def Joined (base : Bytes) (objs : List Obj) (b : Option Bytes) : Prop :=
  ∃ strs : List Bytes, objs = strs.map .str ∧ b = written base strs

variable (base : Bytes)

theorem joinValue_like (s : ℕ) (b : Option Bytes) (e : Exp H) :
    Like Eq answer answer (fun obj b' => ∃ z, obj = .str z ∧ b' = write base b z)
      (assertStr joinMessage e s) (joinValue base s b e) := by
  refine .bind_refl (answersAlike_refl answer) _ fun y => ?_
  cases y with
  | str z => exact .pure ⟨z, rfl, rfl⟩
  | _ => exact fun _ _ _ ht => ⟨.error _, rfl, ht⟩

/-- Evaluating all values of a literal, and writing one after another. -/
theorem foldlM_joinValue_like (s : ℕ) (es : List (Exp H)) (before : List Bytes) :
    Like Eq answer answer
      (fun objs b => ∃ strs : List Bytes, objs = strs.map .str ∧ b = written base (before ++ strs))
      (evaluateExpressions s (es.map (assertStr joinMessage)))
      (es.foldlM (joinValue base s) (written base before)) := by
  induction es generalizing before with
  | nil => exact .pure ⟨[], rfl, by rw [append_nil]⟩
  | cons e es ih =>
    refine (joinValue_like base s _ e).bind fun obj b hz => ?_
    obtain ⟨z, rfl, rfl⟩ := hz
    rw [← written_concat]
    refine (ih (before ++ [z])).map_left fun objs b hstrs => ?_
    obtain ⟨strs, rfl, rfl⟩ := hstrs
    exact ⟨z :: strs, rfl, by rw [append_assoc, singleton_append]⟩

/-- The comprehension of a list with one value, and that of a join. -/
theorem comprehension_like (cs : ℕ) (it : Obj) (comp : CompDen H) (e : Exp H) :
    Like Eq answer answer (Joined base)
      (evaluateComprehension cs it comp (fun objs => do
        let obj ← comprehensionValue cs [assertStr joinMessage e]
        pure (objs ++ [obj])) [])
      (evaluateComprehension cs it comp (fun b => joinValue base cs b e) none) := by
  refine evaluateComprehension_like (answersAlike_refl answer) cs it comp (fun objs b h => ?_)
    ⟨[], rfl, rfl⟩
  obtain ⟨strs, rfl, rfl⟩ := h
  refine (joinValue_like base cs _ e).map_left fun obj b hz => ?_
  obtain ⟨z, rfl, rfl⟩ := hz
  exact ⟨strs ++ [z], by rw [map_append, map_singleton], (written_concat base z strs).symm⟩

end like

/-! ## Lists that may be joined -/

/-- The object is no range whose length is negative or divides by zero. -/
def HasLen : Obj → Prop
  | .range start stop step => step ≠ 0 ∧ 0 ≤ ((stop - start) / step).toInt
  | _ => True

theorem exists_capHint {it : Obj} (h : HasLen it) : ∃ cap, capHint it = (pure cap : P H ℕ) := by
  cases it with
  | range start stop step =>
    refine ⟨((stop - start) / step).toInt.toNat, ?_⟩
    rw [capHint, lenHint, if_neg h.1, pure_bind, if_neg (not_lt.mpr h.2)]
  | list l | frozenList l => exact ⟨l.len, rfl⟩
  | _ => exact ⟨4, rfl⟩

/-- A list literal as the parser makes it: with a comprehension there is one value. -/
def ListDen.WellFormed (l : ListDen H) : Prop := l.comprehension = none ∨ ∃ e, l.values = [e]

variable (R : Runtime H)

/-- What is asked of the list of a join where it is evaluated. -/
structure Joinable (l : ListDen H) (answer : Handler Answer (Store H) (List Closure) Bytes)
    (s : ℕ) (state : Store H × List Closure) : Prop where
  /-- A comprehension goes over an object with a length. -/
  hasLen : ∀ comp cs it state', l.comprehension = some comp →
    (comprehensionStart comp s).run answer state = (.ok (cs, it), state') → HasLen it
  /-- No assertion that a value is a string fails. -/
  strings : ∀ m, (listItems R (l.assertStrs m) s).run answer state =
      (listItems R l s).run answer state

variable {R}

/-- What is written for a list is what its elements are joined to. -/
theorem joinItems_alike {l : ListDen H} (hl : l.WellFormed)
    {answer : Handler Answer (Store H) (List Closure) Bytes} {s : ℕ}
    {state : Store H × List Closure} (h : Joinable R l answer s state) (base : Bytes) :
    Alike Eq (fun x b => Joined base x.1 b) ((listItems R l s).run answer state)
      ((joinItems base l s).run answer state) := by
  rw [← h.strings joinMessage]
  obtain ⟨values, comprehension⟩ := l
  cases comprehension with
  | none =>
    exact (foldlM_joinValue_like base s values []).map_left (fun _ _ h => h) state.1 state.2 _ rfl
  | some comp =>
    obtain hnone | ⟨e, rfl⟩ := hl
    · cases hnone
    · simp only [listItems, ListDen.assertStrs, joinItems]
      rw [run_bind, run_bind]
      refine .andThen_same _ fun start state' hstart => ?_
      obtain ⟨cs, it⟩ := start
      obtain ⟨cap, hcap⟩ := exists_capHint (H := H) (h.hasLen comp cs it state' rfl hstart)
      rw [hcap, pure_bind]
      have hitems : Like Eq answer answer (fun (x : List Obj × ℕ) b => Joined base x.1 b) _ _ :=
        (comprehension_like base cs it comp e).map_left
          (f := fun objs => (objs, pushCap R.growth cap 0 objs.length - objs.length)) fun _ _ h => h
      exact hitems state'.1 state'.2 _ rfl

/-! ## The call of the method -/

variable {N : Natives H}

/-- The method for a list. -/
def joinList (self : Bytes) (t : Slice) : P H Obj := do
  let strs ← asStringList (utf8 "seq") (.list t)
  pure (.str (joinBytes self strs))

/-- The call of the method with a list. -/
theorem callObject_join (hN : N (utf8 "join") = some strJoin) (name self : Bytes)
    {s : ℕ} {e : Exp H}
    {x : P H Slice} (he : e s = (do let t ← x; pure (.list t))) :
    callObject N name (.member (.native (utf8 "join")) (.str self)) s [([], e)] =
      x >>= joinList self := by
  have hval : validateType (strJoin (H := H)).sig (fun _ => evalOperand s none) s 1 e = e s := by
    simp only [validateType, he, bind_assoc, pure_bind]
    rfl
  calc callObject N name (.member (.native (utf8 "join")) (.str self)) s [([], e)]
      = (do
          let seq ← validateType (strJoin (H := H)).sig (fun _ => evalOperand s none) s 1 e
          let strs ← asStringList (utf8 "seq") seq
          pure (.str (joinBytes self strs))) := by
        simp [callObject, call, hN, callNative, strJoin, passNative, nativeDefaults,
          Signature.bound]
        rfl
    _ = x >>= joinList self := by
        simp only [hval, he, bind_assoc, pure_bind]
        rfl

theorem asStrings_map_str (name : Bytes) (strs : List Bytes) :
    asStrings name (strs.map .str) = .ok strs := by
  induction strs with
  | nil => rfl
  | cons z _ ih =>
    rw [map_cons, asStrings, ih]
    rfl

theorem run_joinList {answer : Handler Answer (Store H) (List Closure) Bytes} {self : Bytes}
    {t : Slice} {st : Store H} {fs : List Closure} {strs : List Bytes}
    (h : t.contents st.arrays = strs.map .str) :
    (joinList self t).run answer (st, fs) = (.ok (.str (joinBytes self strs)), st, fs) := by
  have hread : asStrings (utf8 "seq") (t.contents st.arrays) = .ok strs := by
    rw [h, asStrings_map_str]
  rw [joinList, run_bind, asStringList, run_readOr_ok hread]
  rfl

/-! ## Both evaluations -/

/-- The same state, but for arrays that have been allocated last. -/
def MoreArrays (x y : Store H × List Closure) : Prop :=
  ∃ arrs, x = ({ y.1 with arrays := y.1.arrays ++ arrs }, y.2)

theorem moreArrays_refl (x : Store H × List Closure) : MoreArrays x x := ⟨[], by rw [append_nil]⟩

section both

variable {answer : Handler Answer (Store H) (List Closure) Bytes} {s : ℕ}
  {state : Store H × List Closure} {l : ListDen H}

theorem listValue_of_ne (h : l ≠ ⟨[], none⟩) (s : ℕ) : listValue R l s = interpretList R l s := by
  obtain ⟨values, comprehension⟩ := l
  cases comprehension with
  | some => rfl
  | none =>
    cases values with
    | nil => exact absurd rfl h
    | cons => rfl

/-- The list that is made, and what is written for it. -/
theorem listValue_joined (hl : l.WellFormed) (h : Joinable R l answer s state) (base : Bytes) :
    Outcome.Rel
        (fun t b => Joined base (t.contents ((listValue R l s).run answer state).2.1.arrays) b)
        ((listValue R l s).run answer state).1 ((joinItems base l s).run answer state).1 ∧
      MoreArrays ((listValue R l s).run answer state).2
        ((joinItems base l s).run answer state).2 := by
  by_cases hempty : l = ⟨[], none⟩
  · subst hempty
    exact ⟨.ok ⟨[], by simp [contents, emptyList], rfl⟩, moreArrays_refl _⟩
  · rw [listValue_of_ne hempty, interpretList, run_bind]
    have halike := joinItems_alike hl h base
    generalize (listItems R l s).run answer state = x at halike ⊢
    generalize (joinItems base l s).run answer state = y at halike ⊢
    obtain ⟨o, st, fs⟩ := x
    obtain ⟨o', st', fs'⟩ := y
    obtain ⟨ho, rfl, rfl⟩ : Outcome.Rel _ o o' ∧ st = st' ∧ fs = fs' := halike
    cases ho with
    | error e => exact ⟨.error e, moreArrays_refl _⟩
    | diverged => exact ⟨.diverged, moreArrays_refl _⟩
    | @ok items b hitems =>
      refine ⟨.ok ?_, [_], rfl⟩
      show Joined base ((alloc st.arrays items.1 items.2).1.contents
        (alloc st.arrays items.1 items.2).2) b
      rw [contents_alloc]
      exact hitems

/-- The method for the list that is made gives what is written. -/
theorem run_listValue_joinList (hl : l.WellFormed) (h : Joinable R l answer s state)
    (base : Bytes) :
    ((listValue R l s >>= joinList base).run answer state).1 =
        ((interpretJoin base l s).run answer state).1 ∧
      MoreArrays ((listValue R l s >>= joinList base).run answer state).2
        ((interpretJoin base l s).run answer state).2 := by
  rw [interpretJoin, run_bind, run_bind]
  obtain ⟨ho, hstate⟩ := listValue_joined hl h base
  generalize (listValue R l s).run answer state = x at ho hstate ⊢
  generalize (joinItems base l s).run answer state = y at ho hstate ⊢
  obtain ⟨o, st, fs⟩ := x
  obtain ⟨o', state'⟩ := y
  cases ho with
  | error e | diverged => exact ⟨rfl, hstate⟩
  | ok hjoined =>
    obtain ⟨strs, hcontents, rfl⟩ := hjoined
    rw [andThen, run_joinList hcontents, ← getD_written]
    exact ⟨rfl, hstate⟩

end both

variable (N)

/-- The nodes of a list literal as the parser makes it. -/
def WellFormedList : Node Ann .list → Prop
  | .list values comprehension => comprehension.isAbsent ∨ values.toList.length = 1

theorem wellFormed_denote (h : WellFormedList l) :
    ListDen.WellFormed (denote R N l : ListDen H) := by
  cases l with
  | list =>
    obtain h | h := h
    · rw [Node.eq_absent_of_isAbsent h]
      exact .inl rfl
    · obtain ⟨e, he⟩ := length_eq_one_iff.mp h
      rw [Node.eq_singleton_of_toList he]
      exact .inr ⟨_, rfl⟩

theorem denote_joinNode (ann : Ann) (endPos : Option Ann) (base : Bytes)
    (l : Node Ann .list) (s : ℕ) :
    denote R N (joinNode ann endPos base l) s =
      (interpretJoin (stringLiteral base) (denote R N l) s : P H Obj) := rfl

/-- The method of a string literal with a list literal. -/
theorem interpretIdent_join (hN : N (utf8 "join") = some strJoin) {property : Node Ann .identExpr}
    (h : IsJoinOf l property) (self : Bytes) (s : ℕ) :
    (denote R N property : IdentDen H).name = utf8 "join" ∧
    interpretIdent (denote R N property) s (.member (.native (utf8 "join")) (.str self)) =
      listValue R (denote R N l) s >>= joinList self := by
  obtain ⟨p, q, pos, ann, endPos, hann, rfl⟩ := h
  refine ⟨rfl, ?_⟩
  have harg : interpretExpression R N ann.optimised
      ⟨.list (denote R N l), [], none, none⟩ [] none s =
      (do let t ← listValue R (denote R N l) s; pure (.list t)) := by
    rw [hann, interpretExpression_value, interpretValueExpression_literal]
    rfl
  exact (interpretIdent_call N (utf8 "join") _ s _).trans (callObject_join hN _ self harg)

/-- If nothing follows the literals of a join, and its list may be joined where it is evaluated, the
node that the optimiser puts in its place gives the same string, or fails in the same way, and
leaves the same state but for the array of the list. -/
theorem interpretJoin_eq_strJoin (hjoin : HasJoin R N) {e e' : Syntax.Expression Ann} {base : Bytes}
    {l : Node Ann .list} (hspot : spotJoin e = some (base, l)) (hmark : markJoin e = some e')
    (hbare : isBareJoin e) (hl : WellFormedList l) (n s : ℕ) (state : Store H × List Closure)
    (h : Joinable R (denote R N l) (answer R N n) s state) :
    ((denote R N e s : P H Obj).run (answer R N n) state).1 =
        ((denote R N e' s : P H Obj).run (answer R N n) state).1 ∧
      MoreArrays ((denote R N e s : P H Obj).run (answer R N n) state).2
        ((denote R N e' s : P H Obj).run (answer R N n) state).2 := by
  obtain ⟨ann, endPos, call, ident, hann, hjoinOf, rfl⟩ := exists_of_spotJoin hspot hbare
  obtain rfl : joinNode ann endPos base l = e' := by
    rw [markJoin, hspot] at hmark
    exact Option.some.inj hmark
  obtain ⟨hname, hident⟩ := interpretIdent_join (R := R) N hjoin.native hjoinOf
    (stringLiteral base) s
  have hread : property R (.str (stringLiteral base)) (utf8 "join") state.1 =
      .ok (.member (.native (utf8 "join")) (.str (stringLiteral base))) := by
    simp only [property, hjoin.stringMethods]
  -- the call of the method, after the lookup that changes nothing
  have hcall : (denote R N (.expression ann endPos (.valueExpression (.string base) .nil
      (.present ident) call) .nil .absent) s : P H Obj).run (answer R N n) state =
      (listValue R (denote R N l) s >>= joinList (stringLiteral base)).run
        (answer R N n) state := by
    have hval (ident : IdentDen H) (args : Option (Args H)) (hname : ident.name = utf8 "join") :
        (interpretExpression R N ann.optimised ⟨.exp fun _ => pure (.str (stringLiteral base)), [],
          some ident, args⟩ [] none s).run (answer R N n) state =
        (interpretIdent ident s (.member (.native (utf8 "join")) (.str (stringLiteral base)))).run
          (answer R N n) state := by
      rw [hann, interpretExpression_value, interpretValueExpression_property, run_bind, hname,
        run_readOr_ok hread]
      rfl
    rw [← hident]
    exact hval _ _ hname
  rw [denote_joinNode, hcall]
  exact run_listValue_joinList (wellFormed_denote N hl) h (stringLiteral base)

/-- A runtime whose strings have the method. -/
def joinRuntime : Runtime Unit :=
  { Runtime.bare Unit with
    stringMethods := fun name => if name = utf8 "join" then some (.native (utf8 "join")) else none }

/-- The only native function is the method. -/
def joinNatives : Natives Unit := fun _ => some strJoin

/-- A scope without variables. -/
def emptyScope : Store Unit where
  arrays := []
  dicts := []
  configs := []
  scopes := [⟨none, [], .none, utf8 "BUILD", [], false⟩]
  host := ()

/-- A string literal. -/
def stringAt (pos : ℕ) (s : Bytes) : Syntax.Expression Ann :=
  .expression ⟨pos, none⟩ none (.valueExpression (.string s) .nil .absent .absent) .nil .absent

/-- `['a', 'b']`. -/
def letters : Node Ann .list :=
  .list (.cons (stringAt 10 (utf8 "'a'")) (.cons (stringAt 15 (utf8 "'b'")) .nil)) .absent

/-- `','.join(['a', 'b'])`. -/
def joinOfLetters : Syntax.Expression Ann :=
  .expression ⟨0, none⟩ none (.valueExpression (.string (utf8 "','")) .nil
    (.present (.identExpr ⟨4, none⟩ ⟨20, none⟩ (utf8 "join") (.cons (.callAction (.call (.cons
      (.callArgument none [] (.expression ⟨9, none⟩ none
        (.valueExpression (.listLiteral letters) .nil .absent .absent) .nil .absent))
          .nil))) .nil)))
    .absent) .nil .absent

theorem interpretJoin_eq_strJoin_letters :
    spotJoin joinOfLetters = some (utf8 "','", letters) ∧ isBareJoin joinOfLetters ∧
      ((denote joinRuntime joinNatives joinOfLetters 0 : P Unit Obj).run
          (answer joinRuntime joinNatives 1) (emptyScope, [])).1 =
        ((denote joinRuntime joinNatives (joinNode ⟨0, none⟩ none (utf8 "','") letters) 0 :
          P Unit Obj).run (answer joinRuntime joinNatives 1) (emptyScope, [])).1 := by
  have hjoin : HasJoin joinRuntime joinNatives := ⟨by decide, rfl⟩
  have hletters : Joinable joinRuntime (denote joinRuntime joinNatives letters)
      (answer joinRuntime joinNatives 1) 0 (emptyScope, []) := by
    refine ⟨fun comp cs it state' hcomp => ?_, fun m => rfl⟩
    cases hcomp
  have hlist : WellFormedList letters := .inl rfl
  exact ⟨rfl, rfl, (interpretJoin_eq_strJoin joinNatives hjoin rfl rfl rfl hlist 1 0 _ hletters).1⟩

/-- The value of a variable after a program. -/
def valueOf (name : Bytes) (p : List (Syntax.Statement Ann)) : Except Bytes Obj :=
  (runStatements joinRuntime joinNatives 1 p 0 (emptyScope, [])).2.1.lookup 0 name

/-- A slice of the list is lost. -/
theorem slice_of_join_lost :
    (@parseText Utf8.Unicode.ascii 60 (utf8 "x = ','.join(['a', 'b'][1:])\n")).map
      (fun p => (valueOf (utf8 "x") p, valueOf (utf8 "x") (optimise p))) =
        .ok (.ok (.str (utf8 "b")), .ok (.str (utf8 "a,b"))) := by
  decide +kernel

end Please.Asp.Interp
