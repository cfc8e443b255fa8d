import Mathlib.Logic.Relation
import Please.Asp.ListValues

/-!
# Lists keep their contents

The language has no way to change a list but index assignment: `+` returns a new list, and
`x += y` is `x = x + y`. Two sums with the same left operand must not share elements, so
`pyList.Operator` clips the capacity of the sum that it returns
(`src/parse/asp/objects.go`, line 362).

It does not clip its left operand. A list that was sliced, or a comprehension that left
elements out or had to grow, has spare capacity, and `append` writes the right operand there:
into the rest of the list that was sliced, or over the elements of an earlier sum
(`sums_overwrite_lists`).

* `lists_persistent`: in every run, lists keep their contents from any state on as long as no
  addition finds spare capacity for its right operand.
-/

namespace Please.Asp.Lists

open Please.Lib Please.Lib.Traced Please.Lib.Slice List Scope State

/-! ## Valid objects -/

/-- A list lies within its array. -/
def Obj.Valid (h : Heap Obj) : Obj → Prop
  | .list l => Slice.Valid h l
  | _ => True

/-- The objects of a heap are valid. -/
def HeapValid (h : Heap Obj) : Prop := ∀ o ∈ h.flatten, o.Valid h

/-- The objects of a scope are valid. -/
structure Scope.Valid (h : Heap Obj) (s : Scope) : Prop where
  locals : ∀ nv ∈ s.locals, nv.2.Valid h
  constants : ∀ o ∈ s.constants, o.Valid h

section valid

variable {h h' : Heap Obj} {o : Obj}

theorem Obj.Valid.mono (ho : o.Valid h) (hgrows : Grows h h') : o.Valid h' := by
  cases o with
  | list => exact Slice.Valid.mono ho hgrows
  | scalar | none => trivial

theorem Scope.Valid.mono {s : Scope} (hs : s.Valid h) (hgrows : Grows h h') : s.Valid h' :=
  ⟨fun nv hnv => (hs.locals nv hnv).mono hgrows, fun o ho => (hs.constants o ho).mono hgrows⟩

theorem Scope.Valid.set {s : Scope} (hs : s.Valid h) (ho : o.Valid h) (name : String) :
    (s.set name o).Valid h :=
  ⟨forall_mem_cons.mpr ⟨ho, hs.locals⟩, hs.constants⟩

theorem Scope.Valid.lookup {s : Scope} (hs : s.Valid h) {name : String}
    (ho : s.lookup name = .ok o) : o.Valid h := by
  unfold Scope.lookup at ho
  split at ho
  · rename_i hobj
    cases ho
    obtain ⟨l₁, l₂, hlocals, -⟩ := lookup_eq_some_iff.mp hobj
    exact hs.locals (name, o) (by simp [hlocals])
  · cases ho

theorem HeapValid.contents (hh : HeapValid h) {l : Slice} (ho : o ∈ l.contents h) : o.Valid h :=
  hh o (mem_of_mem_contents ho)

end valid

/-! ## What evaluation does to the heap -/

variable {R : Runtime} {α β : Type} {p : Addition → Prop} {h h' h₀ h₁ h₂ : Heap Obj} {s : Scope}

/-- An addition that moves the left list to a new array. -/
def Moves (a : Addition) : Prop := ¬ a.InPlace

/-- What holds of the heap after an evaluation with additions in `p`: the arrays are there and
lists lie within them, and if the additions move, the arrays have not changed. -/
structure Extends (p : Addition → Prop) (h h' : Heap Obj) : Prop where
  grows : Grows h h'
  valid : HeapValid h'
  frame : (∀ a, p a → Moves a) → h <+: h'

theorem Extends.refl (hh : HeapValid h) : Extends p h h := ⟨.refl h, hh, fun _ => prefix_refl h⟩

theorem Extends.trans (h₁₂ : Extends p h h₁) (h₂₃ : Extends p h₁ h₂) : Extends p h h₂ :=
  ⟨h₁₂.grows.trans h₂₃.grows, h₂₃.valid, fun hp => (h₁₂.frame hp).trans (h₂₃.frame hp)⟩

theorem Extends.alloc (hh : HeapValid h) {xs : List Obj} (hxs : ∀ o ∈ xs, o.Valid h) (room : ℕ) :
    Extends p h (alloc h xs room).2 := by
  have hpre := prefix_alloc h xs room
  refine ⟨.of_isPrefix hpre, fun o ho => ?_, fun _ => hpre⟩
  rcases mem_alloc ho with ho | ho | rfl
  · exact (hh o ho).mono (.of_isPrefix hpre)
  · exact (hxs o ho).mono (.of_isPrefix hpre)
  · trivial

/-- The heap and the value after an evaluation. -/
def Post (p : Addition → Prop) (h : Heap Obj) (r : Obj × Heap Obj) : Prop :=
  Extends p h r.2 ∧ r.1.Valid r.2

theorem Post.trans {r : Obj × Heap Obj} (h₁₂ : Extends p h h₁) (hr : Post p h₁ r) : Post p h r :=
  ⟨h₁₂.trans hr.1, hr.2⟩

/-- In a valid scope, the expression returns a valid value in an extended heap. -/
def Sound (p : Addition → Prop) (e : Interp) : Prop :=
  ∀ s h, s.Valid h → HeapValid h → Ensures p (e s h) (Post p h)

theorem Sound.bind {e : Interp} (he : Sound p e) (hs : s.Valid h) (hh : HeapValid h)
    {f : Obj × Heap Obj → Eval β} {Q : β → Prop}
    (hf : ∀ obj h₁, Extends p h h₁ → obj.Valid h₁ → Ensures p (f (obj, h₁)) Q) :
    Ensures p (e s h >>= f) Q :=
  (he s h hs hh).bind fun r hr => hf r.1 r.2 hr.1 hr.2

theorem ensures_raise {msg : String} {Q : α → Prop} : Ensures p (raise msg : Eval α) Q :=
  ensures_mk_nil fun _ ha => nomatch ha

theorem ensures_ofExcept_bind {r : Except String α} {f : α → Eval β} {Q : β → Prop}
    (hf : ∀ a, r = .ok a → Ensures p (f a) Q) : Ensures p (ofExcept r >>= f) Q :=
  (ensures_mk_nil fun _ ha => ha).bind hf

theorem ensures_scalar (hh : HeapValid h) (r : Except String β) (f : β → Value) :
    Ensures p (do let b ← ofExcept r; pure (.scalar (f b), h)) (Post p h) :=
  ensures_ofExcept_bind fun _ _ => ensures_pure ⟨.refl hh, trivial⟩

/-! ## Operators -/

theorem ensures_pyListAdd (hh : HeapValid h) {l l2 : Slice} (hl : l.Valid h) (hl2 : l2.Valid h) :
    Ensures p (pyListAdd R h l l2) (Post p h) := by
  refine ensures_perform fun hp r hr => ?_
  cases hr
  have hgrows : Grows h (append R.growth h l (l2.contents h)).2 := grows_append hl
  refine ⟨⟨hgrows, fun o ho => ?_, fun hmoves => ?_⟩, (valid_append hl).clip⟩
  · rcases mem_append ho with ho | ho | rfl
    · exact (hh o ho).mono hgrows
    · exact (hh.contents ho).mono hgrows
    · trivial
  · refine prefix_append fun hne hroom => hmoves _ hp ?_
    rw [hl2.length_contents] at hroom
    exact ⟨by rw [← hl2.length_contents]; exact length_pos_iff.mpr hne, hroom⟩

theorem ensures_pyListRepeat (hh : HeapValid h) (l : Slice) (n : Int64) :
    Ensures p (pyListRepeat h l n) (Post p h) := by
  unfold pyListRepeat
  split_ifs
  · exact ensures_raise
  · refine ensures_pure ⟨.alloc hh (fun o ho => ?_) 0, valid_alloc _ _ _⟩
    obtain ⟨xs, hxs, ho⟩ := mem_flatten.mp ho
    rw [eq_of_mem_replicate hxs] at ho
    exact hh.contents ho

theorem ensures_operator (hh : HeapValid h) {obj operand : Obj} (hobj : obj.Valid h)
    (hoperand : operand.Valid h) (op : Operator) :
    Ensures p (operator R op obj operand h) (Post p h) := by
  unfold operator
  split
  · exact ensures_pyListAdd hh hobj hoperand
  · exact ensures_raise
  · exact ensures_scalar hh _ _
  · exact ensures_scalar hh _ _
  · exact ensures_pyListRepeat hh _ _
  · exact ensures_pyListRepeat hh _ _
  · exact ensures_scalar hh _ _
  · exact ensures_scalar hh _ _

theorem ensures_operatorIndex (hh : HeapValid h) (obj index : Obj) :
    Ensures p (operatorIndex obj index h) (Post p h) := by
  unfold operatorIndex
  split
  · refine ensures_ofExcept_bind fun i _ => ?_
    split
    · rename_i item hitem
      split_ifs at hitem
      exact ensures_pure ⟨.refl hh, hh.contents (mem_of_getElem? hitem)⟩
    · exact ensures_raise
  · refine ensures_ofExcept_bind fun i _ => ?_
    split
    · exact ensures_pure ⟨.refl hh, trivial⟩
    · exact ensures_raise
  · split <;> exact ensures_raise
  · exact ensures_raise

theorem valid_interpretIs (obj operand : Obj) : (interpretIs obj operand).Valid h := by
  unfold interpretIs
  split <;> trivial

theorem ensures_interpretEqual (hh : HeapValid h) (op : Operator) (obj operand : Obj) :
    Ensures p (interpretEqual R op obj operand h) (Post p h) := by
  unfold interpretEqual
  split
  · exact ensures_pure ⟨.refl hh, trivial⟩
  · exact ensures_scalar hh _ _

namespace Sound

theorem interpretOp {op : Operator} {left right : Interp} (hl : Sound p left)
    (hr : Sound p right) : Sound p (interpretOp R op left right) := by
  intro s h hs hh
  refine hl.bind hs hh fun obj h₁ hext hobj => ?_
  have hs₁ := hs.mono hext.grows
  have hright : Ensures p (right s h₁) (Post p h) :=
    (hr s h₁ hs₁ hext.valid).mono fun _ hr => hr.trans hext
  have hoperand : ∀ {f : Obj × Heap Obj → Eval (Obj × Heap Obj)},
      (∀ operand h₂, Extends p h h₂ → obj.Valid h₂ → operand.Valid h₂ →
        Ensures p (f (operand, h₂)) (Post p h₂)) → Ensures p (right s h₁ >>= f) (Post p h) := by
    intro f hf
    refine hr.bind hs₁ hext.valid fun operand h₂ hext₂ hoperand => ?_
    refine (hf operand h₂ (hext.trans hext₂) (hobj.mono hext₂.grows) hoperand).mono fun _ hr => ?_
    exact hr.trans (hext.trans hext₂)
  dsimp only
  split
  · split_ifs
    · exact hright
    · exact ensures_pure ⟨hext, hobj⟩
  · split_ifs
    · exact ensures_pure ⟨hext, hobj⟩
    · exact hright
  · exact hoperand fun operand h₂ hext₂ _ _ =>
      ensures_pure ⟨.refl hext₂.valid, valid_interpretIs obj operand⟩
  · exact hoperand fun operand h₂ hext₂ _ _ => ensures_pure ⟨.refl hext₂.valid, trivial⟩
  case h_5 | h_6 =>
    exact hoperand fun operand h₂ hext₂ _ _ => ensures_interpretEqual hext₂.valid _ _ _
  case h_7 | h_8 =>
    exact hoperand fun operand h₂ hext₂ ho ho' => ensures_operator hext₂.valid ho' ho _
  · exact hoperand fun operand h₂ hext₂ ho ho' => ensures_operator hext₂.valid ho ho' _

theorem interpretUnary {op : Operator} {e : Interp} (he : Sound p e) :
    Sound p (interpretUnary op e) := by
  intro s h hs hh
  refine he.bind hs hh fun obj h₁ hext hobj => ?_
  dsimp only
  split
  · exact ensures_pure ⟨hext, trivial⟩
  · exact ensures_pure ⟨hext, trivial⟩
  · exact ensures_raise

theorem interpretIf {cond e e' : Interp} (hcond : Sound p cond) (he : Sound p e)
    (he' : Sound p e') : Sound p (interpretIf cond e e') := by
  intro s h hs hh
  refine hcond.bind hs hh fun c h₁ hext _ => ?_
  have hs₁ := hs.mono hext.grows
  dsimp only
  split_ifs
  · exact (he s h₁ hs₁ hext.valid).mono fun _ hr => hr.trans hext
  · exact (he' s h₁ hs₁ hext.valid).mono fun _ hr => hr.trans hext

theorem interpretLocal (name : String) : Sound p (interpretLocal name) :=
  fun _ _ hs hh => ensures_ofExcept_bind fun _ ho => ensures_pure ⟨.refl hh, hs.lookup ho⟩

theorem interpretConstant (i : ℕ) : Sound p (interpretConstant i) := by
  intro s h hs hh
  unfold Lists.interpretConstant
  split
  · rename_i obj hobj
    exact ensures_pure ⟨.refl hh, hs.constants obj (mem_of_getElem? hobj)⟩
  · exact ensures_raise

theorem interpretIndex {e e' : Interp} (he : Sound p e) (he' : Sound p e') :
    Sound p (interpretIndex e e') := by
  intro s h hs hh
  refine he.bind hs hh fun obj h₁ hext _ => ?_
  refine he'.bind (hs.mono hext.grows) hext.valid fun i h₂ hext₂ _ => ?_
  exact (ensures_operatorIndex hext₂.valid obj i).mono fun _ hr => hr.trans (hext.trans hext₂)

/-- The expressions that a construct may leave out. -/
theorem interpretSliceExpression {expr : Option Interp} (hexpr : ∀ e ∈ expr, Sound p e)
    (hs : s.Valid h) (hh : HeapValid h) (obj : Obj) (default : ℤ) :
    Ensures p (interpretSliceExpression obj expr default s h) fun r => Extends p h r.2 := by
  cases expr with
  | none => exact ensures_pure (.refl hh)
  | some e =>
    refine (hexpr e rfl).bind hs hh fun i h₁ hext _ => ?_
    exact ensures_ofExcept_bind fun _ _ => ensures_pure hext

theorem interpretSlice {e : Interp} {start stop : Option Interp} (he : Sound p e)
    (hstart : ∀ e ∈ start, Sound p e) (hstop : ∀ e ∈ stop, Sound p e) :
    Sound p (interpretSlice R e start stop) := by
  intro s h hs hh
  refine he.bind hs hh fun obj h₁ hext hobj => ?_
  have hs₁ := hs.mono hext.grows
  refine (interpretSliceExpression hstart hs₁ hext.valid obj 0).bind ?_
  rintro ⟨first, h₂⟩ hext₂
  have hs₂ := hs₁.mono hext₂.grows
  dsimp only
  split
  · rename_i t
    refine (interpretSliceExpression hstop hs₂ hext₂.valid _ _).bind ?_
    rintro ⟨last, h₃⟩ hext₃
    refine ensures_ofExcept_bind fun l hl => ensures_pure ⟨(hext.trans hext₂).trans hext₃, ?_⟩
    have ht : t.Valid h₃ := .mono hobj (hext₂.trans hext₃).grows
    unfold goSlice at hl
    split_ifs at hl with hbounds
    cases hl
    exact ht.reslice (by omega) (by omega)
  · refine (interpretSliceExpression hstop hs₂ hext₂.valid _ _).bind ?_
    rintro ⟨last, h₃⟩ hext₃
    exact ensures_ofExcept_bind fun _ _ => ensures_pure ⟨(hext.trans hext₂).trans hext₃, trivial⟩
  · exact ensures_raise

end Sound

/-! ## Lists and comprehensions -/

theorem ensures_evaluateExpressions {es : List Interp} (hes : ∀ e ∈ es, Sound p e)
    (hs : s.Valid h) (hh : HeapValid h) :
    Ensures p (evaluateExpressions es s h) fun r => Extends p h r.2 ∧ ∀ o ∈ r.1, o.Valid r.2 := by
  induction es generalizing h with
  | nil => exact ensures_pure ⟨.refl hh, forall_mem_nil _⟩
  | cons e es ih =>
    obtain ⟨he, hes⟩ := forall_mem_cons.mp hes
    refine he.bind hs hh fun obj h₁ hext hobj => ?_
    refine (ih hes (hs.mono hext.grows) hext.valid).bind ?_
    rintro ⟨objs, h₂⟩ ⟨hext₂, hobjs⟩
    exact ensures_pure ⟨hext.trans hext₂, forall_mem_cons.mpr ⟨hobj.mono hext₂.grows, hobjs⟩⟩

theorem Sound.interpretValues {values : List Interp} (hvalues : ∀ e ∈ values, Sound p e) :
    Sound p (interpretValues values) := by
  intro s h hs hh
  refine (ensures_evaluateExpressions hvalues hs hh).bind ?_
  rintro ⟨objs, h₁⟩ ⟨hext, hobjs⟩
  exact ensures_pure ⟨hext.trans (.alloc hext.valid hobjs 0), valid_alloc _ _ _⟩

theorem valid_unpackNames {names : List String} {obj : Obj} {s' : Scope} (hs : s.Valid h)
    (hh : HeapValid h) (hobj : obj.Valid h) (hunpack : unpackNames names obj s h = .ok s') :
    s'.Valid h := by
  have hall : ∀ (nvs : List (String × Obj)) (s : Scope), s.Valid h →
      (∀ nv ∈ nvs, nv.2.Valid h) → (setAll s nvs).Valid h := by
    intro nvs
    induction nvs with
    | nil => exact fun s hs _ => hs
    | cons nv _ ih =>
      intro s hs hnvs
      obtain ⟨hnv, hnvs⟩ := forall_mem_cons.mp hnvs
      exact ih _ (hs.set hnv nv.1) hnvs
  unfold unpackNames at hunpack
  split at hunpack
  · cases hunpack
    exact hs.set hobj _
  · split at hunpack
    · split_ifs at hunpack
      cases hunpack
      exact hall _ s hs fun nv hnv => hh.contents (of_mem_zip hnv).2
    · cases hunpack

/-- The rule for loops over a list. -/
theorem ensures_forRange {σ : Type} {l : Slice} {body : Obj → σ → Heap Obj → Eval (σ × Heap Obj)}
    {I : σ × Heap Obj → Prop}
    (hbody : ∀ i st h, I (st, h) → Ensures p (body ((l.contents h).getD i default) st h) I)
    (n i : ℕ) {st : σ} (hI : I (st, h)) : Ensures p (forRange l body n i st h) I := by
  induction n generalizing i st h with
  | zero => exact ensures_pure hI
  | succ n ih =>
    refine (hbody i st h hI).bind ?_
    rintro ⟨st', h'⟩ hI'
    exact ih (i + 1) hI'

/-- What holds between two items of a comprehension that began in `h₀`: the result lies in an
array of its own. -/
structure Collecting (p : Addition → Prop) (h₀ : Heap Obj) (r : (Scope × Slice) × Heap Obj) :
    Prop where
  scope : r.1.1.Valid r.2
  ret : r.1.2.Valid r.2
  own : h₀.length ≤ r.1.2.array
  ext : Extends p h₀ r.2

namespace Collecting

variable {ret : Slice}

theorem extend (hc : Collecting p h₀ ((s, ret), h)) (hext : Extends p h h₁) :
    Collecting p h₀ ((s, ret), h₁) :=
  ⟨hc.scope.mono hext.grows, .mono hc.ret hext.grows, hc.own, hc.ext.trans hext⟩

/-- An item is appended in the array of the result, or in a new one. -/
theorem append (hc : Collecting p h₀ ((s, ret), h)) {o : Obj} (ho : o.Valid h) (G : Growth) :
    Collecting p h₀ ((s, (Slice.append G h ret [o]).1), (Slice.append G h ret [o]).2) := by
  have hgrows : Grows h (Slice.append G h ret [o]).2 := grows_append hc.ret
  refine ⟨hc.scope.mono hgrows, valid_append hc.ret,
    le_array_append hc.own hc.ext.grows.length_le, hc.ext.grows.trans hgrows, ?_, ?_⟩
  · intro x hx
    rcases mem_append hx with hx | hx | rfl
    · exact (hc.ext.valid x hx).mono hgrows
    · rw [mem_singleton.mp hx]
      exact ho.mono hgrows
    · trivial
  · exact fun hp => prefix_append_of_le (hc.ext.frame hp) hc.own

theorem unpack (hc : Collecting p h₀ ((s, ret), h)) {names : List String} {li : Obj} {s' : Scope}
    (hli : li.Valid h) (hs' : unpackNames names li s h = .ok s') :
    Collecting p h₀ ((s', ret), h) :=
  ⟨valid_unpackNames hc.scope hc.ext.valid hli hs', hc.ret, hc.own, hc.ext⟩

end Collecting

theorem HeapValid.getD (hh : HeapValid h) (l : Slice) (i : ℕ) :
    ((l.contents h).getD i default).Valid h :=
  Slice.forall_mem_getD (fun _ => hh.contents) (by trivial) i

section comprehension

variable {values : List Interp} (hvalues : ∀ e ∈ values, Sound p e)
include hvalues

theorem ensures_appendItem {ret : Slice} (hc : Collecting p h₀ ((s, ret), h)) :
    Ensures p (appendItem R values s ret h) fun r => Collecting p h₀ ((s, r.1), r.2) := by
  refine (ensures_evaluateExpressions hvalues hc.scope hc.ext.valid).bind ?_
  rintro ⟨objs, h₁⟩ ⟨hext, hobjs⟩
  dsimp only
  split
  · exact ensures_pure ((hc.extend hext).append (hobjs _ (mem_singleton.mpr rfl)) _)
  · have halloc : Extends p h₁ (alloc h₁ objs 0).2 := .alloc hext.valid hobjs 0
    have hlist : Obj.Valid (alloc h₁ objs 0).2 (.list (alloc h₁ objs 0).1) := valid_alloc _ _ _
    exact ensures_pure (((hc.extend hext).extend halloc).append hlist _)

variable {comp : Comprehension} (hcond : ∀ e ∈ comp.cond, Sound p e)
include hcond

theorem ensures_comprehensionItem (names : List String) {li : Obj} {st : Scope × Slice}
    (hc : Collecting p h₀ (st, h)) (hli : li.Valid h) :
    Ensures p (comprehensionItem comp (appendItem R values) names li st h) (Collecting p h₀) := by
  obtain ⟨s, ret⟩ := st
  refine ensures_ofExcept_bind fun s' hs' => ?_
  have hc' := hc.unpack hli hs'
  split
  · refine (ensures_appendItem hvalues hc').bind ?_
    rintro ⟨ret', h'⟩ hc''
    exact ensures_pure hc''
  · rename_i cond hsome
    refine (hcond cond hsome).bind hc'.scope hc.ext.valid fun keep h₁ hext _ => ?_
    dsimp only
    split_ifs
    · refine (ensures_appendItem hvalues (hc'.extend hext)).bind ?_
      rintro ⟨ret', h'⟩ hc''
      exact ensures_pure hc''
    · exact ensures_pure (hc'.extend hext)

variable (hsecond : ∀ e ∈ comp.second, Sound p e.2)
include hsecond

theorem ensures_evaluateComprehension {it : Slice} {st : Scope × Slice}
    (hc : Collecting p h₀ (st, h)) :
    Ensures p (evaluateComprehension comp (appendItem R values) it st h) (Collecting p h₀) := by
  -- the loop over a list, also when it is the inner one
  have hloop : ∀ (names : List String) {it : Slice} {st : Scope × Slice} {h : Heap Obj},
      Collecting p h₀ (st, h) → Ensures p
        (forRange it (comprehensionItem comp (appendItem R values) names) it.len 0 st h)
        (Collecting p h₀) := fun names _ _ _ hc =>
    ensures_forRange (fun i st h hI =>
      ensures_comprehensionItem hvalues hcond names hI (hI.ext.valid.getD _ i)) _ _ hc
  unfold evaluateComprehension
  split
  · exact hloop comp.names hc
  · rename_i names expr hsome
    refine ensures_forRange (fun i st h hI => ?_) _ _ hc
    obtain ⟨s, ret⟩ := st
    refine ensures_ofExcept_bind fun s' hs' => ?_
    have hc' := hI.unpack (hI.ext.valid.getD _ i) hs'
    refine (hsecond _ hsome).bind hc'.scope hI.ext.valid fun obj h₁ hext _ => ?_
    exact ensures_ofExcept_bind fun _ _ => hloop names (hc'.extend hext)

theorem Sound.interpretComprehension (hexpr : Sound p comp.expr) :
    Sound p (interpretComprehension R values comp) := by
  intro s h hs hh
  refine hexpr.bind hs hh fun obj h₁ hext _ => ?_
  refine ensures_ofExcept_bind fun it _ => ?_
  have halloc : Extends p h₁ (alloc h₁ ([] : List Obj) it.len).2 :=
    .alloc hext.valid (forall_mem_nil _) _
  have hs₁ : s.Valid (alloc h₁ ([] : List Obj) it.len).2 := (hs.mono hext.grows).mono halloc.grows
  have hc : Collecting p h₁ ((s, (alloc h₁ [] it.len).1), (alloc h₁ [] it.len).2) :=
    ⟨hs₁, valid_alloc _ _ _, le_rfl, halloc⟩
  refine (ensures_evaluateComprehension hvalues hcond hsecond hc).bind ?_
  rintro ⟨⟨s', ret⟩, h₂⟩ hc₂
  exact ensures_pure ⟨hext.trans hc₂.ext, hc₂.ret⟩

end comprehension

/-! ## Every expression -/

mutual

theorem sound_interpretExpression : ∀ e : Expr, Sound p (interpretExpression R e)
  | .scalar _ | .none => fun _ _ _ hh => ensures_pure ⟨.refl hh, trivial⟩
  | .optimised i => .interpretConstant i
  | .ident name => .interpretLocal name
  | .list values => .interpretValues (sound_interpretExpressions values)
  | .comprehension values _ expr second cond =>
    .interpretComprehension (sound_interpretExpressions values) (sound_interpretOption cond)
      (sound_interpretSecond second) (sound_interpretExpression expr)
  | .slice obj start stop =>
    .interpretSlice (sound_interpretExpression obj) (sound_interpretOption start)
      (sound_interpretOption stop)
  | .index obj index =>
    .interpretIndex (sound_interpretExpression obj) (sound_interpretExpression index)
  | .op _ left right =>
    .interpretOp (sound_interpretExpression left) (sound_interpretExpression right)
  | .unary _ e => .interpretUnary (sound_interpretExpression e)
  | .ite cond e e' =>
    .interpretIf (sound_interpretExpression cond) (sound_interpretExpression e)
      (sound_interpretExpression e')

theorem sound_interpretExpressions : ∀ es : List Expr, ∀ e ∈ interpretExpressions R es, Sound p e
  | [] => forall_mem_nil _
  | e :: es => forall_mem_cons.mpr
    ⟨sound_interpretExpression e, sound_interpretExpressions es⟩

theorem sound_interpretOption : ∀ o : Option Expr, ∀ e ∈ interpretOption R o, Sound p e
  | none => fun _ he => absurd he (by simp [interpretOption])
  | some e => fun e' he' => by
    obtain rfl : interpretExpression R e = e' := by simpa [interpretOption] using he'
    exact sound_interpretExpression e

theorem sound_interpretSecond : ∀ o : Option (List String × Expr),
    ∀ e ∈ interpretSecond R o, Sound p e.2
  | none => fun _ he => absurd he (by simp [interpretSecond])
  | some (names, e) => fun e' he' => by
    obtain rfl : (names, interpretExpression R e) = e' := by simpa [interpretSecond] using he'
    exact sound_interpretExpression e

end

/-! ## Runs -/

structure State.Valid (st : State) : Prop where
  scope : st.scope.Valid st.heap
  heap : HeapValid st.heap

theorem Scope.lookup_set_of_ne {name y : String} (hy : y ≠ name) (s : Scope) (o : Obj) :
    (s.set name o).lookup y = s.lookup y := by
  have hne : (y == name) = false := by simpa using hy
  simp [lookup, set, lookup_cons, hne]

theorem Scope.lookup_set (name : String) (s : Scope) (o : Obj) :
    (s.set name o).lookup name = .ok o := by
  simp [lookup, set]

variable {st : State}

theorem ensures_interpretStatement (hst : st.Valid) (stmt : Statement) :
    Ensures p (interpretStatement R st stmt) fun st' =>
      Extends p st.heap st'.heap ∧ st'.Valid ∧
        ∀ y ≠ stmt.name, st'.scope.lookup y = st.scope.lookup y := by
  have hset : ∀ {name : String} {o : Obj} {h : Heap Obj}, Extends p st.heap h → o.Valid h →
      Extends p st.heap (⟨st.scope.set name o, h⟩ : State).heap ∧
        (⟨st.scope.set name o, h⟩ : State).Valid ∧
          ∀ y ≠ name, (st.scope.set name o).lookup y = st.scope.lookup y :=
    fun hext ho => ⟨hext, ⟨(hst.scope.mono hext.grows).set ho _, hext.valid⟩,
      fun y hy => lookup_set_of_ne hy _ _⟩
  cases stmt with
  | assign _ e =>
    refine (sound_interpretExpression e).bind hst.scope hst.heap fun obj h hext hobj => ?_
    exact ensures_pure (hset hext hobj)
  | augAssign _ e =>
    refine ensures_ofExcept_bind fun x hx => ?_
    refine (sound_interpretExpression e).bind hst.scope hst.heap fun y h hext hy => ?_
    have hx' : x.Valid h := (hst.scope.lookup hx).mono hext.grows
    refine (ensures_operator hext.valid hx' hy .add).bind ?_
    rintro ⟨obj, h'⟩ ⟨hext', hobj⟩
    exact ensures_pure (hset (hext.trans hext') hobj)

theorem ensures_interpretStatements (hst : st.Valid) (stmts : List Statement) :
    Ensures p (interpretStatements R st stmts) fun st' =>
      Extends p st.heap st'.heap ∧ st'.Valid ∧
        ∀ y ∉ stmts.map Statement.name, st'.scope.lookup y = st.scope.lookup y := by
  induction stmts generalizing st with
  | nil => exact ensures_pure ⟨.refl hst.heap, hst, fun _ _ => rfl⟩
  | cons stmt _ ih =>
    refine (ensures_interpretStatement hst stmt).bind ?_
    rintro st₁ ⟨hext, hst₁, hlookup⟩
    refine (ih hst₁).mono ?_
    rintro st₂ ⟨hext₂, hst₂, hlookup₂⟩
    refine ⟨hext.trans hext₂, hst₂, fun y hy => ?_⟩
    rw [map_cons, mem_cons, not_or] at hy
    obtain ⟨hne, hnot⟩ := hy
    rw [hlookup₂ y hnot, hlookup y hne]

/-- `Item h o o'`: `o` is a list and `o'` one of its elements. -/
def Item (h : Heap Obj) (o o' : Obj) : Prop := ∃ l, o = .list l ∧ o' ∈ l.contents h

/-- The list is the value of the variable, or lies in it. -/
def State.Binds (st : State) (y : String) (l : Slice) : Prop :=
  ∃ o, st.scope.lookup y = .ok o ∧ Relation.ReflTransGen (Item st.heap) o (.list l)

theorem State.Valid.binds (hst : st.Valid) {y : String} {l : Slice}
    (hl : st.Binds y l) : Slice.Valid st.heap l := by
  obtain ⟨o, ho, hpath⟩ := hl
  suffices h : ∀ o', Relation.ReflTransGen (Item st.heap) o o' → o'.Valid st.heap from h _ hpath
  intro o' hpath
  induction hpath with
  | refl => exact hst.scope.lookup ho
  | tail _ hitem =>
    obtain ⟨l, rfl, hmem⟩ := hitem
    exact hst.heap.contents hmem

/-- The sum of two lists, right after it has been assigned. -/
theorem contents_sum {st' : State} {r base x : String} {lb lx : Slice} (hst : st.Valid)
    (hb : st.scope.lookup base = .ok (.list lb)) (hx : st.scope.lookup x = .ok (.list lx))
    (hsum : (interpretStatement R st
      (.assign r (.op .add (.ident base) (.ident x)))).result = .ok st') :
    ∃ l, st'.scope.lookup r = .ok (.list l) ∧
      l.contents st'.heap = lb.contents st.heap ++ lx.contents st.heap := by
  have hlb : Slice.Valid st.heap lb := hst.scope.lookup hb
  have heval : (interpretExpression R (.op .add (.ident base) (.ident x)) st.scope st.heap).result =
      .ok (.list (append R.growth st.heap lb (lx.contents st.heap)).1.clip,
        (append R.growth st.heap lb (lx.contents st.heap)).2) := by
    simp only [interpretExpression, interpretOp, interpretLocal, hb, hx, ofExcept]
    rfl
  obtain ⟨⟨o, h⟩, ho, hst'⟩ := result_bind_eq_ok.mp hsum
  rw [heval] at ho
  cases ho
  cases hst'
  exact ⟨_, lookup_set _ _ _, contents_append hlb⟩

theorem result_interpretStatements_concat {st' : State} {stmts : List Statement}
    {stmt : Statement}
    (h : (interpretStatements R st (stmts ++ [stmt])).result = .ok st') :
    ∃ st₁, (interpretStatements R st stmts).result = .ok st₁ ∧
      (interpretStatement R st₁ stmt).result = .ok st' := by
  induction stmts generalizing st with
  | nil =>
    obtain ⟨st₁, hst₁, hpure⟩ := result_bind_eq_ok.mp h
    cases hpure
    exact ⟨st, rfl, hst₁⟩
  | cons _ _ ih =>
    obtain ⟨st₁, hst₁, hrest⟩ := result_bind_eq_ok.mp h
    obtain ⟨st₂, hst₂, hlast⟩ := ih hrest
    exact ⟨st₂, result_bind_eq_ok.mpr ⟨st₁, hst₁, hst₂⟩, hlast⟩

/-- Lists are persistent as long as additions move: in a state `st` that a program has reached,
the lists bound to variables keep their contents, and with them a sum just assigned. -/
theorem lists_persistent (R : Runtime) {st₀ st st' : State} {before after : List Statement}
    (h₀ : st₀.Valid) (hbefore : (interpretStatements R st₀ before).result = .ok st)
    (hafter : (interpretStatements R st after).result = .ok st')
    (hmoves : ∀ a ∈ (interpretStatements R st after).actions, ¬ a.InPlace) :
    (∀ y l, st.Binds y l → l.contents st'.heap = l.contents st.heap) ∧
      (∀ y ∉ after.map Statement.name, st'.scope.lookup y = st.scope.lookup y) ∧
      ∀ (st₁ : State) (stmts : List Statement) (r base x : String) (lb lx : Slice),
        before = stmts ++ [.assign r (.op .add (.ident base) (.ident x))] →
        (interpretStatements R st₀ stmts).result = .ok st₁ →
        st₁.scope.lookup base = .ok (.list lb) → st₁.scope.lookup x = .ok (.list lx) →
        ∃ l, st.scope.lookup r = .ok (.list l) ∧
          l.contents st'.heap = lb.contents st₁.heap ++ lx.contents st₁.heap := by
  have hvalid : ∀ {st : State} {stmts : List Statement},
      (interpretStatements R st₀ stmts).result = .ok st → st.Valid := fun hst =>
    (ensures_interpretStatements (p := fun _ => True) h₀ _ (fun _ _ => trivial) _ hst).2.1
  have hst := hvalid hbefore
  obtain ⟨hext, -, hlookup⟩ := ensures_interpretStatements (p := Moves) hst after hmoves st' hafter
  have hkeep : ∀ {l : Slice}, l.Valid st.heap → l.contents st'.heap = l.contents st.heap :=
    fun hl => contents_of_isPrefix hl.array_lt (hext.frame fun _ ha => ha)
  refine ⟨fun y l hl => hkeep (hst.binds hl), hlookup, ?_⟩
  rintro st₁ stmts r base x lb lx rfl hst₁ hb hx
  obtain ⟨st₂, hst₂, hsum⟩ := result_interpretStatements_concat hbefore
  obtain rfl : st₁ = st₂ := Except.ok.inj (hst₁.symm.trans hst₂)
  obtain ⟨l, hr, hl⟩ := contents_sum (hvalid hst₁) hb hx hsum
  exact ⟨l, hr, by rw [hkeep (hst.scope.lookup hr), hl]⟩

/-! ## Runs on lists of integers -/

/-- A list literal of integers. -/
def ints (is : List Int64) : Expr := .list (is.map fun i => .scalar (.int i))

/-- The objects of such a literal. -/
def intObjs (is : List Int64) : List Obj := is.map fun i => .scalar (.int i)

/-- The state in which a program begins. -/
def State.start : State := ⟨⟨[], []⟩, []⟩

theorem State.valid_start : start.Valid :=
  ⟨⟨forall_mem_nil _, forall_mem_nil _⟩, forall_mem_nil _⟩

/-- A runtime that doubles capacities, without the operators that return no list. -/
def Runtime.doubling : Runtime where
  prims := ⟨fun i _ => i, fun s _ => s⟩
  growth := ⟨fun c n => max n (2 * c), fun _ _ => le_max_left _ _⟩
  operator _ _ _ _ := .error "unknown operator"
  substr _ _ _ := .error "runtime error: slice bounds out of range"

/-- The state after `base = [1, 2]`. -/
def State.base : State := ⟨⟨[("base", .list ⟨0, 0, 2, 2, false⟩)], []⟩, [intObjs [1, 2]]⟩

/-- A sum with a literal, which has no spare capacity. -/
theorem lists_persistent_literal :
    ∃ st', (interpretStatements .doubling .start [.assign "base" (ints [1, 2])]).result =
        .ok .base ∧
      (interpretStatements .doubling .base
        [.assign "r1" (.op .add (.ident "base") (ints [7]))]).result = .ok st' ∧
      (∀ a ∈ (interpretStatements .doubling .base
        [.assign "r1" (.op .add (.ident "base") (ints [7]))]).actions, ¬ a.InPlace) ∧
      ∀ y l, base.Binds y l → l.contents st'.heap = l.contents base.heap := by
  have hbefore : (interpretStatements .doubling .start [.assign "base" (ints [1, 2])]).result =
      .ok base := rfl
  have hmoves : ∀ a ∈ (interpretStatements .doubling .base
      [.assign "r1" (.op .add (.ident "base") (ints [7]))]).actions, ¬ a.InPlace := by decide
  obtain ⟨st', hafter⟩ : ∃ st', (interpretStatements .doubling .base
      [.assign "r1" (.op .add (.ident "base") (ints [7]))]).result = .ok st' := ⟨_, rfl⟩
  exact ⟨st', hbefore, hafter, hmoves,
    (lists_persistent .doubling valid_start hbefore hafter hmoves).1⟩

/-- `xs[:1] + [9]` changes `xs`, and a second sum with a filtered list changes the first. -/
theorem sums_overwrite_lists :
    (∃ st st' l,
      (interpretStatements .doubling .start [.assign "xs" (ints [1, 2, 3])]).result = .ok st ∧
      (interpretStatements .doubling st [.assign "ys" (.op .add
        (.slice (.ident "xs") none (some (.scalar (.int 1)))) (ints [9]))]).result = .ok st' ∧
      st.scope.lookup "xs" = .ok (.list l) ∧ st'.scope.lookup "xs" = .ok (.list l) ∧
      l.contents st.heap = intObjs [1, 2, 3] ∧ l.contents st'.heap = intObjs [1, 9, 3]) ∧
    ∃ st st' l,
      (interpretStatements .doubling .start [
        .assign "base" (.comprehension [.ident "x"] ["x"] (ints [1, 2, 3]) none
          (some (.op .greaterThan (.ident "x") (.scalar (.int 1))))),
        .assign "r1" (.op .add (.ident "base") (ints [7]))]).result = .ok st ∧
      (interpretStatements .doubling st
        [.assign "r2" (.op .add (.ident "base") (ints [8]))]).result = .ok st' ∧
      st.scope.lookup "r1" = .ok (.list l) ∧ st'.scope.lookup "r1" = .ok (.list l) ∧
      l.contents st.heap = intObjs [2, 3, 7] ∧ l.contents st'.heap = intObjs [2, 3, 8] := by
  exact ⟨⟨_, _, _, rfl, rfl, rfl, rfl, rfl, rfl⟩, ⟨_, _, _, rfl, rfl, rfl, rfl, rfl, rfl⟩⟩

end Please.Asp.Lists
