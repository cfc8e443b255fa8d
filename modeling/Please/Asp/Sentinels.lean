import Please.Asp.Interpreter
import Please.Asp.LoopSyntax
import Please.Lib.Contract

/-!
# Expressions make no sentinel

The interpreter has two objects of its own, `continueIteration` and `stopIteration`. No expression
makes one: it has to be got from a variable, from an element of a list or a dict, from a constant,
or from what a function returns. `contract` says that there are none in any of these places; the
functions of the interpreter for the parts of an expression meet it, one lemma for each.

What native code does is not modelled. `Natives.Clean` and `Runtime.Clean` say that it makes no
sentinel either; there is none in its text.
-/

namespace Please.Asp.Interp

open Please.Fs (Bytes)
open Please.Build (utf8)
open Please.Lib Interp Slice
open Please.Asp.Syntax List Option
open Except (ok.inj ok.injEq)

/-! ## Where objects are -/

/-- The object is no sentinel, nor a member of one. -/
def Obj.Clean : Obj → Prop
  | .continueIteration | .stopIteration => False
  | .member _ self => self.Clean
  | _ => True

/-- A constant that stands at an expression. -/
def Ann.Clean (ann : Ann) : Prop := ∀ obj, ann.optimised = some (.constant obj) → obj.Clean

/-- The constants among the defaults of a function. -/
def Signature.Clean (sig : Signature) : Prop := ∀ o ∈ sig.constants, ∀ obj ∈ o, obj.Clean

/-- The constants of a function; and in its code `break` and `continue` stand in loops. -/
structure Closure.Clean (c : Closure) : Prop where
  sig : c.sig.Clean
  defaults : ∀ o ∈ c.defaults, ∀ e ∈ o, Annotated Ann.Clean e
  code : Placed Ann.Clean false c.code

variable {H : Type}

/-- No sentinel is in the store. -/
structure Store.Clean (st : Store H) : Prop where
  arrays : ∀ obj ∈ st.arrays.flatten, obj.Clean
  dicts : ∀ d ∈ st.dicts, ∀ e ∈ d, e.2.Clean
  configs : ∀ sc ∈ st.scopes, sc.config.Clean
  locals : ∀ sc ∈ st.scopes, ∀ e ∈ sc.locals, e.2.Clean

/-- What the interpreter keeps to: there are no sentinels in the store, in functions or in what they
return. -/
def contract (H : Type) : Contract Answer (Store H) where
  state := Store.Clean
  asks
    | .define c => c.Clean
    | _ => True
  answers
    | .signature _, x => x.1.Clean
    | .default _ _ _, obj => obj.Clean
    | .body _ _, ret => ∀ obj ∈ ret, obj.Clean
    | _, _ => True

/-- A program keeps to the contract. -/
abbrev Keeps {α : Type} (Q : α → Prop) (p : P H α) : Prop := p.Meets (contract H) Q

/-- An expression has a clean value. -/
def CleanExp (e : Exp H) : Prop := ∀ s, Keeps Obj.Clean (e s)

/-- Native code makes no sentinel. -/
structure Native.Clean (native : Native H) : Prop where
  sig : native.sig.Clean
  defaults : ∀ o ∈ native.defaults, ∀ e ∈ o, CleanExp e
  code : ∀ s objs, (∀ obj ∈ objs, obj.Clean) → Keeps Obj.Clean (native.code s objs)

def Natives.Clean (N : Natives H) : Prop := ∀ name native, N name = some native → native.Clean

/-- The operators that are not modelled make none. -/
structure Runtime.Clean (R : Runtime H) : Prop where
  operator : ∀ {op obj operand st x st'}, Obj.Clean obj → Obj.Clean operand → st.Clean →
    R.operator op obj operand st = .ok (x, st') → x.Clean ∧ st'.Clean
  index : ∀ {obj index st x}, Obj.Clean obj → Obj.Clean index → st.Clean →
    R.index obj index st = .ok x → x.Clean

/-! ## Reading and writing the store -/

theorem forall_mem_modify {α : Type} {l : List α} {i : ℕ} {f : α → α} {Q : α → Prop}
    (h : ∀ x ∈ l, Q x) (hf : ∀ x, Q x → Q (f x)) : ∀ x ∈ l.modify i f, Q x := by
  intro x hx
  obtain ⟨j, hj⟩ := mem_iff_getElem?.mp hx
  rw [getElem?_modify] at hj
  obtain ⟨y, hy, rfl⟩ := map_eq_some_iff.mp hj
  have hQ := h y (mem_of_getElem? hy)
  split
  · exact hf y hQ
  · exact hQ

theorem clean_of_lookup {d : List (Bytes × Obj)} (h : ∀ e ∈ d, e.2.Clean) {key : Bytes} {obj : Obj}
    (hobj : d.lookup key = some obj) : obj.Clean := by
  obtain ⟨l₁, l₂, rfl, -⟩ := lookup_eq_some_iff.mp hobj
  exact h (key, obj) (mem_append_right _ mem_cons_self)

theorem clean_setKey {d : List (Bytes × Obj)} (h : ∀ e ∈ d, e.2.Clean) (key : Bytes) {obj : Obj}
    (hobj : obj.Clean) : ∀ e ∈ setKey d key obj, e.2.Clean :=
  forall_mem_cons.mpr ⟨hobj, fun e he => h e (mem_filter.mp he).1⟩

namespace Store.Clean

variable {st : Store H} (h : st.Clean)
include h

theorem contents (l : Slice) : ∀ obj ∈ l.contents st.arrays, obj.Clean :=
  fun obj hobj => h.arrays obj (mem_of_mem_contents hobj)

theorem dict (d : ℕ) : ∀ e ∈ st.dict d, e.2.Clean := forall_mem_getD h.dicts (forall_mem_nil _) d

variable {name : Bytes} {obj : Obj}

theorem lookupIn {n s : ℕ} (hobj : st.lookupIn name n s = some obj) : obj.Clean := by
  induction n generalizing s with
  | zero => cases hobj
  | succ n ih =>
    obtain ⟨sc, hsc, hobj⟩ := bind_eq_some_iff.mp hobj
    split at hobj
    case h_1 hlocal =>
      obtain rfl := some.inj hobj
      exact clean_of_lookup (h.locals sc (mem_of_getElem? hsc)) hlocal
    case h_2 =>
      obtain ⟨parent, -, hobj⟩ := bind_eq_some_iff.mp hobj
      exact ih hobj

theorem lookup {s : ℕ} (hobj : st.lookup s name = .ok obj) : obj.Clean := by
  rw [Store.lookup] at hobj
  split at hobj
  case h_1 hin =>
    obtain rfl := ok.inj hobj
    exact h.lookupIn hin
  case h_2 => cases hobj

theorem configGet {c : ℕ} {key : Bytes} (hobj : st.configGet c key = some obj) : obj.Clean := by
  obtain ⟨config, -, hobj⟩ := bind_eq_some_iff.mp hobj
  split at hobj
  case h_1 hover =>
    obtain rfl := some.inj hobj
    obtain ⟨o, -, hlookup⟩ := bind_eq_some_iff.mp hover
    exact clean_of_lookup (h.dict o) hlookup
  case h_2 => exact clean_of_lookup (h.dict _) hobj

theorem scope (s : ℕ) : (st.scope s).config.Clean := forall_mem_getD h.configs (by trivial) s

theorem set (s : ℕ) (name : Bytes) (hobj : obj.Clean) : (st.set s name obj).Clean where
  arrays := h.arrays
  dicts := h.dicts
  configs := forall_mem_modify h.configs fun _ hsc => hsc
  locals := forall_mem_modify h.locals fun _ hsc => clean_setKey hsc name hobj

theorem setDict (d : ℕ) (key : Bytes) (hobj : obj.Clean) : (st.setDict d key obj).Clean :=
  { h with dicts := forall_mem_modify h.dicts fun _ hd => clean_setKey hd key hobj }

theorem addScope {sc : Scope} (hconfig : sc.config.Clean) (hlocals : ∀ e ∈ sc.locals, e.2.Clean) :
    Store.Clean { st with scopes := st.scopes ++ [sc] } :=
  { h with
    configs := forall_mem_append.mpr ⟨h.configs, forall_mem_singleton.mpr hconfig⟩
    locals := forall_mem_append.mpr ⟨h.locals, forall_mem_singleton.mpr hlocals⟩ }

theorem alloc {objs : List Obj} (hobjs : ∀ obj ∈ objs, obj.Clean) (room : ℕ) :
    Store.Clean { st with arrays := (alloc st.arrays objs room).2 } := by
  refine { h with arrays := fun obj hobj => ?_ }
  rcases mem_alloc hobj with hobj | hobj | rfl
  · exact h.arrays obj hobj
  · exact hobjs obj hobj
  · trivial

theorem write (l : Slice) (i : ℕ) {value : Obj} (hvalue : value.Clean) :
    Store.Clean { st with arrays := st.arrays.modify l.array (writeAt i [value]) } := by
  have hall : ∀ array ∈ st.arrays.modify l.array (writeAt i [value]), ∀ x ∈ array, x.Clean := by
    refine forall_mem_modify (fun array harray x hx => ?_) fun array harray x hx => ?_
    · exact h.arrays x (mem_flatten.mpr ⟨array, harray, hx⟩)
    · rcases mem_writeAt hx with hx | hx
      · exact harray x hx
      · rwa [mem_singleton.mp hx]
  refine { h with arrays := fun x hx => ?_ }
  obtain ⟨array, harray, hx⟩ := mem_flatten.mp hx
  exact hall array harray x hx

variable {st' : Store H}

theorem indexAssign {index value : Obj} (hvalue : value.Clean)
    (hst : indexAssign obj index value st = .ok st') : st'.Clean := by
  cases obj with
  | list l =>
    cases index with
    | int =>
      rw [indexAssign] at hst
      split at hst
      · obtain rfl := ok.inj hst
        exact h.write l _ hvalue
      · cases hst
    | _ => cases hst
  | dict d =>
    cases index with
    | str key =>
      obtain rfl := ok.inj hst
      exact h.setDict d key hvalue
    | _ => cases hst
  | config c =>
    cases index with
    | str key =>
      cases hc : st.configs[c]? with
      | none => simp [indexAssign, hc] at hst
      | some config =>
        obtain ⟨base, overlay⟩ := config
        cases overlay with
        | none =>
          obtain rfl : _ = st' := by simpa only [indexAssign, hc, ok.injEq] using hst
          have hentry : ∀ e ∈ [(key, value)], e.2.Clean := forall_mem_singleton.mpr hvalue
          exact { h with
            dicts := forall_mem_append.mpr ⟨h.dicts, forall_mem_singleton.mpr hentry⟩ }
        | some o =>
          obtain rfl : _ = st' := by simpa only [indexAssign, hc, ok.injEq] using hst
          exact h.setDict o key hvalue
    | _ => cases hst
  | _ => cases hst

variable {R : Runtime H}

theorem dictProperty {d : ℕ} {x : Obj}
    (hx : dictProperty R d name st = .ok x) : x.Clean := by
  rw [Interp.dictProperty] at hx
  split at hx
  case h_1 hlookup =>
    obtain rfl := ok.inj hx
    exact clean_of_lookup (h.dict d) hlookup
  case h_2 =>
    obtain rfl := ok.inj hx
    trivial
  case h_3 => cases hx

theorem configProperty {c : ℕ} {x : Obj}
    (hx : configProperty R c name st = .ok x) : x.Clean := by
  rw [Interp.configProperty] at hx
  split at hx
  case h_1 hget =>
    obtain rfl := ok.inj hx
    exact h.configGet hget
  case h_2 =>
    obtain rfl := ok.inj hx
    trivial
  case h_3 => cases hx

theorem property {x : Obj} (hx : property R obj name st = .ok x) : x.Clean := by
  cases obj with
  | str =>
    rw [property] at hx
    split at hx
    · obtain rfl := ok.inj hx
      trivial
    · cases hx
  | dict => exact h.dictProperty hx
  | frozenDict =>
    rw [property] at hx
    split at hx
    · cases hx
    · exact h.dictProperty hx
  | config => exact h.configProperty hx
  | frozenConfig =>
    rw [property] at hx
    split at hx
    · cases hx
    · exact h.configProperty hx
  | _ => cases hx

variable {R : Runtime H} (hR : R.Clean) {obj index operand x : Obj} (hobj : obj.Clean)
include hR hobj

theorem operatorIndex (hindex : index.Clean) (hx : operatorIndex R obj index st = .ok x) :
    x.Clean := by
  cases obj with
  | list l | frozenList l =>
    obtain ⟨i, -, hx⟩ := Except.bind_eq_ok.mp hx
    split at hx
    case h_1 hitem =>
      obtain rfl := ok.inj hx
      split at hitem
      · cases hitem
      · exact h.contents l _ (mem_of_getElem? hitem)
    case h_2 => cases hx
  | _ => exact hR.index hobj hindex h hx

omit hR hobj in
theorem pyListRepeat {l : Slice} {n : Int64}
    (hx : pyListRepeat l n st = .ok (x, st')) : x.Clean ∧ st'.Clean := by
  rw [Interp.pyListRepeat] at hx
  split at hx
  · cases hx
  · obtain ⟨rfl, rfl⟩ := Prod.mk.inj (ok.inj hx)
    refine ⟨trivial, h.alloc (fun obj hobj => ?_) 0⟩
    obtain ⟨items, hitems, hobj⟩ := mem_flatten.mp hobj
    rw [eq_of_mem_replicate hitems] at hobj
    exact h.contents l obj hobj

theorem pyListOperator {l : Slice} (hl : obj = .list l) {op : Operator} (hoperand : operand.Clean)
    (hx : pyListOperator R l op operand st = .ok (x, st')) :
    x.Clean ∧ st'.Clean := by
  have hadd {l₂ : Slice} (hx : pyListAdd R l l₂ st = .ok (x, st')) : x.Clean ∧ st'.Clean := by
    obtain ⟨rfl, rfl⟩ := Prod.mk.inj (ok.inj hx)
    refine ⟨trivial, { h with arrays := fun o ho => ?_ }⟩
    rcases mem_append ho with ho | ho | rfl
    · exact h.arrays o ho
    · exact h.contents l₂ o ho
    · trivial
  unfold Interp.pyListOperator at hx
  split at hx
  · exact hadd hx
  · exact hadd hx
  · cases hx
  case h_4 | h_5 =>
    obtain ⟨found, -, heq⟩ := Except.bind_eq_ok.mp hx
    cases heq
    exact ⟨trivial, h⟩
  · exact h.pyListRepeat hx
  · cases hx
  · exact hR.operator (hl ▸ hobj) hoperand h hx
  · cases hx

theorem operator {op : Operator} (hoperand : operand.Clean)
    (hx : operator R op obj operand st = .ok (x, st')) : x.Clean ∧ st'.Clean := by
  cases obj with
  | list => exact h.pyListOperator hR hobj rfl hoperand hx
  | frozenList l =>
    have hlist : Obj.Clean (.list l) := trivial
    exact h.pyListOperator hR hlist rfl hoperand hx
  | int =>
    unfold operator at hx
    dsimp only at hx
    split at hx
    · exact h.pyListRepeat hx
    · exact hR.operator hobj hoperand h hx
  | str _ | dict _ | frozenDict _ | config _ | frozenConfig _ | range _ _ _ =>
    exact hR.operator hobj hoperand h hx
  | _ => cases hx

end Store.Clean

/-! ## Primitive steps -/

section steps

variable {α : Type} {Q : α → Prop}

theorem keeps_raise (msg : Bytes) : Keeps Q (raise msg : P H α) := trivial

theorem keeps_read {f : Store H → α} (h : ∀ st, st.Clean → Q (f st)) : Keeps Q (read f) := h

theorem keeps_readOr {f : Store H → Except Bytes α} (h : ∀ st a, st.Clean → f st = .ok a → Q a) :
    Keeps Q (readOr f) := by
  refine .act fun st a st' hst hf => ?_
  obtain ⟨b, hb, heq⟩ := Except.map_eq_ok.mp hf
  cases heq
  exact ⟨hst, h st a hst hb⟩

theorem keeps_assertOr (c : Bool) (msg : Bytes) :
    Keeps (fun _ => True) (assertOr c msg : P H Unit) := by
  rw [assertOr]
  split
  · exact .pure trivial
  · exact keeps_raise msg

theorem keeps_truthy (obj : Obj) : Keeps (fun _ => True) (truthy obj : P H Bool) :=
  keeps_read fun _ _ => trivial

theorem keeps_modifyStore {f : Store H → Store H} (h : ∀ st, st.Clean → (f st).Clean) :
    Keeps (fun _ => True) (modifyStore f) := by
  refine .act fun st a st' hst hf => ?_
  cases hf
  exact ⟨h st hst, trivial⟩

theorem keeps_ask (q : Request) (h : (contract H).asks q) :
    Keeps ((contract H).answers q) (ask q : P H (Answer q)) := .ask h

theorem keeps_lookup (s : ℕ) (name : Bytes) : Keeps Obj.Clean (lookup s name : P H Obj) :=
  keeps_readOr fun _ _ hst hobj => hst.lookup hobj

theorem keeps_set (s : ℕ) (name : Bytes) {obj : Obj} (hobj : obj.Clean) :
    Keeps (fun _ => True) (set s name obj : P H Unit) :=
  keeps_modifyStore fun _ hst => hst.set s name hobj

theorem keeps_addScope {f : Store H → Scope}
    (h : ∀ st, st.Clean → (f st).config.Clean ∧ ∀ e ∈ (f st).locals, e.2.Clean) :
    Keeps (fun _ => True) (addScope f) := by
  refine .act fun st a st' hst hf => ?_
  cases hf
  exact ⟨hst.addScope (h st hst).1 (h st hst).2, trivial⟩

theorem keeps_newScope (s : ℕ) (filename : Store H → Bytes) :
    Keeps (fun _ => True) (newScope s filename) :=
  keeps_addScope fun _ hst => ⟨hst.scope s, forall_mem_nil _⟩

theorem keeps_allocList {objs : List Obj} (hobjs : ∀ obj ∈ objs, obj.Clean) (room : ℕ) :
    Keeps (fun _ => True) (allocList objs room : P H Slice) := by
  refine .act fun st a st' hst hf => ?_
  cases hf
  exact ⟨hst.alloc hobjs room, trivial⟩

theorem keeps_indexAssign (obj index : Obj) {value : Obj} (hvalue : value.Clean) :
    Keeps (fun _ => True)
      (Prog.act fun st => (indexAssign obj index value st).map fun st => ((), st) : P H Unit) := by
  refine .act fun st a st' hst hf => ?_
  obtain ⟨st'', hassign, heq⟩ := Except.map_eq_ok.mp hf
  cases heq
  exact ⟨hst.indexAssign hvalue hassign, trivial⟩

theorem keeps_allocDict : Keeps (fun _ => True) (allocDict : P H ℕ) := by
  refine .act fun st a st' hst hf => ?_
  cases hf
  have hempty : ∀ e ∈ ([] : List (Bytes × Obj)), e.2.Clean := forall_mem_nil _
  have hdicts := forall_mem_append.mpr ⟨hst.dicts, forall_mem_singleton.mpr hempty⟩
  exact ⟨{ hst with dicts := hdicts }, trivial⟩

end steps

/-! ## Loops -/

section loops

/-- What the elements of a loop are like, under a contract. -/
structure LoopElems (C : Contract Answer (Store H)) (E : Obj → Prop) : Prop where
  element : ∀ {st : Store H}, C.state st → ∀ (l : Slice) (i : ℕ),
    E ((l.contents st.arrays).getD i default)
  int : ∀ i, E (.int i)
  fuel : C.asks .fuel
  stuck : C.asks .stuck

variable {C : Contract Answer (Store H)} {E : Obj → Prop} (hC : LoopElems C E) {α : Type}
  {Q : α → Prop} {body : α → Obj → P H (α × Bool)}
  (hbody : ∀ a obj, Q a → E obj → (body a obj).Meets C fun x => Q x.1)
include hC hbody

theorem meets_forSlice (l : Slice) (n i : ℕ) {a : α} (ha : Q a) :
    (forSlice l body n i a).Meets C Q := by
  induction n generalizing i a with
  | zero => exact ha
  | succ n ih =>
    have hread : (read fun st => (l.contents st.arrays).getD i default : P H Obj).Meets C E :=
      fun st hst => hC.element hst l i
    refine hread.bind fun obj hobj => (hbody a obj ha hobj).bind fun x hx => ?_
    obtain ⟨a', more⟩ := x
    cases more with
    | true => exact ih (i + 1) hx
    | false => exact .pure hx

theorem meets_forRange (stop step : Int64) (n : ℕ) (i : Int64) {a : α} (ha : Q a) :
    (forRange stop step body n i a).Meets C Q := by
  induction n generalizing i a with
  | zero =>
    rw [forRange]
    split
    · exact ⟨hC.stuck, fun e => e.elim⟩
    · exact .pure ha
  | succ n ih =>
    rw [forRange]
    split
    · refine (hbody a (.int i) ha (hC.int i)).bind fun x hx => ?_
      obtain ⟨a', more⟩ := x
      cases more with
      | true => exact ih (i + step) hx
      | false => exact .pure hx
    · exact .pure ha

theorem meets_iterate (obj : Obj) {a : α} (ha : Q a) : (iterate obj body a).Meets C Q := by
  cases obj with
  | list l | frozenList l => exact meets_forSlice hC hbody l _ _ ha
  | range start stop step =>
    exact (Prog.Meets.ask hC.fuel).bind fun n _ => meets_forRange hC hbody stop step n start ha
  | _ => exact .pure ha

end loops

theorem keeps_iterate {α : Type} {Q : α → Prop} {body : α → Obj → P H (α × Bool)}
    (hbody : ∀ a obj, Q a → obj.Clean → Keeps (fun x => Q x.1) (body a obj)) (obj : Obj) {a : α}
    (ha : Q a) : Keeps Q (iterate obj body a) := by
  have hC : LoopElems (contract H) Obj.Clean :=
    { element := fun h l => forall_mem_getD (h.contents l) (by trivial)
      int := fun _ => trivial, fuel := trivial, stuck := trivial }
  exact meets_iterate hC hbody obj ha

theorem keeps_lenHint (obj : Obj) : Keeps (fun _ => True) (lenHint obj : P H ℤ) := by
  cases obj with
  | range =>
    rw [lenHint]
    split
    · exact keeps_raise _
    · exact .pure trivial
  | _ => exact .pure trivial

theorem keeps_capHint (obj : Obj) : Keeps (fun _ => True) (capHint obj : P H ℕ) := by
  refine (keeps_lenHint obj).bind fun l _ => ?_
  split
  · exact keeps_raise _
  · exact .pure trivial

/-! ## Operators -/

section operators

variable {R : Runtime H} (hR : R.Clean)

theorem keeps_evalOperand (s : ℕ) {e : Option (Exp H)} (he : ∀ x ∈ e, CleanExp x) :
    Keeps Obj.Clean (evalOperand s e) := by
  cases e with
  | none => exact keeps_raise _
  | some e => exact he e rfl s

theorem clean_interpretIs (obj operand : Obj) : (interpretIs obj operand).Clean := by
  unfold interpretIs
  split <;> trivial

include hR

theorem keeps_operator (op : Operator) {obj operand : Obj} (hobj : obj.Clean)
    (hoperand : operand.Clean) : Keeps Obj.Clean (Prog.act (operator R op obj operand) : P H Obj) :=
  .act fun _ _ _ hst hx => (hst.operator hR hobj hoperand hx).symm

theorem keeps_interpretOp (s : ℕ) {obj : Obj} (hobj : obj.Clean) {op : OpDen H}
    (hop : ∀ e ∈ op.2, CleanExp e) : Keeps Obj.Clean (interpretOp R s obj op) := by
  obtain ⟨op, e⟩ := op
  have hoperand := keeps_evalOperand s hop
  cases op with
  | and | or =>
    refine (keeps_truthy obj).bind fun b _ => ?_
    cases b with
    | true | false => first | exact hoperand | exact .pure hobj
  | not => exact keeps_read fun _ _ => trivial
  | equal | notEqual | isNot => exact hoperand.bind fun _ _ => keeps_read fun _ _ => trivial
  | is => exact hoperand.bind fun operand _ => .pure (clean_interpretIs obj operand)
  | in_ | notIn => exact hoperand.bind fun operand ho => keeps_operator hR _ ho hobj
  | negate =>
    cases obj with
    | int => exact .pure trivial
    | _ => exact keeps_raise _
  | _ => exact hoperand.bind fun operand ho => keeps_operator hR _ hobj ho

theorem keeps_interpretOps (s : ℕ) {obj : Obj} (hobj : obj.Clean) {ops : List (OpDen H)}
    (hops : ∀ op ∈ ops, ∀ e ∈ op.2, CleanExp e) : Keeps Obj.Clean (interpretOps R s obj ops) := by
  induction ops generalizing obj with
  | nil => exact keeps_raise _
  | cons op ops ih =>
    have hop := hops op mem_cons_self
    have hrest := fun op' h => hops op' (mem_cons_of_mem _ h)
    cases ops with
    | nil => exact keeps_interpretOp hR s hobj hop
    | cons =>
      rw [interpretOps]
      split
      · exact (keeps_interpretOp hR s hobj hop).bind fun obj hobj => ih hobj hrest
      · refine (keeps_truthy obj).bind fun b _ => ?_
        split
        · exact .pure hobj
        · split
          case h_1 => exact (ih hobj hrest).bind fun obj hobj => keeps_interpretOp hR s hobj hop
          case h_2 e he =>
            refine (hop e he s).bind fun x hx => (ih hx hrest).bind fun nobj hnobj => ?_
            refine keeps_interpretOp hR s hobj ?_
            rintro _ ⟨⟩ _
            exact .pure hnobj

end operators

/-! ## Calls -/

section calls

variable {sig : Signature} (hsig : sig.Clean) {dflt : ℕ → P H Obj}
  (hdflt : ∀ i, Keeps Obj.Clean (dflt i))
include hsig hdflt

theorem keeps_defaultArg (i : ℕ) : Keeps Obj.Clean (defaultArg sig dflt i) := by
  rw [defaultArg]
  split
  case h_1 obj hobj => exact .pure (forall_mem_getD hsig (fun _ h => by cases h) i obj hobj)
  case h_2 =>
    split
    · exact hdflt i
    · exact keeps_raise _

theorem keeps_validateType (s i : ℕ) {e : Exp H} (he : CleanExp e) :
    Keeps Obj.Clean (validateType sig dflt s i e) := by
  refine (he s).bind fun val hval => ?_
  split
  case h_1 =>
    split
    · exact .pure hval
    · exact keeps_raise _
  case h_2 =>
    split
    · exact .pure hval
    · split
      · split
        · exact .pure hval
        · exact keeps_defaultArg hsig hdflt i
      · split
        · exact .pure hval
        · exact keeps_raise _

theorem keeps_passArgs (s cs i : ℕ) {args : Args H} (hargs : ∀ arg ∈ args, CleanExp arg.2) :
    Keeps (fun _ => True) (passArgs sig dflt s cs i args) := by
  induction args generalizing i with
  | nil => exact .pure trivial
  | cons arg args ih =>
    obtain ⟨name, value⟩ := arg
    have hvalue : CleanExp value := hargs _ mem_cons_self
    have hrest := ih (i + 1) (forall_mem_cons.mp hargs).2
    have hset (idx : ℕ) (name : Bytes) : Keeps (fun _ => True) (do
        let val ← validateType sig dflt s idx value
        let _ ← set cs name val
        passArgs sig dflt s cs (i + 1) args) :=
      (keeps_validateType hsig hdflt s idx hvalue).bind fun val hval =>
        (keeps_set cs name hval).bind fun _ _ => hrest
    rw [passArgs]
    split
    · split
      · exact hset _ _
      · split
        · exact hset _ _
        · exact keeps_raise _
    · split
      · exact keeps_raise _
      · split
        · exact keeps_raise _
        · exact hset _ _

theorem keeps_passDefaults (cs i : ℕ) (args : List Bytes) :
    Keeps (fun _ => True) (passDefaults sig dflt cs i args) := by
  induction args generalizing i with
  | nil => exact .pure trivial
  | cons arg _ ih =>
    refine (keeps_read (Q := fun _ => True) fun _ _ => trivial).bind fun present _ => ?_
    split
    · exact ih (i + 1)
    · refine (keeps_defaultArg hsig hdflt i).bind fun val hval => ?_
      exact (keeps_set cs arg hval).bind fun _ _ => ih (i + 1)

/-- The objects among the arguments that are set. -/
def CleanVals (vals : List (Option Obj)) : Prop := ∀ o ∈ vals, ∀ obj ∈ o, obj.Clean

variable {vals : List (Option Obj)}

omit hsig hdflt in
theorem CleanVals.append (h : CleanVals vals) {obj : Obj} (hobj : obj.Clean) :
    CleanVals (vals ++ [some obj]) := by
  refine forall_mem_append.mpr ⟨h, forall_mem_singleton.mpr ?_⟩
  rintro _ ⟨⟩
  exact hobj

omit hsig hdflt in
theorem CleanVals.set (h : CleanVals vals) (i : ℕ) {obj : Obj} (hobj : obj.Clean) :
    CleanVals (vals.set i (some obj)) := by
  intro o ho
  rcases mem_or_eq_of_mem_set ho with ho | rfl
  · exact h o ho
  · rintro _ ⟨⟩
    exact hobj

theorem keeps_passNative (s offset i : ℕ) (hvals : CleanVals vals) {args : Args H}
    (hargs : ∀ arg ∈ args, CleanExp arg.2) :
    Keeps CleanVals (passNative sig dflt s offset i vals args) := by
  induction args generalizing i vals with
  | nil => exact .pure hvals
  | cons arg _ ih =>
    obtain ⟨name, value⟩ := arg
    have hvalue : CleanExp value := hargs _ mem_cons_self
    have hrest {vals : List (Option Obj)} (h : CleanVals vals) :=
      ih (i + 1) h (forall_mem_cons.mp hargs).2
    have hvalidate (idx : ℕ) := keeps_validateType hsig hdflt s idx hvalue
    rw [passNative]
    split
    · split
      · exact (hvalidate _).bind fun val hval => hrest (hvals.set _ hval)
      · split
        · exact (hvalue s).bind fun val hval => (keeps_set s name hval).bind fun _ _ => hrest hvals
        · exact keeps_raise _
    · split
      · split
        · exact (hvalue s).bind fun val hval => hrest (hvals.append hval)
        · exact keeps_raise _
      · split
        · exact keeps_raise _
        · refine (hvalidate _).bind fun val hval => ?_
          split
          · exact hrest (hvals.append hval)
          · exact hrest (hvals.set _ hval)

theorem keeps_nativeDefaults (i : ℕ) (hvals : CleanVals vals) :
    Keeps (fun objs => ∀ obj ∈ objs, obj.Clean) (nativeDefaults sig dflt i vals) := by
  induction vals generalizing i with
  | nil => exact .pure (forall_mem_nil _)
  | cons val vals ih =>
    have hrest := ih (i + 1) (forall_mem_cons.mp hvals).2
    have hcons {obj : Obj} (hobj : obj.Clean) : Keeps (fun objs => ∀ obj ∈ objs, obj.Clean) (do
        let objs ← nativeDefaults sig dflt (i + 1) vals
        pure (obj :: objs)) :=
      hrest.bind fun objs hobjs => .pure (forall_mem_cons.mpr ⟨hobj, hobjs⟩)
    cases val with
    | some obj => exact hcons (hvals _ mem_cons_self obj rfl)
    | none => exact (keeps_defaultArg hsig hdflt i).bind fun obj hobj => hcons hobj

end calls

theorem Signature.Clean.bound {sig : Signature} (h : sig.Clean) (self : Option Obj) :
    (sig.bound self).Clean := by
  cases self <;> exact h

theorem keeps_callScope (scope s : ℕ) : Keeps (fun _ => True) (callScope scope s : P H ℕ) :=
  keeps_addScope fun _ hst => ⟨hst.scope s, forall_mem_singleton.mpr (hst.scope s)⟩

theorem keeps_checkReturn (sig : Signature) (returnType : Bytes) {ret : Option Obj}
    (h : ∀ obj ∈ ret, obj.Clean) : Keeps Obj.Clean (checkReturn sig returnType ret : P H Obj) := by
  cases ret with
  | none => exact .pure trivial
  | some obj =>
    rw [checkReturn]
    split
    · exact keeps_raise _
    · exact .pure (h obj rfl)

section call

variable {self : Option Obj} (hself : ∀ obj ∈ self, obj.Clean) {args : Args H}
  (hargs : ∀ arg ∈ args, CleanExp arg.2)
include hself hargs

theorem keeps_callClosure (f s : ℕ) : Keeps Obj.Clean (callClosure f self s args) := by
  refine (keeps_ask (.signature f) trivial).bind fun x hx => ?_
  obtain ⟨sig, scope, returnType⟩ := x
  have hsig : (sig.bound self).Clean := Signature.Clean.bound hx self
  have hdflt (i : ℕ) : Keeps Obj.Clean (ask (.default f i s) : P H Obj) :=
    keeps_ask (.default f i s) trivial
  have hall : ∀ arg ∈
      self.toList.map (fun obj => (([] : Bytes), (fun _ => pure obj : Exp H))) ++ args,
      CleanExp arg.2 := by
    refine forall_mem_append.mpr ⟨fun arg harg => ?_, hargs⟩
    obtain ⟨obj, hobj, rfl⟩ := mem_map.mp harg
    exact fun _ => .pure (hself obj (mem_toList.mp hobj))
  refine (keeps_callScope scope s).bind fun cs _ => ?_
  refine (keeps_passArgs hsig hdflt s cs 0 hall).bind fun _ _ => ?_
  refine (keeps_passDefaults hsig hdflt cs 0 _).bind fun _ _ => ?_
  exact (keeps_ask (.body f cs) trivial).bind fun ret hret => keeps_checkReturn _ _ hret

theorem keeps_callNative {native : Native H} (hnative : native.Clean) (s : ℕ) :
    Keeps Obj.Clean (callNative native self s args) := by
  have hrun (s : ℕ) : Keeps Obj.Clean (do
      let vals ← passNative (native.sig.bound self)
        (fun i => evalOperand s (native.defaults.getD i none)) s self.toList.length 0
        (self.toList.map some ++
          replicate ((native.sig.bound self).args.length - self.toList.length) none) args
      let objs ← nativeDefaults (native.sig.bound self)
        (fun i => evalOperand s (native.defaults.getD i none)) 0 vals
      native.code s objs) := by
    have hsig := hnative.sig.bound self
    have hdflt (i : ℕ) : Keeps Obj.Clean (evalOperand s (native.defaults.getD i none)) :=
      keeps_evalOperand s (forall_mem_getD hnative.defaults (fun _ h => by cases h) i)
    refine (keeps_passNative hsig hdflt s _ 0 ?_ hargs).bind fun vals hvals => ?_
    · refine forall_mem_append.mpr ⟨fun o ho => ?_, fun o ho => ?_⟩
      · obtain ⟨obj, hobj, rfl⟩ := mem_map.mp ho
        rintro _ ⟨⟩
        exact hself obj (mem_toList.mp hobj)
      · rw [eq_of_mem_replicate ho]
        rintro _ ⟨⟩
    · exact (keeps_nativeDefaults hsig hdflt 0 hvals).bind fun objs hobjs =>
        hnative.code s objs hobjs
  rw [callNative]
  split
  · exact (keeps_newScope s _).bind fun s _ => hrun s
  · exact hrun s

variable {N : Natives H} (hN : N.Clean)
include hN

theorem keeps_call (f : Callee) (s : ℕ) : Keeps Obj.Clean (call N f self s args) := by
  cases f with
  | closure f => exact keeps_callClosure hself hargs f s
  | native name =>
    rw [call]
    split
    case h_1 native hnative => exact keeps_callNative hself hargs (hN name native hnative) s
    case h_2 => exact keeps_raise _

omit hself in
theorem keeps_callObject (name : Bytes) {obj : Obj} (hobj : obj.Clean) (s : ℕ) :
    Keeps Obj.Clean (callObject N name obj s args) := by
  cases obj with
  | func f => exact keeps_call (fun _ h => by cases h) hargs hN f s
  | member f =>
    refine keeps_call ?_ hargs hN f s
    rintro _ ⟨⟩
    exact hobj
  | _ => exact keeps_raise _

end call

/-! ## The parts of an expression -/

section den

structure CompDen.Clean (comp : CompDen H) : Prop where
  expr : CleanExp comp.expr
  second : ∀ x ∈ comp.second, CleanExp x.2
  cond : ∀ e ∈ comp.cond, CleanExp e

structure ListDen.Clean (l : ListDen H) : Prop where
  values : ∀ e ∈ l.values, CleanExp e
  comprehension : ∀ comp ∈ l.comprehension, comp.Clean

structure DictDen.Clean (d : DictDen H) : Prop where
  items : ∀ item ∈ d.items, CleanExp item.1 ∧ CleanExp item.2
  comprehension : ∀ comp ∈ d.comprehension, comp.Clean

structure SliceDen.Clean (sl : SliceDen H) : Prop where
  start : ∀ e ∈ sl.start, CleanExp e
  stop : ∀ e ∈ sl.stop, CleanExp e

def LitDen.Clean : LitDen H → Prop
  | .exp e => CleanExp e
  | .list l => l.Clean

def CleanAction (action : ActionDen H) : Prop :=
  ∀ s x, x.2.Clean → Keeps (fun y => y.2.Clean) (action s x)

def CleanArgs (args : Args H) : Prop := ∀ arg ∈ args, CleanExp arg.2

def IdentDen.Clean (ident : IdentDen H) : Prop := ∀ action ∈ ident.actions, CleanAction action

structure ValDen.Clean (val : ValDen H) : Prop where
  literal : val.literal.Clean
  slices : ∀ sl ∈ val.slices, sl.Clean
  property : ∀ ident ∈ val.property, ident.Clean
  call : ∀ args ∈ val.call, CleanArgs args

theorem keeps_interpretIdent {ident : IdentDen H} (h : ident.Clean) (s : ℕ) {obj : Obj}
    (hobj : obj.Clean) : Keeps Obj.Clean (interpretIdent ident s obj) := by
  have hfold : Keeps (fun x : Bytes × Obj => x.2.Clean)
      (ident.actions.foldlM (fun nameObj action => action s nameObj) (ident.name, obj)) :=
    .foldlM (fun action haction x hx => h action haction s x hx) hobj
  exact hfold.bind fun x hx => .pure hx

variable (R : Runtime H)

theorem keeps_property (obj : Obj) (name : Bytes) :
    Keeps Obj.Clean (readOr (property R obj name)) :=
  keeps_readOr fun _ _ hst hx => hst.property hx

theorem cleanAction_property {ident : IdentDen H} (h : ident.Clean) :
    CleanAction (propertyAction R ident) := by
  rintro s ⟨name, obj⟩ -
  refine (keeps_property R obj ident.name).bind fun obj hobj => ?_
  exact (keeps_interpretIdent h s hobj).bind fun obj hobj => .pure hobj

theorem cleanAction_call {N : Natives H} (hN : N.Clean) {args : Args H} (hargs : CleanArgs args) :
    CleanAction (callAction N args) := by
  rintro s ⟨name, obj⟩ hobj
  exact (keeps_callObject hargs hN name hobj s).bind fun obj hobj => .pure hobj

theorem keeps_interpretSliceExpression (s : ℕ) (obj : Obj) {e : Option (Exp H)}
    (he : ∀ x ∈ e, CleanExp x) (dflt : ℤ) :
    Keeps (fun _ => True) (interpretSliceExpression R s obj e dflt) := by
  cases e with
  | none => exact .pure trivial
  | some e => exact (he e rfl s).bind fun _ _ => keeps_readOr fun _ _ _ _ => trivial

theorem keeps_interpretSuffix {R : Runtime H} (hR : R.Clean) (s : ℕ) {obj : Obj} (hobj : obj.Clean)
    {sl : SliceDen H} (hsl : sl.Clean) : Keeps Obj.Clean (interpretSuffix R s obj sl) := by
  rw [interpretSuffix]
  split
  · refine (keeps_interpretSliceExpression R s obj hsl.start 0).bind fun start _ => ?_
    split
    case h_3 => exact keeps_raise _
    -- a string and a list
    all_goals
      refine (keeps_interpretSliceExpression R s _ hsl.stop _).bind fun stop _ => ?_
      exact (keeps_readOr (Q := fun _ => True) fun _ _ _ _ => trivial).bind fun _ _ =>
        .pure trivial
  · split
    · exact keeps_raise _
    · refine (keeps_evalOperand s hsl.start).bind fun index hindex => ?_
      exact keeps_readOr fun _ _ hst hx => hst.operatorIndex hR hobj hindex hx

theorem keeps_setAll (s : ℕ) (names : List Bytes) {objs : List Obj} (h : ∀ obj ∈ objs, obj.Clean) :
    Keeps (fun _ => True) (setAll s names objs : P H Unit) := by
  induction names generalizing objs with
  | nil => exact .pure trivial
  | cons name _ ih =>
    cases objs with
    | nil => exact .pure trivial
    | cons obj =>
      exact (keeps_set s name (h obj mem_cons_self)).bind fun _ _ =>
        ih (forall_mem_cons.mp h).2

theorem keeps_unpackNames (s : ℕ) (names : List Bytes) {obj : Obj} (hobj : obj.Clean) :
    Keeps (fun _ => True) (unpackNames s names obj : P H Unit) := by
  rw [unpackNames.eq_def]
  split
  · exact keeps_set s _ hobj
  · split
    case h_1 l =>
      split
      · exact (keeps_read fun st hst => hst.contents l).bind fun objs hobjs =>
          keeps_setAll s _ hobjs
      · exact keeps_raise _
    case h_2 => exact keeps_raise _

section comprehension

variable {α : Type} {Q : α → Prop} {callback : α → P H α}
  (hcallback : ∀ a, Q a → Keeps Q (callback a))
include hcallback

theorem keeps_comprehensionTurn (cs : ℕ) {cond : Option (Exp H)} (hcond : ∀ e ∈ cond, CleanExp e)
    (names : List Bytes) {a : α} (ha : Q a) {li : Obj} (hli : li.Clean) :
    Keeps (fun x => Q x.1) (comprehensionTurn cs cond callback names a li) := by
  have heval : Keeps (fun _ => True) (evaluateComprehensionExpression cs cond names li) := by
    refine (keeps_unpackNames cs names hli).bind fun _ _ => ?_
    cases cond with
    | none => exact .pure trivial
    | some e => exact (hcond e rfl cs).bind fun obj _ => keeps_truthy obj
  refine heval.bind fun b _ => ?_
  cases b with
  | true => exact (hcallback a ha).bind fun a ha => .pure ha
  | false => exact .pure ha

theorem keeps_evaluateComprehension (cs : ℕ) (it : Obj) {comp : CompDen H}
    (hcomp : comp.Clean) {a : α}
    (ha : Q a) : Keeps Q (evaluateComprehension cs it comp callback a) := by
  obtain ⟨names, expr, second, cond⟩ := comp
  have hturn (names : List Bytes) (it : Obj) {a : α} (ha : Q a) :
      Keeps Q (iterate it (comprehensionTurn cs cond callback names) a) :=
    keeps_iterate (fun a obj ha hobj =>
      keeps_comprehensionTurn hcallback cs hcomp.cond names ha hobj) it ha
  cases second with
  | none => exact hturn names it ha
  | some second =>
    obtain ⟨names2, expr2⟩ := second
    refine keeps_iterate (fun a obj ha hobj => ?_) it ha
    refine (keeps_unpackNames cs names hobj).bind fun _ _ => ?_
    refine (hcomp.second (names2, expr2) rfl cs).bind fun it2 _ => ?_
    refine (keeps_assertOr _ _).bind fun _ _ => (hturn names2 it2 ha).bind fun a ha => ?_
    exact .pure ha

end comprehension

theorem keeps_evaluateExpressions (s : ℕ) {es : List (Exp H)} (hes : ∀ e ∈ es, CleanExp e) :
    Keeps (fun objs => ∀ obj ∈ objs, obj.Clean) (evaluateExpressions s es) := by
  induction es with
  | nil => exact .pure (forall_mem_nil _)
  | cons e es ih =>
    refine (hes e mem_cons_self s).bind fun obj hobj => ?_
    refine (ih (forall_mem_cons.mp hes).2).bind fun objs hobjs => ?_
    exact .pure (forall_mem_cons.mpr ⟨hobj, hobjs⟩)

theorem keeps_evaluateList (s : ℕ) {es : List (Exp H)} (hes : ∀ e ∈ es, CleanExp e) :
    Keeps Obj.Clean (evaluateList s es) :=
  (keeps_evaluateExpressions s hes).bind fun _ hobjs =>
    (keeps_allocList hobjs 0).bind fun _ _ => .pure trivial

theorem keeps_comprehensionStart {comp : CompDen H} (hcomp : comp.Clean) (s : ℕ) :
    Keeps (fun _ => True) (comprehensionStart comp s) :=
  (keeps_newScope s _).bind fun _ _ => (hcomp.expr s).bind fun _ _ =>
    (keeps_assertOr _ _).bind fun _ _ => .pure trivial

variable {l : ListDen H}

variable (R : Runtime H)

theorem keeps_listItems (hl : l.Clean) (s : ℕ) :
    Keeps (fun x => ∀ obj ∈ x.1, obj.Clean) (listItems R l s) := by
  obtain ⟨values, comprehension⟩ := l
  have hempty : ∀ obj ∈ ([] : List Obj), obj.Clean := forall_mem_nil _
  cases comprehension with
  | none => exact (keeps_evaluateExpressions s hl.values).bind fun _ h => .pure h
  | some comp =>
    have hcomp := hl.comprehension comp rfl
    refine (keeps_comprehensionStart hcomp s).bind fun x _ => ?_
    obtain ⟨cs, it⟩ := x
    refine (keeps_capHint it).bind fun cap _ => ?_
    refine (keeps_evaluateComprehension (fun objs hobjs => ?_) cs it hcomp hempty).bind fun _ h =>
      .pure h
    have hvalue : Keeps Obj.Clean (comprehensionValue cs values) := by
      rw [comprehensionValue.eq_def]
      split
      · exact hl.values _ mem_cons_self cs
      · exact keeps_evaluateList cs hl.values
    refine hvalue.bind fun obj hobj => ?_
    exact .pure (forall_mem_append.mpr ⟨hobjs, forall_mem_singleton.mpr hobj⟩)

theorem keeps_interpretList (hl : l.Clean) (s : ℕ) : Keeps (fun _ => True) (interpretList R l s) :=
  (keeps_listItems R hl s).bind fun x hx => keeps_allocList hx x.2

theorem keeps_interpretJoin (base : Bytes) (hl : l.Clean) (s : ℕ) :
    Keeps Obj.Clean (interpretJoin base l s) := by
  have hvalue (s : ℕ) (b : Option Bytes) {e : Exp H} (he : CleanExp e) :
      Keeps (fun _ => True) (joinValue base s b e) := by
    refine (he s).bind fun y _ => ?_
    cases y with
    | str => exact .pure trivial
    | _ => exact keeps_raise _
  have hitems : Keeps (fun _ => True) (joinItems base l s) := by
    obtain ⟨values, comprehension⟩ := l
    cases comprehension with
    | none => exact .foldlM (fun e he b _ => hvalue s b (hl.values e he)) trivial
    | some comp =>
      have hcomp := hl.comprehension comp rfl
      refine (keeps_comprehensionStart hcomp s).bind fun x _ => ?_
      refine keeps_evaluateComprehension (fun b _ => hvalue x.1 b ?_) x.1 x.2 hcomp trivial
      cases values with
      | nil => exact fun _ => keeps_raise _
      | cons e => exact hl.values e mem_cons_self
  exact hitems.bind fun _ _ => .pure trivial

theorem keeps_interpretDict {d : DictDen H} (hd : d.Clean) (s : ℕ) :
    Keeps Obj.Clean (interpretDict d s) := by
  have hitem (dict s : ℕ) {item : Exp H × Exp H} (h : CleanExp item.1 ∧ CleanExp item.2) :
      Keeps (fun _ => True) (interpretItem dict s item) :=
    (h.1 s).bind fun key _ => (h.2 s).bind fun value hvalue => keeps_indexAssign _ key hvalue
  obtain ⟨items, comprehension⟩ := d
  cases comprehension with
  | none =>
    refine keeps_allocDict.bind fun dict _ => ?_
    exact (Prog.Meets.forM fun item h => hitem dict s (hd.items item h)).bind fun _ _ =>
      .pure trivial
  | some comp =>
    have hcomp := hd.comprehension comp rfl
    refine (keeps_comprehensionStart hcomp s).bind fun x _ => ?_
    refine (keeps_lenHint x.2).bind fun _ _ => keeps_allocDict.bind fun dict _ => ?_
    refine (keeps_evaluateComprehension (fun _ _ => hitem dict x.1 ?_) x.1 x.2 hcomp trivial).bind
      fun _ _ => .pure trivial
    cases items with
    | nil => exact ⟨fun _ => keeps_raise _, fun _ => .pure trivial⟩
    | cons item => exact hd.items item mem_cons_self

theorem keeps_interpretTuple (hl : l.Clean) (s : ℕ) : Keeps Obj.Clean (interpretTuple R l s) := by
  refine (keeps_interpretList R hl s).bind fun t _ => ?_
  split
  · exact .pure trivial
  · refine keeps_read fun st hst => ?_
    split
    case h_1 obj hobj => exact hst.contents t obj (hobj ▸ mem_cons_self)
    case h_2 => trivial

theorem keeps_interpretFString (f : FString) (s : ℕ) :
    Keeps Obj.Clean (interpretFString R f s) := by
  have hvar (v : FStringVar) : Keeps (fun _ => True) (stringVar R s v : P H Bytes) := by
    have hrest {obj : Obj} (hobj : obj.Clean) : Keeps (fun _ => True) (do
        let obj ← v.var.tail.foldlM (fun obj key => readOr (property R obj key)) obj
        readOr fun st => R.toStr st obj : P H Bytes) := by
      have hfold : Keeps Obj.Clean
          (v.var.tail.foldlM (fun obj key => readOr (property R obj key)) obj : P H Obj) :=
        .foldlM (fun key _ obj _ => keeps_property R obj key) hobj
      exact hfold.bind fun _ _ => keeps_readOr fun _ _ _ _ => trivial
    rw [stringVar]
    split
    · exact keeps_raise _
    · exact (keeps_lookup s _).bind fun obj hobj => hrest hobj
  have hcheck : Keeps (fun _ => True) (f.vars.forM fun v => do
      let _ ← stringVar R s v
      pure () : P H PUnit) :=
    .forM fun v _ => (hvar v).bind fun _ _ => .pure trivial
  refine hcheck.bind fun _ _ => ?_
  have hfold : Keeps (fun _ => True) (f.vars.foldlM (fun b v => do
      let text ← stringVar R s v
      pure (b ++ v.before ++ text)) [] : P H Bytes) :=
    .foldlM (fun v _ b _ => (hvar v).bind fun _ _ => .pure trivial) trivial
  exact hfold.bind fun _ _ => .pure trivial

theorem keeps_interpretLiteral {lit : LitDen H} (hlit : lit.Clean) (s : ℕ) :
    Keeps Obj.Clean (interpretLiteral R lit s) := by
  cases lit with
  | exp => exact hlit s
  | list l =>
    have hlist : Keeps (fun _ => True) (listValue R l s) := by
      rw [listValue]
      split
      · exact .pure trivial
      · exact keeps_interpretList R hlit s
    exact hlist.bind fun _ _ => .pure trivial

end den

section values

variable {R : Runtime H} (hR : R.Clean) {N : Natives H} (hN : N.Clean)
include hR hN

theorem keeps_interpretValueExpression {val : ValDen H} (hval : val.Clean) (s : ℕ) :
    Keeps Obj.Clean (interpretValueExpression R N val s) := by
  refine (keeps_interpretLiteral R hval.literal s).bind fun obj hobj => ?_
  have hslices : Keeps Obj.Clean (val.slices.foldlM (interpretSuffix R s) obj) :=
    .foldlM (fun sl hsl obj hobj =>
      keeps_interpretSuffix hR s hobj (hval.slices sl hsl)) hobj
  refine hslices.bind fun obj hobj => ?_
  obtain ⟨literal, slices, property, call⟩ := val
  cases property with
  | some ident =>
    refine (keeps_property R obj ident.name).bind fun obj hobj => ?_
    exact keeps_interpretIdent (hval.property ident rfl) s hobj
  | none =>
    cases call with
    | some args => exact keeps_callObject (hval.call args rfl) hN [] hobj s
    | none => exact .pure hobj

theorem keeps_interpretExpression {optimised : Option Optimised}
    (hopt : ∀ obj, optimised = some (.constant obj) → obj.Clean) {val : ValDen H} (hval : val.Clean)
    {ops : List (OpDen H)} (hops : ∀ op ∈ ops, ∀ e ∈ op.2, CleanExp e)
    {inlineIf : Option (Exp H × Exp H)} (hif : ∀ x ∈ inlineIf, CleanExp x.1 ∧ CleanExp x.2) :
    CleanExp (interpretExpression R N optimised val ops inlineIf) := by
  intro s
  cases optimised with
  | some o =>
    cases o with
    | constant obj => exact .pure (hopt obj rfl)
    | localVar name => exact keeps_lookup s name
    | config =>
      refine keeps_readOr fun st x hst hx => ?_
      split at hx
      · exact hst.configProperty hx
      · cases hx
    | join =>
      refine keeps_interpretJoin _ ?_ s
      have hlit := hval.literal
      rw [ValDen.list]
      split
      case h_1 l hl =>
        rw [hl] at hlit
        exact hlit
      case h_2 => exact ⟨forall_mem_nil _, fun _ h => by cases h⟩
  | none =>
    have hplain : Keeps Obj.Clean (interpretExpression R N none val ops none s) := by
      refine (keeps_interpretValueExpression hR hN hval s).bind fun obj hobj => ?_
      split
      · exact .pure hobj
      · exact keeps_interpretOps hR s hobj hops
    cases inlineIf with
    | none => exact hplain
    | some x =>
      obtain ⟨hcond, hotherwise⟩ := hif x rfl
      refine (hcond s).bind fun obj _ => (keeps_truthy obj).bind fun b _ => ?_
      cases b with
      | true => exact hplain
      | false => exact hotherwise s

/-! ## Syntax trees -/

omit hR hN in
theorem annotated_argDefault {arg : Node Ann .argument} (h : Annotated Ann.Clean arg) :
    ∀ e ∈ argDefault arg, Annotated Ann.Clean e := by
  intro e he
  cases arg with
  | argument _ _ _ value =>
    cases value with
    | absent => cases he
    | present =>
      obtain ⟨-, heq⟩ := ite_none_left_eq_some.mp he
      rw [← some.inj heq]
      exact h

omit hR hN in
theorem keeps_constantDefault (s : ℕ) (arg : Node Ann .argument) {val : Option (Exp H)}
    (hval : ∀ e ∈ val, CleanExp e) :
    Keeps (fun o => ∀ obj ∈ o, obj.Clean) (constantDefault s arg val) := by
  have hnone : ∀ obj ∈ (none : Option Obj), obj.Clean := fun _ h => by cases h
  cases arg with
  | argument _ _ _ value =>
    cases value with
    | absent => exact .pure hnone
    | present e =>
      cases val with
      | none => exact .pure hnone
      | some val =>
        change Keeps _ (if isConstant e then val s >>= fun obj => pure (some obj) else pure none)
        split
        · refine (hval val rfl s).bind fun obj hobj => .pure ?_
          rintro _ ⟨⟩
          exact hobj
        · exact .pure hnone

omit hR hN in
theorem keeps_newPyFunc (s : ℕ) (name : Bytes) {arguments : List (Node Ann .argument)}
    (hargs : ∀ arg ∈ arguments, Annotated Ann.Clean arg) {vals : List (Option (Exp H))}
    (hvals : ∀ val ∈ vals, ∀ e ∈ val, CleanExp e) {code : List (Syntax.Statement Ann)}
    (hcode : Placed Ann.Clean false code) (returnType : Bytes) :
    Keeps Obj.Clean (newPyFunc s name arguments vals code returnType : P H Obj) := by
  have hconst : Keeps CleanVals
      ((arguments.zip vals).mapM fun x => constantDefault s x.1 x.2) :=
    (Prog.post (contract H)).mapM fun x hx =>
      keeps_constantDefault s x.1 (hvals x.2 (of_mem_zip hx).2)
  refine hconst.bind fun constants hconstants => ?_
  have hclosure : (newClosure s name arguments constants code returnType).Clean :=
    { sig := hconstants
      defaults := forall_mem_map.mpr fun arg harg => annotated_argDefault (hargs arg harg)
      code := hcode }
  exact (keeps_ask (.define _) hclosure).bind fun f _ => .pure trivial

/-- What the nodes of each kind do. -/
def CleanDen : (k : Kind) → Den H k → Prop
  | .expression, e => CleanExp e
  | .opExpression, op => ∀ e ∈ op.2, CleanExp e
  | .inlineIf, x => CleanExp x.1 ∧ CleanExp x.2
  | .valueExpression, val => val.Clean
  | .literal, lit => lit.Clean
  | .identExpr, ident => ident.Clean
  | .identExprAction, action => CleanAction action
  | .call, args => CleanArgs args
  | .callArgument, arg => CleanExp arg.2
  | .list, l => l.Clean
  | .dict, d => d.Clean
  | .dictItem, item => CleanExp item.1 ∧ CleanExp item.2
  | .slice, sl => sl.Clean
  | .comprehension, comp => comp.Clean
  | .secondComprehension, x => CleanExp x.2
  | .lambda, e => CleanExp e
  | .argument, val => (fun (o : Option (Exp H)) => ∀ e ∈ o, CleanExp e) val
  | .listOf k, l => (fun (xs : List (Den H k)) => ∀ x ∈ xs, CleanDen k x) l
  | .optional k, o => (fun (o : Option (Den H k)) => ∀ x ∈ o, CleanDen k x) o

/-- What a node does whose annotations hold no sentinel. -/
theorem cleanDen_denote {k : Kind} {node : Node Ann k} (h : Annotated Ann.Clean node) :
    CleanDen k (denote R N node) := by
  induction node with
  | nil => exact forall_mem_nil _
  | cons _ _ ihh iht => exact forall_mem_cons.mpr ⟨ihh h.1, iht h.2⟩
  | absent => exact fun _ hx => by cases hx
  | present _ ih =>
    rintro _ ⟨⟩
    exact ih h
  | expression _ _ _ op _ ihv iho ihi =>
    exact keeps_interpretExpression hR hN h.1 (ihv h.2.1) (iho h.2.2.1) (ihi h.2.2.2)
  | opExpression op expr ih | listLiteral l ih | lambdaLiteral l ih
  | identExpr pos endPos name action ih | call arguments ih | callArgument pos name value ih
  | secondComprehension names expr ih | argument name type aliases value isPrivate ih => exact ih h
  | inlineIf _ _ ihc iho => exact ⟨ihc h.1, iho h.2⟩
  | valueExpression _ _ _ _ ihl ihs ihp ihc =>
    exact ⟨ihl h.1, ihs h.2.1, ihp h.2.2.1, ihc h.2.2.2⟩
  | string s | true_ | false_ | none_ | int i => exact fun _ => .pure trivial
  | fString f => exact keeps_interpretFString R f
  | dictLiteral d ih => exact keeps_interpretDict (ih h)
  | tupleLiteral l ih => exact keeps_interpretTuple R (ih h)
  | ident i ih =>
    exact fun s => (keeps_lookup s _).bind fun obj hobj => keeps_interpretIdent (ih h) s hobj
  | propertyAction _ ih => exact cleanAction_property R (ih h)
  | callAction _ ih => exact cleanAction_call hN (ih h)
  | list _ _ ihv ihc => exact ⟨ihv h.1, ihc h.2⟩
  | dict _ _ ihi ihc => exact ⟨ihi h.1, ihc h.2⟩
  | dictItem _ _ ihk ihv => exact ⟨ihk h.1, ihv h.2⟩
  | slice _ _ _ ihs iht => exact ⟨ihs h.1, iht h.2⟩
  | comprehension _ _ _ _ ihe ihs ihc => exact ⟨ihe h.1, ihs h.2.1, ihc h.2.2⟩
  | lambda _ _ iha =>
    intro s
    refine keeps_newPyFunc s _ (fun arg harg => annotated_of_mem_toList h.1 harg) (iha h.1) ?_ _
    exact ⟨forall_mem_singleton.mpr h.2, trivial⟩

end values

end Please.Asp.Interp
