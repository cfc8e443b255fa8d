import Please.Asp.Objects

/-!
# Steps and calls of the interpreter

What an expression or a statement of the BUILD language does is a program (`Please.Lib.Prog`): here
are its primitive steps, the operators and the calls of functions (`src/parse/asp/interpreter.go`,
lines 685–801 and 1060–1100; `src/parse/asp/objects.go`, lines 694–869). Calling a function with
code is a request, so is defining one; who answers it has the functions.

An expression carries what the optimiser left on it in its annotation. Left out are the stack frames
that errors gather, and the metadata that scopes keep for the package.
-/

namespace Please.Asp.Interp

open Please.Fs (Bytes)
open Please.Build (utf8)
open Please.Lib Prog
open Please.Asp.Syntax

/-! ## Annotated syntax -/

/-- `optimisedExpression`. For a join the list stands in the place of the value. -/
inductive Optimised
  | constant (obj : Obj)
  | localVar (name : Bytes)
  | config (name : Bytes)
  | join (base : Bytes)

/-- What stands at an expression beside its parts. -/
structure Ann where
  pos : ℕ
  optimised : Option Optimised := none

/-! ## Functions -/

/-- What a call reads of a `pyFunc`; there is a name and a type for each argument, and a constant or
another default for those that have one. -/
structure Signature where
  name : Bytes
  args : List Bytes
  argIndices : List (Bytes × ℕ)
  types : List (List Bytes)
  constants : List (Option Obj)
  hasDefault : List Bool
  varargs : Bool := false
  kwargs : Bool := false
  kwargsonly : Bool := false

/-- A `pyFunc` with code. -/
structure Closure where
  sig : Signature
  scope : ℕ
  defaults : List (Option (Syntax.Expression Ann))
  code : List (Syntax.Statement Ann)
  returnType : Bytes

/-- What the interpreter asks for: a new function; what a call reads of one, with the scope that it
was defined in and its return type; the value of a default; to run its code in a scope; how many
times a loop may go round yet; and nothing, when it went round too often. -/
inductive Request
  | define (c : Closure)
  | signature (f : ℕ)
  | default (f i s : ℕ)
  | body (f s : ℕ)
  | fuel
  | stuck

@[reducible] def Answer : Request → Type
  | .define _ => ℕ
  | .signature _ => Signature × ℕ × Bytes
  | .default _ _ _ => Obj
  | .body _ _ => Option Obj
  | .fuel => ℕ
  | .stuck => Empty

variable {H : Type}

/-- A program of the interpreter. -/
abbrev P (H : Type) := Prog Answer (Store H) Bytes

/-- What an expression does in a scope. -/
abbrev Exp (H : Type) := ℕ → P H Obj

/-- A `pyFunc` with native code. -/
structure Native (H : Type) where
  sig : Signature
  defaults : List (Option (Exp H))
  code : ℕ → List Obj → P H Obj

/-- The native functions. -/
abbrev Natives (H : Type) := Bytes → Option (Native H)

/-! ## Primitive steps -/

def raise {α : Type} (msg : Bytes) : P H α := .fail msg

/-- The panic of Go's runtime for a nil pointer. -/
def nilDereference : Bytes :=
  utf8 "runtime error: invalid memory address or nil pointer dereference"

def ask (q : Request) : P H (Answer q) := Prog.ask q

/-- Read the store. -/
def read {α : Type} (f : Store H → α) : P H α := .get fun st => .ret (f st)

/-- Read the store, or fail. -/
def readOr {α : Type} (f : Store H → Except Bytes α) : P H α :=
  act fun st => (f st).map fun a => (a, st)

theorem run_readOr {α : Type} (f : Store H → Except Bytes α)
    (answer : Handler Answer (Store H) (List Closure) Bytes) (st : Store H)
    (fs : List Closure) : (readOr f).run answer (st, fs) = (.ofExcept (f st), st, fs) := by
  cases h : f st <;> simp only [readOr, act, run, h] <;> rfl

theorem run_readOr_ok {α : Type} {f : Store H → Except Bytes α} {a : α} {st : Store H}
    (h : f st = .ok a) (answer : Handler Answer (Store H) (List Closure) Bytes)
    (fs : List Closure) : (readOr f).run answer (st, fs) = (.ok a, st, fs) := by
  rw [run_readOr, h]
  rfl

/-- The program ends with this value or this error, and changes nothing. -/
def Evaluates {α : Type} (st : Store H) (p : P H α) (x : Except Bytes α) : Prop :=
  ∀ (answer : Handler Answer (Store H) (List Closure) Bytes) (fs : List Closure),
    p.run answer (st, fs) = (.ofExcept x, st, fs)

/-- For programs that ask nothing of the interpreter. -/
def noAnswer : Handler Answer (Store H) (List Closure) Bytes := fun _ w => (.diverged, w)

namespace Evaluates

variable {α β : Type} {st : Store H} {p : P H α} {x : Except Bytes α} {a : α}

theorem unique {y : Except Bytes α} (hx : Evaluates st p x) (hy : Evaluates st p y) : x = y := by
  have hout := congrArg Prod.fst ((hx noAnswer []).symm.trans (hy noAnswer []))
  cases x <;> cases y <;> simp_all [Outcome.ofExcept]

theorem pure (a : α) (st : Store H) : Evaluates st (Pure.pure a) (.ok a) := fun _ _ => rfl

variable {f : α → P H β}

theorem bind {y : Except Bytes β} (hp : Evaluates st p (.ok a))
    (hf : Evaluates st (f a) y) : Evaluates st (p >>= f) y := by
  intro answer fs
  rw [run_bind, hp answer fs]
  exact hf answer fs

theorem bind_error {e : Bytes} (hp : Evaluates st p (.error e)) :
    Evaluates st (p >>= f) (.error e) := by
  intro answer fs
  rw [run_bind, hp answer fs]
  rfl

theorem seq {g : α → Except Bytes β} (hp : Evaluates st p x)
    (hf : ∀ a, Evaluates st (f a) (g a)) : Evaluates st (p >>= f) (x >>= g) := by
  cases x with
  | ok a => exact hp.bind (hf a)
  | error => exact hp.bind_error

theorem map (f : α → β) (hp : Evaluates st p x) :
    Evaluates st (p >>= fun a => Pure.pure (f a)) (x.map f) := by
  have h := hp.seq fun a => pure (f a) st
  cases x <;> exact h

theorem foldlM {f : β → α → P H β} {g : β → α → Except Bytes β}
    (hf : ∀ b a, Evaluates st (f b a) (g b a)) (as : List α) (b : β) :
    Evaluates st (as.foldlM f b) (as.foldlM g b) := by
  induction as generalizing b with
  | nil => exact pure b st
  | cons a as ih => exact (hf b a).seq ih

end Evaluates

theorem evaluates_readOr {α : Type} (f : Store H → Except Bytes α) (st : Store H) :
    Evaluates st (readOr f) (f st) := fun answer fs => run_readOr f answer st fs

/-- Change the store. -/
def modifyStore (f : Store H → Store H) : P H Unit := act fun st => .ok ((), f st)

/-- Assert. -/
def assertOr (c : Bool) (msg : Bytes) : P H Unit := if c then pure () else raise msg

def truthy (obj : Obj) : P H Bool := read fun st => isTruthy st obj

/-- `scope.Lookup`. -/
def lookup (s : ℕ) (name : Bytes) : P H Obj := readOr fun st => st.lookup s name

/-- `scope.Set`. -/
def set (s : ℕ) (name : Bytes) (obj : Obj) : P H Unit := modifyStore fun st => st.set s name obj

/-- A new scope. -/
def addScope (f : Store H → Scope) : P H ℕ :=
  act fun st => .ok (st.scopes.length, { st with scopes := st.scopes ++ [f st] })

/-- The scope `s` of the store. -/
def Store.scope (st : Store H) (s : ℕ) : Scope :=
  st.scopes.getD s ⟨none, [], .none, [], [], false⟩

/-- `scope.NewScope`. -/
def newScope (s : ℕ) (filename : Store H → Bytes) : P H ℕ :=
  addScope fun st => { st.scope s with parent := some s, locals := [], filename := filename st }

/-- A new array. -/
def allocList (objs : List Obj) (room : ℕ) : P H Slice :=
  act fun st =>
    let (l, arrays) := Slice.alloc st.arrays objs room
    .ok (l, { st with arrays })

/-! ## Iteration -/

/-- `range` over the elements of a slice: the header is read once, each element when its turn comes.
`n` elements are left, from place `i` on. The body says whether to go on. -/
def forSlice {α : Type} (l : Slice) (body : α → Obj → P H (α × Bool)) : (n i : ℕ) → α → P H α
  | 0, _, a => pure a
  | n + 1, i, a => do
    let li ← read fun st => (l.contents st.arrays).getD i default
    let (a, more) ← body a li
    if more then forSlice l body n (i + 1) a else pure a

/-- `pyRange.Iter`, with at most `n` items. -/
def forRange {α : Type} (stop step : Int64) (body : α → Obj → P H (α × Bool)) :
    (n : ℕ) → (i : Int64) → α → P H α
  | 0, i, a => if i < stop then .request .stuck fun e => Empty.elim e else pure a
  | n + 1, i, a =>
    if i < stop then do
      let (a, more) ← body a (.int i)
      if more then forRange stop step body n (i + step) a else pure a
    else pure a

/-- Whether an object is iterable. -/
def isIterable : Obj → Bool
  | .list _ | .frozenList _ | .range _ _ _ => true
  | _ => false

/-- `scope.iterable`, for the value of the expression (lines 1060–1065). -/
def iterable (obj : Obj) : P H Unit :=
  assertOr (isIterable obj) (utf8 "Non-iterable type " ++ obj.type)

/-- The loop over an iterable object. -/
def iterate {α : Type} (obj : Obj) (body : α → Obj → P H (α × Bool)) (a : α) : P H α :=
  match obj with
  | .list l | .frozenList l => forSlice l body l.len 0 a
  | .range start stop step => do
    let n : ℕ ← ask .fuel
    forRange stop step body n start a
  | _ => pure a

/-- The length hint of `scope.iterableLen` (lines 1068–1076). -/
def lenHint (obj : Obj) : P H ℤ :=
  match obj with
  | .list l | .frozenList l => pure l.len
  | .range start stop step =>
    if step = 0 then raise (utf8 "runtime error: integer divide by zero")
    else pure ((stop - start) / step).toInt
  | _ => pure 4

/-- The capacity of a slice with that hint: a negative one makes no slice. -/
def capHint (obj : Obj) : P H ℕ := do
  let l ← lenHint obj
  if l < 0 then raise (utf8 "runtime error: makeslice: cap out of range") else pure l.toNat

section like

variable {T : List Closure → List Closure → Prop}
  {answer answer' : Handler Answer (Store H) (List Closure) Bytes}
  (hanswer : AnswersAlike T answer answer') {α β : Type} {V : α → β → Prop}
  {body : α → Obj → P H (α × Bool)} {body' : β → Obj → P H (β × Bool)}

/-- One turn of two loops: both go on, or neither does. -/
def SameTurn (V : α → β → Prop) (x : α × Bool) (y : β × Bool) : Prop := V x.1 y.1 ∧ x.2 = y.2

include hanswer

section

variable (h : ∀ a b li, V a b → Like T answer answer' (SameTurn V) (body a li) (body' b li))

include h

theorem forSlice_like (l : Slice) (n i : ℕ) {a : α} {b : β} (hab : V a b) :
    Like T answer answer' V (forSlice l body n i a) (forSlice l body' n i b) := by
  induction n generalizing i a b with
  | zero => exact .pure hab
  | succ n ih =>
    refine .bind_refl hanswer _ fun li => (h a b li hab).bind fun x y hxy => ?_
    obtain ⟨a, more⟩ := x
    obtain ⟨b, more'⟩ := y
    obtain ⟨hab, rfl⟩ : V a b ∧ more = more' := hxy
    cases more with
    | true => exact ih (i + 1) hab
    | false => exact .pure hab

theorem forRange_like (stop step : Int64) (n : ℕ) (i : Int64) {a : α} {b : β} (hab : V a b) :
    Prog.Like T answer answer' V (forRange stop step body n i a)
      (forRange stop step body' n i b) := by
  induction n generalizing i a b with
  | zero =>
    rw [forRange, forRange]
    split
    · exact .bind_refl hanswer (ask .stuck) fun e => e.elim
    · exact .pure hab
  | succ n ih =>
    rw [forRange, forRange]
    split
    · refine (h a b _ hab).bind fun x y hxy => ?_
      obtain ⟨a, more⟩ := x
      obtain ⟨b, more'⟩ := y
      obtain ⟨hab, rfl⟩ : V a b ∧ more = more' := hxy
      cases more with
      | true => exact ih (i + step) hab
      | false => exact .pure hab
    · exact .pure hab

/-- If the turns of two loops over one object are alike, so are the loops. -/
theorem iterate_like (it : Obj) {a : α} {b : β} (hab : V a b) :
    Like T answer answer' V (iterate it body a) (iterate it body' b) := by
  cases it with
  | list l | frozenList l => exact forSlice_like hanswer h l _ _ hab
  | range start stop step =>
    exact .bind_refl hanswer _ fun n => forRange_like hanswer h stop step n start hab
  | _ => exact .pure hab

end

end like

/-! ## Operators -/

variable (R : Runtime H)

/-- An operator with what its operand does. -/
abbrev OpDen (H : Type) := Operator × Option (Exp H)

/-- `interpretExpression` of the expression of an operator. -/
def evalOperand (s : ℕ) : Option (Exp H) → P H Obj
  | some e => e s
  | none => raise nilDereference

/-- `scope.negate` (lines 796–801). -/
def negate (obj : Obj) : P H Obj := read fun st => .bool !isTruthy st obj

/-- `scope.interpretIs` (lines 781–794), for the value of the operand. -/
def interpretIs : Obj → Obj → Obj
  | .none, .none => .bool true
  | .bool b, .bool b' => .bool (b = b')
  | _, _ => .bool false

/-- `scope.interpretOp` (lines 709–738). -/
def interpretOp (s : ℕ) (obj : Obj) (op : OpDen H) : P H Obj :=
  match op.1 with
  | .and => do if ← truthy obj then evalOperand s op.2 else pure obj
  | .or => do if ← truthy obj then pure obj else evalOperand s op.2
  | .not => negate obj
  | .equal => do
    let operand ← evalOperand s op.2
    read fun st => .bool (R.deepEqual st obj operand)
  | .notEqual => do
    let operand ← evalOperand s op.2
    read fun st => .bool !R.deepEqual st obj operand
  | .is => do
    let operand ← evalOperand s op.2
    pure (interpretIs obj operand)
  | .isNot => do
    let operand ← evalOperand s op.2
    negate (interpretIs obj operand)
  | .in_ => do
    -- the implementation of in is defined by the right-hand side, not the left
    let operand ← evalOperand s op.2
    act (operator R .in_ operand obj)
  | .notIn => do
    let operand ← evalOperand s op.2
    act (operator R .notIn operand obj)
  | .negate =>
    match obj with
    | .int i => pure (.int (-i))
    | _ => raise (utf8 "Unary - can only be applied to an integer")
  | op' => do
    let operand ← evalOperand s op.2
    act (operator R op' obj operand)

/-- `scope.interpretOps` (lines 685–707). -/
def interpretOps (s : ℕ) : Obj → List (OpDen H) → P H Obj
  | _, [] => raise (utf8 "runtime error: index out of range")
  | obj, [op] => interpretOp R s obj op
  | obj, op :: op' :: ops =>
    if op.1.precedence ≥ op'.1.precedence then do
      let obj ← interpretOp R s obj op
      interpretOps s obj (op' :: ops)
    else do
      if op.1.lazy && (← truthy obj) != (op.1 == .and) then pure obj
      else
        match op.2 with
        | none => do
          let obj ← interpretOps s obj (op' :: ops)
          interpretOp R s obj op
        | some e => do
          let x ← e s
          let nobj ← interpretOps s x (op' :: ops)
          interpretOp R s obj (op.1, some fun _ => pure nobj)

/-! ## Calls -/

/-- `pyFunc.defaultArg` (lines 808–818); `dflt` is what the expression of a default does. -/
def defaultArg (sig : Signature) (dflt : ℕ → P H Obj) (i : ℕ) : P H Obj :=
  match sig.constants.getD i none with
  | some obj => pure obj
  | none =>
    if sig.hasDefault.getD i false then dflt i
    else raise (utf8 "Missing required argument to " ++ sig.name ++ utf8 ": " ++ sig.args.getD i [])

/-- `pyFunc.validateType` (lines 840–869). -/
def validateType (sig : Signature) (dflt : ℕ → P H Obj) (s i : ℕ) (expr : Exp H) : P H Obj := do
  let val ← expr s
  match sig.types[i]? with
  | none =>
    if sig.varargs || sig.kwargs then pure val
    else raise (utf8 "runtime error: index out of range")
  | some types =>
    if types = [] then pure val
    else if val = .none then
      if (sig.constants.getD i none).isNone && !sig.hasDefault.getD i false then pure val
      else defaultArg sig dflt i
    else if types.any fun t => val.typeTag = some t then pure val
    else raise (utf8 "Invalid type for argument " ++ sig.args.getD i [] ++
      utf8 " to " ++ sig.name ++
      utf8 "; expected " ++ joinBytes (utf8 " or ") (knownTypeNames.filter (· ∈ types)) ++
      utf8 ", was " ++ val.type)

/-- The arguments of a call: a name, which may be empty, and what the expression does. -/
abbrev Args (H : Type) := List (Bytes × Exp H)

/-- The loop of `pyFunc.Call` over the arguments (lines 716–735). -/
def passArgs (sig : Signature) (dflt : ℕ → P H Obj) (s cs : ℕ) : ℕ → Args H → P H Unit
  | _, [] => pure ()
  | i, (name, value) :: args => do
    if name ≠ [] then
      match sig.argIndices.lookup name with
      | some idx => do
        let val ← validateType sig dflt s idx value
        set cs (sig.args.getD idx []) val
      | none =>
        if sig.kwargs then do
          let val ← validateType sig dflt s 0 value
          set cs name val
        else raise (utf8 "Unknown argument to " ++ sig.name ++ utf8 ": " ++ name)
    else
      match sig.args[i]? with
      | none => raise (utf8 "Too many arguments to " ++ sig.name)
      | some arg =>
        if sig.kwargsonly then
          raise (utf8 "Function " ++ sig.name ++ utf8 " can only be called with keyword arguments")
        else do
          let val ← validateType sig dflt s i value
          set cs arg val
    passArgs sig dflt s cs (i + 1) args

/-- The loop of `pyFunc.Call` over the arguments that are not set (lines 737–741). -/
def passDefaults (sig : Signature) (dflt : ℕ → P H Obj) (cs : ℕ) : ℕ → List Bytes → P H Unit
  | _, [] => pure ()
  | i, arg :: args => do
    let present ← read fun st => ((st.scope cs).locals.lookup arg).isSome
    if present then pure ()
    else do
      let val ← defaultArg sig dflt i
      set cs arg val
    passDefaults sig dflt cs (i + 1) args

/-- What `pyFunc.Member` keeps of a function. -/
def Signature.bound (sig : Signature) : Option Obj → Signature
  | none => sig
  | some _ => { sig with kwargsonly := false }

/-- The scope of a call of a function that was defined in `scope`, from the scope `s`: it sees what
is defined there, and what the caller is doing. -/
def callScope (scope s : ℕ) : P H ℕ :=
  addScope fun st =>
    { parent := some scope
      locals := [(utf8 "CONFIG", (st.scope s).config)]
      config := (st.scope s).config
      filename := (st.scope scope).filename
      pkg := (st.scope s).pkg
      callback := (st.scope s).callback }

/-- The check on what a function returns. -/
def checkReturn (sig : Signature) (returnType : Bytes) : Option Obj → P H Obj
  | none => pure .none
  | some obj =>
    if returnType ≠ [] ∧ obj.type ≠ returnType then
      raise (utf8 "Invalid return type " ++ obj.type ++ utf8 " from function " ++ sig.name ++
        utf8 ", expecting " ++ returnType)
    else pure obj

/-- `pyFunc.Call` for a function with code (lines 694–751). -/
def callClosure (f : ℕ) (self : Option Obj) (s : ℕ) (args : Args H) : P H Obj := do
  let (sig, scope, returnType) ← ask (.signature f)
  let sig := sig.bound self
  let cs ← callScope scope s
  let args := self.toList.map (fun obj => ([], fun _ => pure obj)) ++ args
  let dflt := fun i => ask (.default f i s)
  passArgs sig dflt s cs 0 args
  passDefaults sig dflt cs 0 sig.args
  let ret ← ask (.body f cs)
  checkReturn sig (if self.isSome then [] else returnType) ret

/-- The loop of `pyFunc.callNative` over the arguments (lines 774–796), with those that are set. -/
def passNative (sig : Signature) (dflt : ℕ → P H Obj) (s offset : ℕ) :
    ℕ → List (Option Obj) → Args H → P H (List (Option Obj))
  | _, vals, [] => pure vals
  | i, vals, (name, value) :: args => do
    let vals ←
      if name ≠ [] then
        match sig.argIndices.lookup name with
        | some idx => do
          let val ← validateType sig dflt s idx value
          pure (vals.set idx (some val))
        | none =>
          if sig.kwargs then do
            let val ← value s
            set s name val
            pure vals
          else raise (utf8 "Unknown argument to " ++ sig.name ++ utf8 ": " ++ name)
      else if vals.length ≤ i then
        if sig.varargs then do
          let val ← value s
          pure (vals ++ [some val])
        else raise (utf8 "Too many arguments to " ++ sig.name)
      else if sig.kwargsonly then
        raise (utf8 "Function " ++ sig.name ++ utf8 " can only be called with keyword arguments")
      else do
        let val ← validateType sig dflt s (i + offset) value
        if vals.length ≤ i + offset then pure (vals ++ [some val])
        else pure (vals.set (i + offset) (some val))
    passNative sig dflt s offset (i + 1) vals args

/-- The loop of `pyFunc.callNative` over the arguments that are not set (lines 799–803). -/
def nativeDefaults (sig : Signature) (dflt : ℕ → P H Obj) : ℕ → List (Option Obj) → P H (List Obj)
  | _, [] => pure []
  | i, val :: vals => do
    let obj ← match val with
      | some obj => pure obj
      | none => defaultArg sig dflt i
    let objs ← nativeDefaults sig dflt (i + 1) vals
    pure (obj :: objs)

/-- `pyFunc.callNative` (lines 756–805), in the new scope that a function with keyword arguments
gets. -/
def callNative (native : Native H) (self : Option Obj) (s : ℕ) (args : Args H) : P H Obj := do
  let s ← if native.sig.kwargs then newScope s fun _ => utf8 "<builtin code>" else pure s
  let sig := native.sig.bound self
  let dflt := fun i => evalOperand s (native.defaults.getD i none)
  let vals := List.replicate (sig.args.length - self.toList.length) none
  let vals ← passNative sig dflt s self.toList.length 0 (self.toList.map some ++ vals) args
  let objs ← nativeDefaults sig dflt 0 vals
  native.code s objs

variable (N : Natives H)

/-- `pyFunc.Call`. -/
def call (f : Callee) (self : Option Obj) (s : ℕ) (args : Args H) : P H Obj :=
  match f with
  | .closure f => callClosure f self s args
  | .native name =>
    match N name with
    | some native => callNative native self s args
    | none => raise nilDereference

/-- `scope.callObject` (lines 1093–1100). -/
def callObject (name : Bytes) (obj : Obj) (s : ℕ) (args : Args H) : P H Obj :=
  match obj with
  | .func f => call N f none s args
  | .member f self => call N f (some self) s args
  | obj => raise (utf8 "Non-callable object '" ++ name ++ utf8 "' (is a " ++ obj.type ++ utf8 ")")

end Please.Asp.Interp
