import Please.Asp.Calls

/-!
# What the parts of an expression do

The functions of `src/parse/asp/interpreter.go` for the parts of an expression (lines 655–683,
748–779 and 803–1057), each put together from what its own parts do.
-/

namespace Please.Asp.Interp

open Please.Fs (Bytes)
open Please.Build (utf8)
open Please.Lib Prog
open Please.Asp.Syntax

variable {H : Type} (R : Runtime H) (N : Natives H)

/-- A comprehension. -/
structure CompDen (H : Type) where
  names : List Bytes
  expr : Exp H
  second : Option (List Bytes × Exp H)
  cond : Option (Exp H)

/-- The elements of a list, or what each turn of its comprehension gives. -/
structure ListDen (H : Type) where
  values : List (Exp H)
  comprehension : Option (CompDen H)

structure DictDen (H : Type) where
  items : List (Exp H × Exp H)
  comprehension : Option (CompDen H)

structure SliceDen (H : Type) where
  start : Option (Exp H)
  colon : Bool
  stop : Option (Exp H)

/-- What is before the suffixes of a value; a list can be got at, for a join. -/
inductive LitDen (H : Type)
  | exp (e : Exp H)
  | list (l : ListDen H)

/-- One action on an object with a name, which may be another after it. -/
abbrev ActionDen (H : Type) := ℕ → Bytes × Obj → P H (Bytes × Obj)

/-- A name, and what the actions after it do to an object. -/
structure IdentDen (H : Type) where
  name : Bytes
  actions : List (ActionDen H)

structure ValDen (H : Type) where
  literal : LitDen H
  slices : List (SliceDen H)
  property : Option (IdentDen H)
  call : Option (Args H)

/-- `scope.interpretIdent` (lines 926–937). -/
def interpretIdent (ident : IdentDen H) (s : ℕ) (obj : Obj) : P H Obj := do
  let (_, obj) ← ident.actions.foldlM (fun nameObj action => action s nameObj) (ident.name, obj)
  pure obj

/-- The action on a property: its name is the name from then on. -/
def propertyAction (ident : IdentDen H) : ActionDen H := fun s (_, obj) => do
  let obj ← readOr (property R obj ident.name)
  let obj ← interpretIdent ident s obj
  pure (ident.name, obj)

/-- The action of a call. -/
def callAction (args : Args H) : ActionDen H := fun s (name, obj) => do
  let obj ← callObject N name obj s args
  pure (name, obj)

theorem interpretIdent_call (name : Bytes) (args : Args H) (s : ℕ) (obj : Obj) :
    interpretIdent ⟨name, [callAction N args]⟩ s obj = callObject N name obj s args := by
  simp [interpretIdent, callAction]

/-! ## Slices -/

/-- `scope.interpretSliceExpression` (lines 919–924). -/
def interpretSliceExpression (s : ℕ) (obj : Obj) (expr : Option (Exp H)) (dflt : ℤ) : P H ℤ :=
  match expr with
  | none => pure dflt
  | some e => do
    let index ← e s
    readOr fun _ => pyIndex R obj index true

/-- `scope.interpretSlice` (lines 903–915). The default for the end of a string is its length in
bytes. -/
def interpretSlice (s : ℕ) (obj : Obj) (sl : SliceDen H) : P H Obj := do
  let start ← interpretSliceExpression R s obj sl.start 0
  match obj with
  | .list l => do
    let stop ← interpretSliceExpression R s obj sl.stop l.len
    let l ← readOr fun _ => goSlice l start stop
    pure (.list l)
  | .str t => do
    let stop ← interpretSliceExpression R s obj sl.stop t.length
    let t ← readOr fun _ => R.substr t start stop
    pure (.str t)
  | obj => raise (utf8 "Unsliceable type " ++ obj.type)

/-- One turn of the loop of `interpretValueExpression` over the slices (lines 805–813). -/
def interpretSuffix (s : ℕ) (obj : Obj) (sl : SliceDen H) : P H Obj :=
  if sl.colon then interpretSlice R s obj sl
  else if sl.stop.isSome then raise (utf8 "Invalid syntax")
  else do
    let index ← evalOperand s sl.start
    readOr (operatorIndex R obj index)

/-! ## Comprehensions -/

/-- `strconv.Itoa`, of a length. -/
def itoa (n : ℕ) : Bytes := utf8 (toString n)

/-- Set names to the objects of a list. -/
def setAll (s : ℕ) : List Bytes → List Obj → P H Unit
  | name :: names, obj :: objs => do
    set s name obj
    setAll s names objs
  | _, _ => pure ()

/-- `scope.unpackNames` (lines 1046–1057). -/
def unpackNames (s : ℕ) (names : List Bytes) (obj : Obj) : P H Unit :=
  match names with
  | [name] => set s name obj
  | names =>
    match obj with
    | .list l =>
      if l.len = names.length then do
        let objs ← read fun st => l.contents st.arrays
        setAll s names objs
      else raise (utf8 "Incorrect number of values to unpack; expected " ++ itoa names.length ++
        utf8 ", got " ++ itoa l.len)
    | obj => raise (utf8 "Cannot unpack " ++ obj.type ++ utf8 " into [" ++
        joinBytes (utf8 " ") names ++ utf8 "]")

/-- `scope.evaluateComprehensionExpression` (lines 1040–1043). -/
def evaluateComprehensionExpression (cs : ℕ) (cond : Option (Exp H)) (names : List Bytes)
    (li : Obj) :
    P H Bool := do
  unpackNames cs names li
  match cond with
  | none => pure true
  | some e => do
    let obj ← e cs
    truthy obj

/-- One turn of the inner loop: the callback gets what has been gathered, if the item is not
filtered out. -/
def comprehensionTurn {α : Type} (cs : ℕ) (cond : Option (Exp H)) (callback : α → P H α)
    (names : List Bytes) (a : α) (li : Obj) : P H (α × Bool) := do
  if ← evaluateComprehensionExpression cs cond names li then do
    let a ← callback a
    pure (a, true)
  else pure (a, true)

/-- `scope.evaluateComprehension` (lines 1019–1036), over the object `it`. -/
def evaluateComprehension {α : Type} (cs : ℕ) (it : Obj) (comp : CompDen H) (callback : α → P H α)
    (a : α) : P H α :=
  match comp.second with
  | none => iterate it (comprehensionTurn cs comp.cond callback comp.names) a
  | some (names2, expr2) =>
    iterate it (fun a li => do
      unpackNames cs comp.names li
      let it2 ← expr2 cs
      iterable it2
      let a ← iterate it2 (comprehensionTurn cs comp.cond callback names2) a
      pure (a, true)) a

section like

variable {T : List Closure → List Closure → Prop}
  {answer answer' : Handler Answer (Store H) (List Closure) Bytes}
  (hanswer : AnswersAlike T answer answer') {α β : Type} {V : α → β → Prop}
  {callback : α → P H α} {callback' : β → P H β}

include hanswer

theorem comprehensionTurn_like (cs : ℕ) (cond : Option (Exp H)) (names : List Bytes) (li : Obj)
    (h : ∀ a b, V a b → Like T answer answer' V (callback a) (callback' b)) {a : α} {b : β}
    (hab : V a b) :
    Like T answer answer' (SameTurn V) (comprehensionTurn cs cond callback names a li)
      (comprehensionTurn cs cond callback' names b li) := by
  refine .bind_refl hanswer _ fun kept => ?_
  cases kept with
  | true => exact (h a b hab).bind fun _ _ hab => .pure ⟨hab, rfl⟩
  | false => exact .pure ⟨hab, rfl⟩

theorem evaluateComprehension_like (cs : ℕ) (it : Obj) (comp : CompDen H)
    (h : ∀ a b, V a b → Like T answer answer' V (callback a) (callback' b)) {a : α} {b : β}
    (hab : V a b) :
    Like T answer answer' V (evaluateComprehension cs it comp callback a)
      (evaluateComprehension cs it comp callback' b) := by
  obtain ⟨names, expr, second, cond⟩ := comp
  cases second with
  | none =>
    exact iterate_like hanswer
      (fun _ _ li hab => comprehensionTurn_like hanswer cs cond names li h hab) it hab
  | some second =>
    obtain ⟨names2, expr2⟩ := second
    refine iterate_like hanswer (fun a b li hab => ?_) it hab
    refine .bind_refl hanswer _ fun _ => .bind_refl hanswer _ fun it2 =>
      .bind_refl hanswer _ fun _ => ?_
    have hinner := iterate_like hanswer
      (fun _ _ li hab => comprehensionTurn_like hanswer cs cond names2 li h hab) it2 hab
    exact hinner.bind fun _ _ hab => .pure ⟨hab, rfl⟩

end like

/-- `scope.evaluateExpressions` (lines 1079–1085), before they are put into an array. -/
def evaluateExpressions (s : ℕ) : List (Exp H) → P H (List Obj)
  | [] => pure []
  | e :: es => do
    let obj ← e s
    let objs ← evaluateExpressions s es
    pure (obj :: objs)

/-- A new list of the values of expressions. -/
def evaluateList (s : ℕ) (es : List (Exp H)) : P H Obj := do
  let objs ← evaluateExpressions s es
  let l ← allocList objs 0
  pure (.list l)

/-- The capacity after `n` more elements have been appended, one by one. -/
def pushCap (G : Growth) (cap len : ℕ) : ℕ → ℕ
  | 0 => cap
  | n + 1 => pushCap G (if len + 1 ≤ cap then cap else G.cap cap (len + 1)) (len + 1) n

/-- What a turn of the comprehension of a list gives (lines 991–995). -/
def comprehensionValue (cs : ℕ) (values : List (Exp H)) : P H Obj :=
  match values with
  | [e] => e cs
  | es => evaluateList cs es

/-- A scope for a comprehension. -/
def comprehensionScope (s : ℕ) : P H ℕ := newScope s fun st => (st.scope s).filename

/-- What comes before the loops of a comprehension: a scope for it, and what it goes over. -/
def comprehensionStart (comp : CompDen H) (s : ℕ) : P H (ℕ × Obj) := do
  let cs ← comprehensionScope s
  let it ← comp.expr s
  iterable it
  pure (cs, it)

/-- The elements of a list, and the room that its array has after them. -/
def listItems (l : ListDen H) (s : ℕ) : P H (List Obj × ℕ) :=
  match l.comprehension with
  | none => do
    let objs ← evaluateExpressions s l.values
    pure (objs, 0)
  | some comp => do
    let (cs, it) ← comprehensionStart comp s
    let cap ← capHint it
    let objs ← evaluateComprehension cs it comp (fun objs => do
      let obj ← comprehensionValue cs l.values
      pure (objs ++ [obj])) []
    pure (objs, pushCap R.growth cap 0 objs.length - objs.length)

/-- `scope.interpretList` (lines 983–998). No one sees the array of a comprehension before it is
complete: it is allocated here when its elements are known, with the capacity that it has then. -/
def interpretList (l : ListDen H) (s : ℕ) : P H Slice := do
  let (objs, room) ← listItems R l s
  allocList objs room

/-- What `interpretJoin` has written after one more string. -/
def write (base : Bytes) (b : Option Bytes) (z : Bytes) : Option Bytes :=
  some (match b with
    | none => z
    | some b => b ++ base ++ z)

def joinMessage (y : Obj) : Bytes :=
  utf8 "invalid expression of type " ++ y.type ++ utf8 " to str.join (must be a string)"

/-- One value of a join, with what has been written before. -/
def joinValue (base : Bytes) (s : ℕ) (b : Option Bytes) (value : Exp H) : P H (Option Bytes) := do
  let y ← value s
  match y with
  | .str z => pure (write base b z)
  | y => raise (joinMessage y)

/-- What `interpretJoin` writes. There is nothing before the first value. -/
def joinItems (base : Bytes) (l : ListDen H) (s : ℕ) : P H (Option Bytes) :=
  match l.comprehension with
  | none => l.values.foldlM (joinValue base s) none
  | some comp => do
    let (cs, it) ← comprehensionStart comp s
    evaluateComprehension cs it comp (fun b => joinValue base cs b
      (l.values.headD fun _ => raise (utf8 "runtime error: index out of range"))) none

/-- `scope.interpretJoin` (lines 748–779). -/
def interpretJoin (base : Bytes) (l : ListDen H) (s : ℕ) : P H Obj := do
  let b ← joinItems base l s
  pure (.str (b.getD []))

/-- A new dict. -/
def allocDict : P H ℕ := act fun st => .ok (st.dicts.length, { st with dicts := st.dicts ++ [[]] })

/-- One item of a dict: the key before the value. -/
def interpretItem (d s : ℕ) (item : Exp H × Exp H) : P H Unit := do
  let key ← item.1 s
  let value ← item.2 s
  act fun st => (indexAssign (.dict d) key value st).map fun st => ((), st)

/-- `scope.interpretDict` (lines 1000–1015). -/
def interpretDict (dict : DictDen H) (s : ℕ) : P H Obj :=
  match dict.comprehension with
  | none => do
    let d ← allocDict
    dict.items.forM (interpretItem d s)
    pure (.dict d)
  | some comp => do
    let (cs, it) ← comprehensionStart comp s
    let _ ← lenHint it
    let d ← allocDict
    evaluateComprehension cs it comp (fun _ => interpretItem d cs (dict.items.headD
      (fun _ => raise (utf8 "runtime error: index out of range"), fun _ => pure .none))) ()
    pure (.dict d)

/-- A tuple: parentheses around one expression make no list. -/
def interpretTuple (l : ListDen H) (s : ℕ) : P H Obj := do
  let t ← interpretList R l s
  match l.comprehension with
  | some _ => pure (.list t)
  | none => read fun st => match t.contents st.arrays with
    | [obj] => obj
    | _ => .list t

/-! ## Values -/

/-- `stringLiteral`. -/
def stringLiteral (s : Bytes) : Bytes := (s.drop 1).dropLast

/-- The text of a variable in an f-string. -/
def stringVar (s : ℕ) (v : FStringVar) : P H Bytes := do
  let obj ← match v.var with
    | [] => raise (utf8 "runtime error: index out of range")
    | name :: _ => lookup s name
  let obj ← v.var.tail.foldlM (fun obj key => readOr (property R obj key)) obj
  readOr fun st => R.toStr st obj

/-- `scope.interpretFString` (lines 880–901): once for the size, once for the text. -/
def interpretFString (f : FString) (s : ℕ) : P H Obj := do
  f.vars.forM fun v => do
    let _ ← stringVar R s v
    pure ()
  let b ← f.vars.foldlM (fun b v => do
    let text ← stringVar R s v
    pure (b ++ v.before ++ text)) []
  pure (.str (b ++ f.suffix))

/-- The zero-length array of `emptyList`, which nobody can write into. -/
def emptyList : Slice := { array := 0, offset := 0, len := 0, cap := 0 }

/-- The list of a list literal, with the special case of the empty one (lines 850–855). -/
def listValue (l : ListDen H) (s : ℕ) : P H Slice :=
  match l.comprehension, l.values with
  | none, [] => pure emptyList
  | _, _ => interpretList R l s

/-- `interpretValueExpressionPart` for the part that has been denoted. -/
def interpretLiteral (lit : LitDen H) (s : ℕ) : P H Obj :=
  match lit with
  | .exp e => e s
  | .list l => do
    let t ← listValue R l s
    pure (.list t)

/-- `scope.interpretValueExpression` (lines 803–820). -/
def interpretValueExpression (val : ValDen H) (s : ℕ) : P H Obj := do
  let obj ← interpretLiteral R val.literal s
  let obj ← val.slices.foldlM (interpretSuffix R s) obj
  match val.property, val.call with
  | some ident, _ => do
    let obj ← readOr (property R obj ident.name)
    interpretIdent ident s obj
  | none, some args => callObject N [] obj s args
  | none, none => pure obj

theorem interpretValueExpression_literal (lit : LitDen H) (s : ℕ) :
    interpretValueExpression R N ⟨lit, [], none, none⟩ s = interpretLiteral R lit s := by
  simp [interpretValueExpression]

theorem interpretValueExpression_property (obj : Obj) (ident : IdentDen H) (call : Option (Args H))
    (s : ℕ) :
    interpretValueExpression R N ⟨.exp fun _ => pure obj, [], some ident, call⟩ s =
      readOr (property R obj ident.name) >>= interpretIdent ident s := by
  simp [interpretValueExpression, interpretLiteral]

/-- What is hidden in a join: the list of the value. -/
def ValDen.list (val : ValDen H) : ListDen H :=
  match val.literal with
  | .list l => l
  | .exp _ => ⟨[], none⟩

/-- `pyConfig.Property` of the configuration of a scope. -/
def scopeConfig (s : ℕ) (name : Bytes) : P H Obj :=
  readOr fun st => match (st.scope s).config with
    | .config c => configProperty R c name st
    | _ => .error nilDereference

/-- `scope.interpretExpression` (lines 655–683). -/
def interpretExpression (optimised : Option Optimised) (val : ValDen H) (ops : List (OpDen H))
    (inlineIf : Option (Exp H × Exp H)) (s : ℕ) : P H Obj :=
  match optimised with
  | some (.constant obj) => pure obj
  | some (.localVar name) => lookup s name
  | some (.config name) => scopeConfig R s name
  | some (.join base) => interpretJoin (stringLiteral base) val.list s
  | none => do
    let otherwise ← match inlineIf with
      | none => pure none
      | some (cond, otherwise) => do
        let obj ← cond s
        let b ← truthy obj
        pure (if b then none else some otherwise)
    match otherwise with
    | some e => e s
    | none => do
      let obj ← interpretValueExpression R N val s
      match ops with
      | [] => pure obj
      | ops => interpretOps R s obj ops

theorem interpretExpression_value (val : ValDen H) (s : ℕ) :
    interpretExpression R N none val [] none s = interpretValueExpression R N val s := by
  simp [interpretExpression]

end Please.Asp.Interp
