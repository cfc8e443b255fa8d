import Please.Asp.Grammar
import Please.Lib.Prog
import Please.Lib.Slice

/-!
# Objects of the BUILD language

The types of `src/parse/asp/objects.go`, the store that they live in, and what the interpreter asks
of them. A list is a Go slice on an explicit heap; a dict and a configuration are places in tables,
and so are scopes, which are objects of the interpreter. A function with code is a place in a table
that only the interpreter sees; one in native code has a name.

A panic is an error with its message. The operators of integers, strings, dicts and configurations
are left to a `Runtime`.
-/

namespace Please.Asp.Interp

open Please.Fs (Bytes)
open Please.Build (utf8)
open Please.Lib

/-! ## Objects -/

/-- The code of a `pyFunc`: a place in the table of functions, or the name of native code. -/
inductive Callee
  | closure (f : ℕ)
  | native (name : Bytes)
  deriving DecidableEq

/-- `pyObject`. The two sentinels are `continueIteration` and `stopIteration`. A function may be
bound to an object, as its member. -/
inductive Obj
  | none
  | bool (b : Bool)
  | int (i : Int64)
  | str (s : Bytes)
  | list (l : Slice)
  | frozenList (l : Slice)
  | dict (d : ℕ)
  | frozenDict (d : ℕ)
  | config (c : ℕ)
  | frozenConfig (c : ℕ)
  | range (start stop step : Int64)
  | func (f : Callee)
  | member (f : Callee) (self : Obj)
  | continueIteration
  | stopIteration
  deriving DecidableEq

/-- The zero value in the cells of an array that have not been written. No list reads them. -/
instance : Inhabited Obj := ⟨.none⟩

namespace Obj

/-- `pyObject.Type`. -/
def type : Obj → Bytes
  | none => utf8 "none"
  | bool _ => utf8 "bool"
  | int _ => utf8 "int"
  | str _ => utf8 "str"
  | list _ | frozenList _ => utf8 "list"
  | dict _ | frozenDict _ => utf8 "dict"
  | config _ | frozenConfig _ => utf8 "config"
  | range _ _ _ => utf8 "range"
  | func _ | member _ _ => utf8 "function"
  | continueIteration => utf8 "ContinueIteration"
  | stopIteration => utf8 "StopIteration"

/-- `pyObject.TypeTag`, as the name that a signature has for it. -/
def typeTag : Obj → Option Bytes
  | range _ _ _ | continueIteration | stopIteration => Option.none
  | o => some o.type

end Obj

/-! ## The store -/

/-- `scope`, as far as the interpreter itself reads it. -/
structure Scope where
  parent : Option ℕ
  locals : List (Bytes × Obj)
  config : Obj
  filename : Bytes
  pkg : Bytes
  callback : Bool

/-- `pyConfig`: the places of its base and of its overlay, if it has one. -/
structure Config where
  base : ℕ
  overlay : Option ℕ

/-- What the objects are in, with the rest of the world in `H`: the build graph and what else native
code works on. -/
structure Store (H : Type) where
  arrays : Heap Obj
  dicts : List (List (Bytes × Obj))
  configs : List Config
  scopes : List Scope
  host : H

variable {H : Type}

/-- Set a key. -/
def setKey (d : List (Bytes × Obj)) (key : Bytes) (value : Obj) : List (Bytes × Obj) :=
  (key, value) :: d.filter fun e => e.1 ≠ key

namespace Store

def dict (st : Store H) (d : ℕ) : List (Bytes × Obj) := st.dicts.getD d []

def setDict (st : Store H) (d : ℕ) (key : Bytes) (value : Obj) : Store H :=
  { st with dicts := st.dicts.modify d (setKey · key value) }

/-- `scope.Set`. -/
def set (st : Store H) (s : ℕ) (name : Bytes) (value : Obj) : Store H :=
  { st with scopes := st.scopes.modify s fun sc =>
      { sc with locals := setKey sc.locals name value } }

/-- `scope.Lookup`, with at most as many scopes above as there are. -/
def lookupIn (st : Store H) (name : Bytes) : ℕ → ℕ → Option Obj
  | 0, _ => none
  | n + 1, s => do
    let sc ← st.scopes[s]?
    match sc.locals.lookup name with
    | some obj => some obj
    | none => st.lookupIn name n (← sc.parent)

/-- `scope.Lookup`. -/
def lookup (st : Store H) (s : ℕ) (name : Bytes) : Except Bytes Obj :=
  match st.lookupIn name st.scopes.length s with
  | some obj => .ok obj
  | none => .error (utf8 "name '" ++ name ++ utf8 "' is not defined")

/-- `pyConfig.Get`. -/
def configGet (st : Store H) (c : ℕ) (key : Bytes) : Option Obj := do
  let config ← st.configs[c]?
  match config.overlay.bind fun o => (st.dict o).lookup key with
  | some obj => some obj
  | none => (st.dict config.base).lookup key

end Store

/-! ## What the interpreter asks of objects -/

/-- What is not modelled here: Go's runtime, and the objects' own operators. -/
structure Runtime (H : Type) where
  /-- The capacity of a slice that `append` has to move. -/
  growth : Growth
  /-- `Operator` of integers, strings, dicts, configurations and ranges, and `<` of lists. -/
  operator : Operator → Obj → Obj → Store H → Except Bytes (Obj × Store H)
  /-- The same for `Index`. -/
  index : Obj → Obj → Store H → Except Bytes Obj
  /-- Whether two ranges, or two members, are the same object. -/
  samePointer : Obj → Obj → Bool
  /-- `reflect.DeepEqual`. -/
  deepEqual : Store H → Obj → Obj → Bool
  /-- `pyObject.String`. -/
  toStr : Store H → Obj → Except Bytes Bytes
  /-- `t[start:end]` on a string. -/
  substr : Bytes → ℤ → ℤ → Except Bytes Bytes
  /-- The length of a string, in characters. -/
  strLen : Bytes → ℕ
  stringMethods : Bytes → Option Callee
  dictMethods : Bytes → Option Callee
  configMethods : Bytes → Option Callee

/-- A runtime that has nothing but what is modelled: lists have operators, other objects have
none. -/
def Runtime.bare (H : Type) : Runtime H where
  growth := ⟨fun _ n => n, fun _ _ => le_rfl⟩
  operator op obj _ _ :=
    .error (utf8 "operator " ++ utf8 op.toStr ++ utf8 " not implemented on type " ++ obj.type)
  index obj _ _ := .error (utf8 "operator index not implemented on type " ++ obj.type)
  samePointer _ _ := false
  deepEqual _ obj obj' := obj = obj'
  toStr _ obj := .ok obj.type
  substr _ _ _ := .error (utf8 "runtime error: slice bounds out of range")
  strLen s := s.length
  stringMethods _ := none
  dictMethods _ := none
  configMethods _ := none

variable (R : Runtime H)

/-- `pyObject.IsTruthy`. -/
def isTruthy (st : Store H) : Obj → Bool
  | .none => false
  | .bool b => b
  | .int i => i ≠ 0
  | .str s => s ≠ []
  | .list l | .frozenList l => 0 < l.len
  | .dict d | .frozenDict d => st.dict d ≠ []
  | .config _ | .frozenConfig _ | .range _ _ _ | .func _ | .member _ _ => true
  | .continueIteration | .stopIteration => false

/-- `item == operand` in Go: two lists or two dicts cannot be compared. -/
def goEqual : Obj → Obj → Except Bytes Bool
  | .list _, .list _ => .error (utf8 "runtime error: comparing uncomparable type asp.pyList")
  | .frozenList _, .frozenList _ =>
    .error (utf8 "runtime error: comparing uncomparable type asp.pyFrozenList")
  | .dict _, .dict _ => .error (utf8 "runtime error: comparing uncomparable type asp.pyDict")
  | .frozenDict _, .frozenDict _ =>
    .error (utf8 "runtime error: comparing uncomparable type asp.pyFrozenDict")
  | .range a b c, .range a' b' c' => .ok (R.samePointer (.range a b c) (.range a' b' c'))
  | .member f o, .member f' o' => .ok (R.samePointer (.member f o) (.member f' o'))
  | o, o' => .ok (o = o')

/-- The loop of `pyList.Operator` for `in` (lines 364–368). -/
def contains (operand : Obj) : List Obj → Except Bytes Bool
  | [] => .ok false
  | item :: items => do
    if ← goEqual R item operand then .ok true else contains operand items

/-- `pyList.Repeat`: the capacity that is made is the length of the result. -/
def pyListRepeat (l : Slice) (n : Int64) (st : Store H) : Except Bytes (Obj × Store H) :=
  if n.toInt * l.len < 0 then .error (utf8 "runtime error: makeslice: cap out of range")
  else
    let (ret, arrays) :=
      Slice.alloc st.arrays (List.replicate n.toInt.toNat (l.contents st.arrays)).flatten 0
    .ok (.list ret, { st with arrays })

/-- `slices.Clip(append(l, l2...))`. -/
def pyListAdd (l l2 : Slice) (st : Store H) : Except Bytes (Obj × Store H) :=
  let (ret, arrays) := Slice.append R.growth st.arrays l (l2.contents st.arrays)
  .ok (.list ret.clip, { st with arrays })

/-- `pyList.Operator` (lines 352–403). -/
def pyListOperator (l : Slice) (op : Operator) (operand : Obj) (st : Store H) :
    Except Bytes (Obj × Store H) :=
  match op, operand with
  | .add, .list l2 | .add, .frozenList l2 => pyListAdd R l l2 st
  | .add, operand => .error (utf8 "Cannot add list and " ++ operand.type)
  | .in_, operand => do
    let found ← contains R operand (l.contents st.arrays)
    .ok (.bool found, st)
  | .notIn, operand => do
    let found ← contains R operand (l.contents st.arrays)
    .ok (.bool !found, st)
  | .multiply, .int i => pyListRepeat l i st
  | .multiply, operand => .error (utf8 "Can only multiply list with int, not with " ++ operand.type)
  | .lessThan, operand => R.operator .lessThan (.list l) operand st
  | op, _ => .error (utf8 "Unsupported operator on list: " ++ utf8 op.toStr)

/-- `scope.operator` (lines 740–746). -/
def operator (op : Operator) (obj operand : Obj) (st : Store H) : Except Bytes (Obj × Store H) :=
  match obj with
  | .list l | .frozenList l => pyListOperator R l op operand st
  | .int i =>
    match op, operand with
    | .multiply, .list l => pyListRepeat l i st
    | op, operand => R.operator op (.int i) operand st
  | .str _ | .dict _ | .frozenDict _ | .config _ | .frozenConfig _ | .range _ _ _ =>
    R.operator op obj operand st
  | obj => .error (utf8 "operator " ++ utf8 op.toStr ++
      utf8 " not implemented on type " ++ obj.type)

/-- `objLen` of a list or a string. -/
def objLen : Obj → Except Bytes ℕ
  | .list l | .frozenList l => .ok l.len
  | .str s => .ok (R.strLen s)
  | o => .error (utf8 "object of type " ++ o.type ++ utf8 " has no len()")

/-- `pyIndex` (lines 186–199). -/
def pyIndex (obj index : Obj) (slice : Bool) : Except Bytes ℤ :=
  match index with
  | .int i => do
    let l ← objLen R obj
    if i.toInt < 0 then .ok (l + i.toInt)
    else if i.toInt > l then
      if slice then .ok l else .error (obj.type ++ utf8 " index out of range")
    else .ok i.toInt
  | index => .error (obj.type ++ utf8 " indices must be integers, not " ++ index.type)

/-- `scope.operator` for `Index`. -/
def operatorIndex (obj index : Obj) (st : Store H) : Except Bytes Obj :=
  match obj with
  | .list l | .frozenList l => do
    let i ← pyIndex R obj index false
    match if i < 0 then none else (l.contents st.arrays)[i.toNat]? with
    | some item => .ok item
    | none => .error (utf8 "runtime error: index out of range")
  | obj => R.index obj index st

/-- `t[start:end]` on a slice: the bound for the end is the capacity. -/
def goSlice (t : Slice) (start stop : ℤ) : Except Bytes Slice :=
  if 0 ≤ start ∧ start ≤ stop ∧ stop ≤ t.cap then .ok (t.reslice start.toNat stop.toNat)
  else .error (utf8 "runtime error: slice bounds out of range")

/-- `pyDict.Property` (lines 486–494). -/
def dictProperty (d : ℕ) (name : Bytes) (st : Store H) : Except Bytes Obj :=
  match (st.dict d).lookup name, R.dictMethods name with
  | some obj, _ => .ok obj
  | none, some f => .ok (.member f (.dict d))
  | none, none => .error (utf8 "dict object has no property " ++ name)

/-- `pyConfig.Property` (lines 919–926). -/
def configProperty (c : ℕ) (name : Bytes) (st : Store H) : Except Bytes Obj :=
  match st.configGet c name, R.configMethods name with
  | some obj, _ => .ok obj
  | none, some f => .ok (.member f (.config c))
  | none, none => .error (utf8 "Config has no such property " ++ name)

/-- `scope.property` (lines 822–828 of the interpreter). -/
def property (obj : Obj) (name : Bytes) (st : Store H) : Except Bytes Obj :=
  match obj with
  | .str s =>
    match R.stringMethods name with
    | some f => .ok (.member f (.str s))
    | none => .error (utf8 "str object has no property " ++ name)
  | .dict d => dictProperty R d name st
  | .frozenDict d =>
    if name = utf8 "setdefault" then .error (utf8 "dict is immutable") else dictProperty R d name st
  | .config c => configProperty R c name st
  | .frozenConfig c =>
    if name = utf8 "setdefault" then
      .error (utf8 "Config object is not assignable in this scope")
    else configProperty R c name st
  | obj => .error (obj.type ++ utf8 " object has no property " ++ name)

/-- `scope.indexAssign` (lines 977–981 of the interpreter). -/
def indexAssign (obj index value : Obj) (st : Store H) : Except Bytes (Store H) :=
  match obj with
  | .list l =>
    match index with
    | .int i =>
      if 0 ≤ i.toInt ∧ i.toInt < l.len then
        let write := writeAt (l.offset + i.toInt.toNat) [value]
        .ok { st with arrays := st.arrays.modify l.array write }
      else .error (utf8 "runtime error: index out of range")
    | index => .error (utf8 "List indices must be integers, not " ++ index.type)
  | .frozenList _ => .error (utf8 "list is immutable")
  | .dict d =>
    match index with
    | .str key => .ok (st.setDict d key value)
    | index => .error (utf8 "Dict keys must be strings, not " ++ index.type)
  | .frozenDict _ => .error (utf8 "dict is immutable")
  | .config c =>
    match index, st.configs[c]? with
    | .str key, some ⟨base, none⟩ =>
      .ok { st with
        dicts := st.dicts ++ [[(key, value)]]
        configs := st.configs.set c ⟨base, some st.dicts.length⟩ }
    | .str key, some ⟨_, some o⟩ => .ok (st.setDict o key value)
    | _, _ => .error (utf8 "interface conversion: asp.pyObject is not asp.pyString")
  | .frozenConfig _ => .error (utf8 "Config object is not assignable in this scope")
  | obj => .error (utf8 "Object of type " ++ obj.type ++ utf8 " cannot be assigned into")

end Please.Asp.Interp
