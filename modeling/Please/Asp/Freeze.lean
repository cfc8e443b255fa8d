import Please.Asp.Subinclude

/-!
# Freezing the globals of a subincluded file

Model of the `Freeze` and `IndexAssign` methods of `src/parse/asp/objects.go`
(lists: lines 404–440 and 461–471, dicts: 544–550, 566–582 and 595–613, CONFIG:
945–952 and 1003–1026) and of `scope.Freeze` (`src/parse/asp/interpreter.go`, lines
539–548). What is shared with the packages that subinclude a file is what
`scope.Freeze` returns.

`pyDict.Freeze` returns the frozen copies of its elements. `pyList.Freeze` makes
them and returns the list it was called on, so a list is frozen one level deep.
-/

namespace Please.Asp

open Relation

/-! ## Objects -/

/-- A `pyObject`. The elements of a dict are listed by key. An atom is an object that
is not freezable, with the name of its type. -/
inductive PyObject (α : Type) where
  | atom (type : String) (a : α)
  | list (l : List (PyObject α))
  | frozenList (l : List (PyObject α))
  | dict (d : List (String × PyObject α))
  | frozenDict (d : List (String × PyObject α))
  | config (base overlay : List (String × PyObject α))
  | frozenConfig (base overlay : List (String × PyObject α))

/-- What an assignment `x[index] = value` finds as its index; `type` is the name of the
type of any other object. -/
inductive Index where
  | int (i : Int64)
  | str (s : String)
  | other (type : String)

/-- `index.Type()`. -/
def Index.type : Index → String
  | .int _ => "int"
  | .str _ => "str"
  | .other type => type

variable {α : Type}

/-- `d[key] = value` on a Go map. -/
def setKey (key : String) (value : PyObject α) :
    List (String × PyObject α) → List (String × PyObject α)
  | [] => [(key, value)]
  | (k, v) :: d => if k = key then (k, value) :: d else (k, v) :: setKey key value d

/-- `IndexAssign`: the object after the assignment, or the panic; also the assertion of
`scope.indexAssign` (`src/parse/asp/interpreter.go`, lines 977–981). -/
def PyObject.indexAssign (o : PyObject α) (index : Index) (value : PyObject α) :
    Except String (PyObject α) :=
  match o with
  | .list l =>
    match index with
    | .int i =>
      if 0 ≤ i.toInt ∧ i.toInt < l.length then .ok (.list (l.set i.toInt.toNat value))
      else .error "index out of range"
    | index => .error ("List indices must be integers, not " ++ index.type)
  | .frozenList _ => .error "list is immutable"
  | .dict d =>
    match index with
    | .str key => .ok (.dict (setKey key value d))
    | index => .error ("Dict keys must be strings, not " ++ index.type)
  | .frozenDict _ => .error "dict is immutable"
  | .config base overlay =>
    match index with
    | .str key => .ok (.config base (setKey key value overlay))
    | _ => .error "interface conversion"
  | .frozenConfig _ _ => .error "Config object is not assignable in this scope"
  | .atom type _ => .error ("Object of type " ++ type ++ " cannot be assigned into")

mutual

/-- `Freeze`; an object that is not freezable stays. A `pyFrozenList` and a
`pyFrozenDict` have the method of the list or dict they embed. -/
def PyObject.freeze : PyObject α → PyObject α
  | .atom type a => .atom type a
  -- `frozen` is filled with the frozen elements, but `l` is what is returned
  | .list l => .frozenList l
  | .frozenList l => .frozenList l
  | .dict d => .frozenDict (freezeEntries d)
  | .frozenDict d => .frozenDict (freezeEntries d)
  | .config base overlay => .frozenConfig base overlay
  | .frozenConfig base overlay => .frozenConfig base overlay

/-- The loop of `pyDict.Freeze` (lines 574–580). -/
def freezeEntries : List (String × PyObject α) → List (String × PyObject α)
  | [] => []
  | (k, v) :: d => (k, v.freeze) :: freezeEntries d

end

/-- `scope.Freeze`. -/
def Scope.freeze (s : Scope (PyObject α)) : PyDict (PyObject α) := freezeEntries s.locals

theorem freezeEntries_eq_map (d : List (String × PyObject α)) :
    freezeEntries d = d.map fun kv => (kv.1, kv.2.freeze) := by
  induction d with
  | nil => rfl
  | cons kv d ih => simp [freezeEntries, ih]

/-! ## Indexing -/

namespace PyObject

/-- `Item o o'`: indexing the list or dict `o` gives `o'`. -/
def Item : PyObject α → PyObject α → Prop
  | .list l, o | .frozenList l, o => o ∈ l
  | .dict d, o | .frozenDict d, o => o ∈ d.map Prod.snd
  | _, _ => False

def IsList : PyObject α → Prop
  | .list _ | .frozenList _ => True
  | _ => False

def IsDict : PyObject α → Prop
  | .dict _ | .frozenDict _ => True
  | _ => False

/-- A `pyFrozenList` or `pyFrozenDict`. -/
def IsFrozen : PyObject α → Prop
  | .frozenList _ | .frozenDict _ => True
  | _ => False

/-- Some index assignment to the object goes through. -/
def Assignable (o : PyObject α) : Prop :=
  ∃ index value o', o.indexAssign index value = .ok o'

/-- The elements of a frozen list are those of the list, the elements of a frozen dict
the frozen ones. -/
theorem item_freeze_iff (o x : PyObject α) :
    Item o.freeze x ↔ (o.IsList ∧ Item o x) ∨ (o.IsDict ∧ ∃ y, Item o y ∧ y.freeze = x) := by
  have hdict : ∀ d : List (String × PyObject α),
      (∃ k y, (k, y) ∈ d ∧ y.freeze = x) ↔ ∃ y, (∃ k, (k, y) ∈ d) ∧ y.freeze = x :=
    fun d => ⟨fun ⟨k, y, hmem, hy⟩ => ⟨y, ⟨k, hmem⟩, hy⟩, fun ⟨y, ⟨k, hmem⟩, hy⟩ =>
      ⟨k, y, hmem, hy⟩⟩
  cases o <;> simp [freeze, Item, IsList, IsDict, freezeEntries_eq_map, hdict]

theorem isList_or_isDict_of_item {o x : PyObject α} (h : Item o x) : o.IsList ∨ o.IsDict := by
  cases o <;> simp [Item, IsList, IsDict] at h ⊢

/-- For objects that `Freeze` never returns: what can be reached of them in a frozen
object lies below a list of the original. -/
theorem reachable_freeze_iff {P : PyObject α → Prop}
    (hP : ∀ o : PyObject α, ¬ P o.freeze) (o : PyObject α) :
    (∃ x, ReflTransGen Item o.freeze x ∧ P x) ↔
      ∃ l x, ReflTransGen Item o l ∧ l.IsList ∧ TransGen Item l x ∧ P x := by
  constructor
  · rintro ⟨x, hpath, hx⟩
    -- along the path, for every object whose frozen form is where the path begins
    generalize hstart : o.freeze = start at hpath
    induction hpath using ReflTransGen.head_induction_on generalizing o with
    | refl => exact absurd hx (hstart ▸ hP o)
    | head hitem hrest ih =>
      rw [← hstart, item_freeze_iff] at hitem
      rcases hitem with ⟨hlist, hitem⟩ | ⟨-, y, hitem, rfl⟩
      · exact ⟨o, x, .refl, hlist, .head' hitem hrest, hx⟩
      · obtain ⟨l, z, hl, hlist, hz, hPz⟩ := ih y rfl
        exact ⟨l, z, .head hitem hl, hlist, hz, hPz⟩
  · rintro ⟨l, x, hpath, hlist, hbelow, hx⟩
    have hfrom : ∀ {l}, l.IsList → TransGen Item l x → ReflTransGen Item l.freeze x := by
      intro l hlist hbelow
      obtain ⟨y, hitem, hrest⟩ := TransGen.head'_iff.mp hbelow
      exact .head ((item_freeze_iff l y).mpr (.inl ⟨hlist, hitem⟩)) hrest
    refine ⟨x, ?_, hx⟩
    induction hpath using ReflTransGen.head_induction_on with
    | refl => exact hfrom hlist hbelow
    | @head o y hitem hrest ih =>
      rcases isList_or_isDict_of_item hitem with ho | ho
      · exact hfrom ho (.head' hitem (hrest.trans hbelow.to_reflTransGen))
      · exact .head ((item_freeze_iff o _).mpr (.inr ⟨ho, y, hitem, rfl⟩)) ih

/-- A list or dict that is not frozen. -/
def Unfrozen (o : PyObject α) : Prop := (o.IsList ∨ o.IsDict) ∧ ¬ o.IsFrozen

theorem not_unfrozen_freeze (o : PyObject α) : ¬ o.freeze.Unfrozen := by
  cases o <;> simp [freeze, Unfrozen, IsList, IsDict, IsFrozen]

theorem not_assignable_of_isFrozen {o : PyObject α} (h : o.IsFrozen) : ¬ o.Assignable := by
  cases o <;> simp_all [IsFrozen, Assignable, indexAssign]

end PyObject

open PyObject

/-- An object that is reached from a value of the dict by indexing lists and dicts. -/
def ReachableFrom (locals : PyDict (PyObject α)) (o : PyObject α) : Prop :=
  ∃ kv ∈ locals, ReflTransGen Item kv.2 o

/-- Freezing a scope is deep exactly if no list that is reached from its locals has a list
or dict below it that is not frozen. -/
theorem scope_freeze_deep_iff (s : Scope (PyObject α)) :
    (∀ o, ReachableFrom s.freeze o → o.IsList ∨ o.IsDict → o.IsFrozen ∧ ¬ o.Assignable) ↔
      ∀ l, ReachableFrom s.locals l → l.IsList → ∀ o, TransGen Item l o → ¬ o.Unfrozen := by
  have hmem : ∀ {o : PyObject α}, ReachableFrom s.freeze o ↔
      ∃ kv ∈ s.locals, ReflTransGen Item kv.2.freeze o := by
    intro o
    simp [ReachableFrom, Scope.freeze, freezeEntries_eq_map]
  constructor
  · rintro hdeep l ⟨kv, hkv, hl⟩ hlist o hbelow hunfrozen
    obtain ⟨x, hpath, hx⟩ := (reachable_freeze_iff not_unfrozen_freeze kv.2).mpr
      ⟨l, o, hl, hlist, hbelow, hunfrozen⟩
    exact hx.2 (hdeep x (hmem.mpr ⟨kv, hkv, hpath⟩) hx.1).1
  · intro hshallow o ho hkind
    obtain ⟨kv, hkv, hpath⟩ := hmem.mp ho
    have hfrozen : o.IsFrozen := by
      by_contra hnot
      obtain ⟨l, x, hl, hlist, hbelow, hx⟩ :=
        (reachable_freeze_iff not_unfrozen_freeze kv.2).mp ⟨o, hpath, hkind, hnot⟩
      exact hshallow l ⟨kv, hkv, hl⟩ hlist x hbelow hx
    exact ⟨hfrozen, not_assignable_of_isFrozen hfrozen⟩

/-- The scope of a file that contains `x = [[1]]`. -/
def nestedListScope : Scope (PyObject ℕ) where
  filename := "defs.build_defs"
  preload := false
  subincludeLabel := "//:defs"
  locals := [("x", .list [.list [.atom "int" 1]])]
  overlay := none

/-- After freezing `x = [[1]]` the assignment `x[0][0] = 2` goes through. -/
theorem nestedList_assignable :
    nestedListScope.freeze = [("x", .frozenList [.list [.atom "int" 1]])] ∧
      ReachableFrom nestedListScope.freeze (.list [.atom "int" 1]) ∧
      (PyObject.list [.atom "int" 1]).indexAssign (.int 0) (.atom "int" 2) =
        .ok (.list [.atom "int" 2]) := by
  refine ⟨rfl, ⟨("x", .frozenList [.list [.atom "int" 1]]), List.mem_singleton_self _, ?_⟩, rfl⟩
  exact .single (List.mem_singleton_self _)

end Please.Asp
