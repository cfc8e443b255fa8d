import Please.Cmap.Once

/-!
# Subincludes

Model of `interpreter.Subinclude` (`src/parse/asp/interpreter.go`, lines
236–276). The globals of a subincluded file are computed once, by the first
package that needs them, through an `ErrMap`; an error of the BUILD language is
a panic of `interpretStatements`, which nothing between it and the `ErrMap`
recovers.

* `panic_reported_iff`: which callers hear about it.
-/

namespace Please.Asp

open Please.Cmap.ErrMap

/-- `pyDict`, with the keys of a Go map. -/
abbrev PyDict (Obj : Type) := List (String × Obj)

/-- What `Subinclude` reads of the scope it is called from. -/
structure PkgScope where
  /-- `pkgScope.state.CurrentSubrepo` -/
  currentSubrepo : String
  /-- `core.IsPreloading(pkgScope.ctx)` -/
  isPreloading : Bool

/-- The scope of a subincluded file. `overlay` holds the local modifications of
its `CONFIG`. -/
structure Scope (Obj : Type) where
  filename : String
  preload : Bool
  subincludeLabel : String
  locals : PyDict Obj
  overlay : Option (PyDict Obj)

/-- What the rest of the interpreter does. A panic of `interpretStatements` is
an `Except.error` with the text `ErrMap` recovers from it. -/
structure Interpreter (Obj Stmt : Type) where
  /-- `filepath.Join` -/
  join : String → String → String
  /-- the copy of the root scope's `CONFIG` -/
  config : Obj
  parseSubinclude : String → Except String (List Stmt)
  preloadSubincludes : Scope Obj → Except String (Scope Obj)
  interpretStatements : Scope Obj → List Stmt → Except String (Scope Obj)
  /-- `Freeze` on one value; values that are not freezable stay -/
  freeze : Obj → Obj

namespace Interpreter

variable {Obj Stmt : Type} (i : Interpreter Obj Stmt)

/-- The key under which the globals are stored (line 238). -/
def subincludeKey (pkgScope : PkgScope) (path : String) : String :=
  i.join path pkgScope.currentSubrepo

/-- The scope in which the file is interpreted (lines 249–267). -/
def subincludeScope (pkgScope : PkgScope) (path label : String) (preload : Bool) :
    Except String (Scope Obj) :=
  let s : Scope Obj := ⟨path, preload, label, [("CONFIG", i.config)], none⟩
  let applyPreloads := !preload && !pkgScope.isPreloading
  if applyPreloads then i.preloadSubincludes s else .ok s

/-- `scope.Freeze` (lines 541–548). -/
def freezeScope (s : Scope Obj) : PyDict Obj := s.locals.map fun kv => (kv.1, i.freeze kv.2)

/-- The function `Subinclude` passes to `GetOrSet` (lines 239–273). -/
def subincludeFunc (pkgScope : PkgScope) (path label : String) (preload : Bool) :
    Outcome (PyDict Obj) String :=
  match i.parseSubinclude path with
  | .error err => .returns [] (some err)
  | .ok stmts =>
    match i.subincludeScope pkgScope path label preload with
    | .error err => .returns [] (some err)
    | .ok s =>
      match i.interpretStatements s stmts with
      | .error r => .panics r
      | .ok s' =>
        let locals := i.freezeScope s'
        -- CONFIG has no local modifications
        if s'.overlay.isNone then .returns (locals.filter fun kv => kv.1 ≠ "CONFIG") none
        else .returns locals none

/-- Interpreting the file raises the asp error `e`. -/
def Raises (pkgScope : PkgScope) (path label : String) (preload : Bool) (e : String) : Prop :=
  ∃ stmts s, i.parseSubinclude path = .ok stmts ∧
    i.subincludeScope pkgScope path label preload = .ok s ∧ i.interpretStatements s stmts = .error e

/-- The function panics exactly if interpreting the file raises an error; a
file that does not parse or whose preloads fail makes it return one. -/
theorem subincludeFunc_eq_panics {pkgScope : PkgScope} {path label : String} {preload : Bool}
    {e : String} : i.subincludeFunc pkgScope path label preload = .panics e ↔
      i.Raises pkgScope path label preload e := by
  unfold subincludeFunc Raises
  constructor
  · intro h
    split at h
    · cases h
    · rename_i stmts hparse
      split at h
      · cases h
      · rename_i s hscope
        split at h
        · rename_i r hinterp
          cases h
          exact ⟨stmts, s, hparse, hscope, hinterp⟩
        · split_ifs at h
  · rintro ⟨stmts, s, hparse, hscope, hinterp⟩
    simp only [hparse, hscope, hinterp]

end Interpreter

/-- The end of `Subinclude` (lines 274–275): the assertion on what `GetOrSet`
returned, then the globals. -/
def subincludeResult {Obj : Type} (label : String) :
    Ret (PyDict Obj) String → Except String (PyDict Obj)
  | .pair globals none => .ok globals
  | .pair _ (some err) => .error ("failed to subinclude " ++ label ++ ": " ++ err)
  | .ctxErr => .error ("failed to subinclude " ++ label ++ ": context canceled")

/-- `Subinclude` succeeds exactly if `GetOrSet` returned a nil error. -/
theorem subincludeResult_isOk {Obj : Type} (label : String) (ret : Ret (PyDict Obj) String) :
    (subincludeResult label ret).toBool = !ret.failed := by
  cases ret with
  | pair _ err => cases err <;> rfl
  | ctxErr => rfl

/-- The globals of the file are, or have been, computed by a package that
called `Subinclude` with these arguments. -/
def Subincluded {Obj Stmt : Type} (s : State String (PyDict Obj) String) (i : Interpreter Obj Stmt)
    (pkgScope : PkgScope) (path label : String) (preload : Bool) : Prop :=
  ∃ c x, s.Executor c x ∧ x.key = i.subincludeKey pkgScope path ∧
    x.f = i.subincludeFunc pkgScope path label preload

/-- **Who hears of a panic.** Along every run in which the function that is run
for a key panics, a caller of the key gets a non-nil error if and only if
the key already had an entry when its `GetOrWait` looked: everybody except
the caller that ran the function. In particular, when interpreting a
subincluded file raises an error, `Subinclude` fails for every package but
the first. -/
theorem panic_reported_iff {K V E Obj Stmt : Type} [DecidableEq K] [Inhabited V] :
    (∀ (limited : Bool) (s₁ s₃ : State K V E) (c : ℕ) (key : K) (ret : Ret V E) (e : E),
      Served limited s₁ s₃ c key ret → s₃.Panicked key e →
      (ret.failed = true ↔ s₁.map.lookup key ≠ none)) ∧
    ∀ (limited : Bool) (s₁ s₃ : State String (PyDict Obj) String) (c : ℕ)
      (ret : Ret (PyDict Obj) String) (i : Interpreter Obj Stmt) (pkgScope : PkgScope)
      (path label label' : String) (preload : Bool) (e : String),
      Served limited s₁ s₃ c (i.subincludeKey pkgScope path) ret →
      Subincluded s₃ i pkgScope path label preload → i.Raises pkgScope path label preload e →
      ((subincludeResult label' ret).toBool = false ↔
        s₁.map.lookup (i.subincludeKey pkgScope path) ≠ none) := by
  refine ⟨fun limited s₁ s₃ c key ret e h hp => h.failed_iff hp, ?_⟩
  intro limited s₁ s₃ c ret i pkgScope path label label' preload e h hsub hraises
  obtain ⟨c₀, x, hx, hk, hf⟩ := hsub
  have hp : s₃.Panicked (i.subincludeKey pkgScope path) e :=
    ⟨c₀, x, hx, hk, hf.trans (i.subincludeFunc_eq_panics.mpr hraises)⟩
  rw [subincludeResult_isOk, Bool.not_eq_false', h.failed_iff hp]

/-- A file whose interpretation always raises `"boom"`. -/
def failing : Interpreter ℕ ℕ where
  join := fun path _ => path
  config := 0
  parseSubinclude := fun _ => .ok []
  preloadSubincludes := .ok
  interpretStatements := fun _ _ => .error "boom"
  freeze := id

/-- The `ErrMap` of an interpreter that has subincluded nothing. -/
def noSubincludes : State String (PyDict ℕ) String :=
  ⟨⟨1, 0, fun _ => 0, fun _ => ⟨∅⟩, Nat.one_pos⟩, 0, [], fun _ => none, []⟩

theorem noSubincludes_reachable : (system String (PyDict ℕ) String true).Reachable noSubincludes :=
  .init ⟨⟨1, Nat.one_pos, fun _ => 0, rfl⟩, rfl, rfl, fun _ => rfl⟩

/-- A package subincludes the failing file. -/
def subinclude (c : ℕ) : Event String (PyDict ℕ) String :=
  .invoke c (failing.subincludeKey ⟨"", false⟩ "defs.build") false
    (failing.subincludeFunc ⟨"", false⟩ "defs.build" "//:defs" false)

/-- The first package to subinclude the failing file gets a nil error, and its
`Subinclude` succeeds. -/
theorem first_subinclude_succeeds :
    ¬ ∀ (s₁ s₃ : State String (PyDict ℕ) String) (c : ℕ) (ret : Ret (PyDict ℕ) String),
      Served true s₁ s₃ c "defs.build" ret → s₃.Panicked "defs.build" "boom" →
      ret.failed = true ∨ (subincludeResult "//:defs" ret).toBool = false := by
  intro h
  obtain ⟨s₁, s₂, s₃, hexec, h₁, hstep, h₂, hrun, h₃, hruns⟩ : ∃ s₁ s₂ s₃,
      (system String (PyDict ℕ) String true).exec noSubincludes [subinclude 0, .run 0] = some s₁ ∧
      s₁.callers 0 = some ⟨"defs.build", false, .panics "boom", false, .missed⟩ ∧
      step true s₁ (.run 0) = some s₂ ∧
      s₂.callers 0 = some ⟨"defs.build", false, .panics "boom", false, .running⟩ ∧
      (system String (PyDict ℕ) String true).exec s₂ [.run 0, .run 0] = some s₃ ∧
      s₃.callers 0 = some ⟨"defs.build", false, .panics "boom", false, .returned (.pair [] none)⟩ ∧
      s₃.runs = [0] := ⟨_, _, _, rfl, rfl, rfl, rfl, rfl, rfl, rfl⟩
  have hserved : Served true s₁ s₃ 0 "defs.build" (.pair [] none) :=
    ⟨noSubincludes_reachable.exec hexec, ⟨_, h₁, fun hp => hp.2 rfl, rfl⟩,
      ⟨s₂, _, hstep, h₂, ⟨nofun, nofun⟩, .of_exec hrun⟩, ⟨_, h₃, rfl, rfl⟩⟩
  have hpanicked : s₃.Panicked "defs.build" "boom" :=
    ⟨0, _, ⟨by rw [hruns]; exact List.mem_singleton_self 0, h₃⟩, rfl, rfl⟩
  rcases h s₁ s₃ 0 _ hserved hpanicked with hfailed | hfailed
  · cases hfailed
  · cases hfailed

/-- The second package does. -/
theorem panic_reported_iff_second : ∃ (s₁ s₃ : State String (PyDict ℕ) String)
    (ret : Ret (PyDict ℕ) String), Served true s₁ s₃ 1 "defs.build" ret ∧
      ret.failed = true ∧ (subincludeResult "//:defs" ret).toBool = false := by
  obtain ⟨s₁, s₃, hexec, h₁, hstep, h₃, hruns, hx, hl⟩ : ∃ s₁ s₃,
      (system String (PyDict ℕ) String true).exec noSubincludes
        [subinclude 0, .run 0, .run 0, .run 0, .run 0, subinclude 1] = some s₁ ∧
      s₁.callers 1 = some ⟨"defs.build", false, .panics "boom", false, .called⟩ ∧
      step true s₁ (.run 1) = some s₃ ∧
      s₃.callers 1 = some ⟨"defs.build", false, .panics "boom", false,
        .returned (.pair [] (some "boom"))⟩ ∧
      s₃.runs = [0] ∧
      s₃.callers 0 = some ⟨"defs.build", false, .panics "boom", false, .returned (.pair [] none)⟩ ∧
      s₁.map.lookup "defs.build" = some ⟨⟨some "boom", []⟩, none⟩ :=
    ⟨_, _, rfl, rfl, rfl, rfl, rfl, rfl, rfl⟩
  have hserved : Served true s₁ s₃ 1 "defs.build" (.pair [] (some "boom")) :=
    ⟨noSubincludes_reachable.exec hexec, ⟨_, h₁, fun hp => hp.1 rfl, rfl⟩,
      ⟨s₃, _, hstep, h₃, ⟨nofun, nofun⟩, .refl⟩, ⟨_, h₃, rfl, rfl⟩⟩
  have hx' : s₃.Executor 0 _ := ⟨by rw [hruns]; exact List.mem_singleton_self 0, hx⟩
  have hne : s₁.map.lookup "defs.build" ≠ none := by rw [hl]; exact Option.some_ne_none _
  have hboth := @panic_reported_iff String (PyDict ℕ) String ℕ ℕ _ _
  refine ⟨s₁, s₃, _, hserved, ?_, ?_⟩
  · exact (hboth.1 true s₁ s₃ 1 _ _ _ hserved ⟨0, _, hx', rfl, rfl⟩).mpr hne
  · exact (hboth.2 true s₁ s₃ 1 _ failing ⟨"", false⟩ "defs.build" "//:defs" "//:defs" false "boom"
      hserved ⟨0, _, hx', rfl, rfl⟩ ⟨[], _, rfl, rfl, rfl⟩).mpr hne

end Please.Asp
