import Please.Query.Changes

/-!
# The declared outputs of a target

Model of how outputs are declared (`AddOutput`, `AddNamedOutput`, `insert`;
`src/core/build_target.go`), of their names in the temporary directory (`GetTmpOutput`,
`GetRealOutput`), and of their registration in the package (`RegisterOutput`, `src/core/package.go`;
`addMaybeNamedOutput`, `src/parse/asp/targets.go`; `AddTarget`, `src/core/state.go`).

* `tmpOutput_reversible_iff`: when temporary names can be turned back.
* `outputs_owned_iff`: when no two targets have an output in common. Outputs are registered as they
  are written, and those without a group also as they are stored.
-/

namespace Please.Core

open Please.Fs (hasPrefix trimPrefix)
open Please.Lib.Except BuildTarget
open Please.Query (hasSource)
open List
open Except (ok.inj)

/-! ## Declaring an output -/

/-- The loop of `insert` (build_target.go, lines 1893–1906). -/
def insertSorted (s : String) : List String → List String
  | [] => [s]
  | x :: sl => if s = x then x :: sl else if s < x then s :: x :: sl else x :: insertSorted s sl

/-- The output as it is declared (line 1892). -/
def cleanOutput (s : String) : String := trimPrefix s "./"

/-- `BuildTarget.insert` (lines 1889–1907). -/
def insertOutput (sl : List String) (s : String) : Except String (List String) :=
  if s = "" then .error "Cannot add an empty string as an output of a target"
  else .ok (insertSorted (cleanOutput s) sl)

namespace BuildTarget

variable (target : BuildTarget)

/-- `BuildTarget.AddOutput` (lines 1846–1848). -/
def addOutput (output : String) : Except String BuildTarget :=
  (fun outs => { target with outputs := outs }) <$> insertOutput target.outputs output

/-- `BuildTarget.AddOptionalOutput` (lines 1851–1853). -/
def addOptionalOutput (output : String) : Except String BuildTarget :=
  (fun outs => { target with optionalOutputs := outs }) <$>
    insertOutput target.optionalOutputs output

/-- `BuildTarget.AddNamedOutput` (lines 1862–1867). -/
def addNamedOutput (name output : String) : Except String BuildTarget :=
  (fun outs => { target with namedOutputs := target.namedOutputs.insert name outs }) <$>
    insertOutput ((target.namedOutputs.lookup name).getD []) output

/-- The path is among the declared outputs, named or not. -/
def Declares (p : String) : Prop :=
  p ∈ target.outputs ∨ ∃ name outs, target.namedOutputs.lookup name = some outs ∧ p ∈ outs

end BuildTarget

variable {sl : List String}

theorem mem_insertSorted {s p : String} : p ∈ insertSorted s sl ↔ p = s ∨ p ∈ sl := by
  induction sl with
  | nil => simp [insertSorted]
  | cons x sl ih =>
    rw [insertSorted]
    split
    case isTrue hx =>
      subst hx
      simp
    case isFalse =>
      split
      case isTrue => simp
      case isFalse => rw [mem_cons, ih, mem_cons, or_left_comm]

theorem pairwise_insertSorted {s : String} (h : sl.Pairwise (· < ·)) :
    (insertSorted s sl).Pairwise (· < ·) := by
  induction sl with
  | nil => exact pairwise_singleton _ _
  | cons x sl ih =>
    obtain ⟨hx, hsl⟩ := pairwise_cons.mp h
    rw [insertSorted]
    split
    case isTrue => exact h
    case isFalse hne =>
      split
      case isTrue hlt =>
        refine pairwise_cons.mpr ⟨forall_mem_cons.mpr ⟨hlt, fun y hy => ?_⟩, h⟩
        exact hlt.trans (hx y hy)
      case isFalse hlt =>
        have hxs : x < s := lt_of_le_of_ne (not_lt.mp hlt) (Ne.symm hne)
        refine pairwise_cons.mpr ⟨fun y hy => ?_, ih hsl⟩
        rcases mem_insertSorted.mp hy with rfl | hy
        · exact hxs
        · exact hx y hy

/-- The outputs after a sequence of them was added. -/
def insertAll (os sl : List String) : List String :=
  os.foldl (fun sl o => insertSorted (cleanOutput o) sl) sl

theorem mem_insertAll {os : List String} {p : String} :
    p ∈ insertAll os sl ↔ p ∈ sl ∨ ∃ o ∈ os, p = cleanOutput o :=
  Lib.foldl_iff_or (p := (p ∈ ·)) fun sl o => by rw [mem_insertSorted, or_comm]

theorem pairwise_insertAll {os : List String} (h : sl.Pairwise (· < ·)) :
    (insertAll os sl).Pairwise (· < ·) :=
  foldlRecOn _ _ h fun _ h _ _ => pairwise_insertSorted h

/-- Neither the order in which outputs are added nor how often makes a difference. -/
theorem insertAll_congr {os os' : List String} (h : ∀ o, o ∈ os ↔ o ∈ os') :
    insertAll os [] = insertAll os' [] := by
  refine (pairwise_insertAll .nil).eq_of_mem_iff (pairwise_insertAll .nil) fun p => ?_
  simp only [mem_insertAll, h]

theorem foldlM_addOutput_eq {os : List String} (h : ∀ o ∈ os, o ≠ "") (t : BuildTarget) :
    os.foldlM addOutput t = .ok { t with outputs := insertAll os t.outputs } := by
  induction os generalizing t with
  | nil => rfl
  | cons o os ih =>
    obtain ⟨ho, hos⟩ := forall_mem_cons.mp h
    rw [foldlM_cons, addOutput, insertOutput, if_neg ho]
    exact ih hos _

/-- Calls of `AddOutput` leave the names in order, each once. What is left depends on which names
are given only. -/
theorem outputs_sorted {os : List String} (h : ∀ o ∈ os, o ≠ "") {t : BuildTarget}
    (ht : t.outputs = []) : ∃ outs : List String, outs.Pairwise (· < ·) ∧
      (∀ p, p ∈ outs ↔ ∃ o ∈ os, p = cleanOutput o) ∧ ∀ os' : List String, (∀ o, o ∈ os' ↔ o ∈ os) →
        os'.foldlM addOutput t = .ok { t with outputs := outs } := by
  refine ⟨insertAll os [], pairwise_insertAll .nil, fun p => ?_, fun os' hos => ?_⟩
  · rw [mem_insertAll, or_iff_right not_mem_nil]
  · rw [foldlM_addOutput_eq fun o ho => h o ((hos o).mp ho), ht, insertAll_congr hos]

theorem outputs_sorted_twice : ∃ outs : List String, outs.Pairwise (· < ·) ∧
    (∀ p, p ∈ outs ↔ ∃ o ∈ ["b", "a", "./b"], p = cleanOutput o) ∧
      ∀ os' : List String, (∀ o, o ∈ os' ↔ o ∈ ["b", "a", "./b"]) →
        os'.foldlM addOutput (.new ⟨"p", "t", ""⟩) =
          .ok { new ⟨"p", "t", ""⟩ with outputs := outs } :=
  outputs_sorted (by decide) rfl

theorem insertOutput_eq_ok {s : String} {sl' : List String} (h : insertOutput sl s = .ok sl') :
    sl' = insertSorted (cleanOutput s) sl := by
  rw [insertOutput] at h
  split at h
  · cases h
  · exact (ok.inj h).symm

/-! ## Temporary names -/

/-- `tempOutputSuffix` (line 57). -/
def tempOutputSuffix : String := ".out"

/-- What is left of a string without a suffix that it has: `strings.HasSuffix` and `TrimSuffix`. -/
def trimSuffix? (s suffix : String) : Option String :=
  if suffix.toList.isSuffixOf s.toList then
    some (String.ofList (s.toList.take (s.toList.length - suffix.toList.length)))
  else none

theorem trimSuffix?_eq_some {s suffix r : String} :
    trimSuffix? s suffix = some r ↔ s = r ++ suffix := by
  rw [trimSuffix?, ← String.toList_inj, String.toList_append]
  constructor
  · intro h
    split at h
    case isFalse => cases h
    case isTrue hsuffix =>
      obtain ⟨t, ht⟩ := isSuffixOf_iff_suffix.mp hsuffix
      rw [← Option.some.inj h, String.toList_ofList, ← ht]
      simp
  · intro h
    rw [if_pos (isSuffixOf_iff_suffix.mpr ⟨r.toList, h.symm⟩), h]
    simp

section temporary

variable (target : BuildTarget)

/-- `BuildTarget.GetTmpOutput` (lines 961–972). -/
def getTmpOutput (parseOutput : String) : String :=
  if target.isFilegroup then parseOutput
  else if parseOutput = target.label.packageName then parseOutput ++ tempOutputSuffix
  else if target.label.packageName = "" && hasSource target parseOutput then
    parseOutput ++ tempOutputSuffix
  else parseOutput

/-- `BuildTarget.GetRealOutput` (lines 986–995). -/
def getRealOutput (output : String) : String :=
  match trimSuffix? output tempOutputSuffix with
  | none => output
  | some real => if getTmpOutput target real = output then real else output

/-- The name is that of the package, or in the root package that of a source or below one. -/
def Renamed (o : String) : Prop :=
  o = target.label.packageName ∨ (target.label.packageName = "" ∧ hasSource target o = true)

instance (o : String) : Decidable (Renamed target o) := inferInstanceAs (Decidable (_ ∨ _))

variable {target} (hfilegroup : target.isFilegroup = false)
include hfilegroup

theorem getTmpOutput_eq (o : String) :
    getTmpOutput target o = if Renamed target o then o ++ tempOutputSuffix else o := by
  rw [getTmpOutput, hfilegroup]
  by_cases hpkg : o = target.label.packageName
  · simp [Renamed, hpkg]
  · by_cases hsource : target.label.packageName = "" ∧ hasSource target o = true
    · simp [Renamed, hsource]
    · simp [Renamed, hpkg, hsource]

theorem getTmpOutput_eq_append {r : String} :
    getTmpOutput target r = r ++ tempOutputSuffix ↔ Renamed target r := by
  rw [getTmpOutput_eq hfilegroup]
  split
  case isTrue h => exact iff_of_true rfl h
  case isFalse h =>
    refine iff_of_false (fun heq => ?_) h
    have hlength := congrArg String.length heq
    simp [tempOutputSuffix] at hlength

/-- An output comes back unless it has the suffix, does not get another, and what is left of it
would get one. -/
theorem getRealOutput_getTmpOutput (o : String) :
    getRealOutput target (getTmpOutput target o) = o ↔
      ¬∃ r, o = r ++ tempOutputSuffix ∧ Renamed target r ∧ ¬Renamed target o := by
  by_cases ho : Renamed target o
  · have htmp := (getTmpOutput_eq_append hfilegroup).mpr ho
    refine iff_of_true ?_ fun ⟨r, _, _, hno⟩ => hno ho
    rw [getRealOutput, htmp, trimSuffix?_eq_some.mpr rfl]
    exact if_pos htmp
  · have htmp : getTmpOutput target o = o := by rw [getTmpOutput_eq hfilegroup, if_neg ho]
    rw [htmp, getRealOutput]
    cases h : trimSuffix? o tempOutputSuffix with
    | none =>
      refine iff_of_true rfl ?_
      rintro ⟨r, heq, -⟩
      rw [trimSuffix?_eq_some.mpr heq] at h
      cases h
    | some r =>
      obtain rfl := trimSuffix?_eq_some.mp h
      dsimp only
      split
      case isTrue hr =>
        have hr := (getTmpOutput_eq_append hfilegroup).mp hr
        exact iff_of_false (fun heq => ho (heq ▸ hr)) (not_not.mpr ⟨r, rfl, hr, ho⟩)
      case isFalse hr =>
        refine iff_of_true rfl ?_
        rintro ⟨r', heq, hr', -⟩
        rw [trimSuffix?_eq_some.mpr heq] at h
        obtain rfl := Option.some.inj h
        exact hr ((getTmpOutput_eq_append hfilegroup).mpr hr')

/-- Temporary names of declared outputs are reversible and differ, if and only if no declared output
is named like the temporary name of something else. -/
theorem tmpOutput_reversible_iff :
    (∀ o₁, target.Declares o₁ → getRealOutput target (getTmpOutput target o₁) = o₁ ∧
      ∀ o₂, target.Declares o₂ → o₁ ≠ o₂ → getTmpOutput target o₁ ≠ getTmpOutput target o₂) ↔
      ∀ o, target.Declares o →
        ¬∃ r, o = r ++ tempOutputSuffix ∧ Renamed target r ∧ ¬Renamed target o := by
  constructor
  · exact fun h o ho => (getRealOutput_getTmpOutput hfilegroup o).mp (h o ho).1
  · intro h o₁ ho₁
    have hreal {o : String} (ho : target.Declares o) :
        getRealOutput target (getTmpOutput target o) = o :=
      (getRealOutput_getTmpOutput hfilegroup o).mpr (h o ho)
    refine ⟨hreal ho₁, fun o₂ ho₂ hne heq => hne ?_⟩
    calc o₁ = getRealOutput target (getTmpOutput target o₁) := (hreal ho₁).symm
      _ = getRealOutput target (getTmpOutput target o₂) := by rw [heq]
      _ = o₂ := hreal ho₂

end temporary

/-- A target in the package `a`, with outputs. -/
def outputsRule (outs : List String) : BuildTarget :=
  { new ⟨"a", "t", ""⟩ with outputs := outs }

theorem tmpOutput_reversible_outputsRule :
    (∀ o₁, (outputsRule ["a", "b"]).Declares o₁ →
      getRealOutput (outputsRule ["a", "b"]) (getTmpOutput (outputsRule ["a", "b"]) o₁) = o₁ ∧
      ∀ o₂, (outputsRule ["a", "b"]).Declares o₂ → o₁ ≠ o₂ →
        getTmpOutput (outputsRule ["a", "b"]) o₁ ≠ getTmpOutput (outputsRule ["a", "b"]) o₂) ↔
      ∀ o, (outputsRule ["a", "b"]).Declares o → ¬∃ r, o = r ++ tempOutputSuffix ∧
        Renamed (outputsRule ["a", "b"]) r ∧ ¬Renamed (outputsRule ["a", "b"]) o :=
  tmpOutput_reversible_iff rfl

theorem tmpOutput_clash :
    (outputsRule ["a", "a.out"]).Declares "a" ∧ (outputsRule ["a", "a.out"]).Declares "a.out" ∧
      getTmpOutput (outputsRule ["a", "a.out"]) "a" =
        getTmpOutput (outputsRule ["a", "a.out"]) "a.out" ∧
      getRealOutput (outputsRule ["a", "a.out"])
        (getTmpOutput (outputsRule ["a", "a.out"]) "a.out") = "a" :=
  ⟨.inl (by decide), .inl (by decide), by decide +kernel, by decide +kernel⟩

/-! ## Registration -/

/-- The arguments of `build_rule` that say what its outputs are; `testOutputs` of a test. -/
structure RuleOutputs where
  label : BuildLabel
  isBinary : Bool := false
  isFilegroup : Bool := false
  srcs : List BuildInput := []
  outs : List String := []
  namedOuts : List (String × List String) := []
  optionalOuts : List String := []
  testOutputs : List String := []

/-- What is read of the target that an output is registered for. Targets of one package have
different labels. -/
structure Owner where
  label : BuildLabel
  isFilegroup : Bool
deriving DecidableEq

/-- `Package.Outputs`. -/
abbrev Owners := String → Option Owner

/-- The key of an output (package.go, lines 177–179). -/
def outputKey (isBinary : Bool) (fileName : String) : String :=
  if isBinary then ":_bin_" ++ fileName else fileName

namespace BuildTarget

variable (target : BuildTarget)

/-- The target as an owner. -/
def owner : Owner := ⟨target.label, target.isFilegroup⟩

/-- `BuildTarget.AllLocalSourceLocalPaths` (build_target.go, lines 1654–1667). -/
def allLocalSourceLocalPaths : List String :=
  target.allSources.filterMap fun
    | .file file _ => some file
    | _ => none

end BuildTarget

/-- The owners after a registration. -/
def Owners.set (owners : Owners) (key : String) (owner : Owner) : Owners :=
  fun k => if k = key then some owner else owners k

/-- `Package.RegisterOutput` (package.go, lines 173–193), in the package with the build file
`filename`. -/
def registerOutput (filename : String) (target : BuildTarget) (owners : Owners)
    (fileName : String) : Except String Owners :=
  let key := outputKey target.isBinary fileName
  match owners key with
  | none => .ok (owners.set key target.owner)
  | some existing =>
    if existing ≠ target.owner && (!target.isFilegroup || !existing.isFilegroup) then
      .error ("rules " ++ existing.label.toStr ++ " and " ++ target.label.toStr ++ " in " ++
        filename ++ " both attempt to output the same file: " ++ fileName)
    else .ok (owners.set key target.owner)

/-- A target that is being populated, with its field `Test.Outputs`, and what is registered in its
package. -/
structure Populating where
  owners : Owners
  target : BuildTarget
  testOutputs : List String := []

namespace Populating

/-- An output is added to the target. -/
def addWith (add : BuildTarget → String → Except String BuildTarget) (st : Populating)
    (out : String) : Except String Populating :=
  (fun target => { st with target }) <$> add st.target out

/-- `BuildTarget.AddTestOutput` (build_target.go, lines 1856–1858). -/
def addTestOutput (st : Populating) (out : String) : Except String Populating :=
  (fun testOutputs => { st with testOutputs }) <$> insertOutput st.testOutputs out

end Populating

/-- An output is registered unless it is a pattern for optional ones (targets.go, lines 422 and
436). -/
def registerDeclared (filename : String) (optional : Bool) (out : String) (st : Populating) :
    Except String Owners :=
  if !optional || !hasPrefix out "*" then registerOutput filename st.target st.owners out
  else .ok st.owners

/-- A list of outputs is added and registered (targets.go, lines 416–425, 428–439). -/
def addOutputs (filename : String) (add : Populating → String → Except String Populating)
    (optional : Bool) (outs : List String) (st : Populating) : Except String Populating :=
  outs.foldlM (fun st out => do
    let st ← add st out
    let owners ← registerDeclared filename optional out st
    .ok { st with owners }) st

/-- The sources and outputs of a new target (targets.go, lines 279, 283–284, 316). -/
def populateOutputs (filename : String) (args : RuleOutputs) (owners : Owners) :
    Except String Populating := do
  let target := { new args.label with
    isBinary := args.isBinary, isFilegroup := args.isFilegroup, sources := args.srcs }
  let st ← addOutputs filename (Populating.addWith addOutput) false args.outs { owners, target }
  let st ← args.namedOuts.foldlM (fun st named =>
    addOutputs filename (Populating.addWith (·.addNamedOutput named.1)) false named.2 st) st
  let st ← addOutputs filename (Populating.addWith addOptionalOutput) true args.optionalOuts st
  addOutputs filename Populating.addTestOutput false args.testOutputs st

/-- `fs.IsGlob` (glob.go, lines 66–68). -/
def isGlob (pattern : String) : Bool := pattern.toList.any "*?[".toList.contains

/-- What `BuildState.AddTarget` registers (state.go, lines 620–643). -/
def addTarget (filename : String) (st : Populating) : Except String Owners :=
  let outs := if st.target.isFilegroup then st.target.allLocalSourceLocalPaths
    else st.target.outputs ++ st.testOutputs.filter (!isGlob ·)
  outs.foldlM (registerOutput filename st.target) st.owners

/-- A package, as far as its targets and outputs go. -/
structure OutputPackage where
  owners : Owners := fun _ => none
  targets : List BuildTarget := []

/-- `buildRule` (builtins.go, lines 212–215). -/
def buildRule (name filename : String) (pkg : OutputPackage) (args : RuleOutputs) :
    Except String OutputPackage :=
  if pkg.targets.any (·.label = args.label) then
    .error ("Duplicate build target in " ++ name ++ ": " ++ args.label.name)
  else do
    let st ← populateOutputs filename args pkg.owners
    let owners ← addTarget filename st
    .ok ⟨owners, pkg.targets ++ [st.target]⟩

/-! ## Ownership -/

namespace RuleOutputs

variable (args : RuleOutputs)

/-- The outputs as they are written. -/
def written : List String := args.outs ++ args.namedOuts.flatMap (·.2)

/-- The names under which an output is registered: as it is written, and as it is stored if it has
no group and the rule is no filegroup. -/
def Registers (out name : String) : Prop :=
  name = out ∨ (out ∈ args.outs ∧ args.isFilegroup = false ∧ name = cleanOutput out)

/-- The rule as an owner. -/
def owner : Owner := ⟨args.label, args.isFilegroup⟩

end RuleOutputs

/-- The key is registered for the owner, or for another filegroup if it is one itself. -/
def Owners.Holds (owners : Owners) (key : String) (a : Owner) : Prop :=
  ∃ w, owners key = some w ∧ (w = a ∨ (w.isFilegroup = true ∧ a.isFilegroup = true))

/-- Two targets that hold a key are the same, or both filegroups. -/
theorem Owners.Holds.unique {owners : Owners} {key : String} {a b : Owner} (ha : owners.Holds key a)
    (hb : owners.Holds key b) : a = b ∨ (a.isFilegroup = true ∧ b.isFilegroup = true) := by
  obtain ⟨w, hw, ha⟩ := ha
  obtain ⟨w', hw', hb⟩ := hb
  obtain rfl := Option.some.inj (hw.symm.trans hw')
  rcases ha with rfl | ha
  · exact hb
  · rcases hb with rfl | hb
    · exact .inr ⟨ha.2, ha.1⟩
    · exact .inr ⟨ha.2, hb.2⟩

variable {filename : String}

/-- A registration holds its key, and what was held stays so. -/
theorem holds_registerOutput {fileName : String} {owners owners' : Owners} {target : BuildTarget}
    (h : registerOutput filename target owners fileName = .ok owners') :
    owners'.Holds (outputKey target.isBinary fileName) target.owner ∧
      ∀ key a, owners.Holds key a → owners'.Holds key a := by
  have hset : owners' = owners.set (outputKey target.isBinary fileName) target.owner ∧
      ∀ w, owners (outputKey target.isBinary fileName) = some w →
        w = target.owner ∨ (target.isFilegroup = true ∧ w.isFilegroup = true) := by
    rw [registerOutput] at h
    cases hw : owners (outputKey target.isBinary fileName) with
    | none =>
      rw [hw] at h
      exact ⟨(ok.inj h).symm, by simp⟩
    | some =>
      rw [hw] at h
      dsimp only at h
      split at h
      · cases h
      case isFalse hno =>
        refine ⟨(ok.inj h).symm, ?_⟩
        simpa [or_iff_not_imp_left] using hno
  obtain ⟨rfl, hold⟩ := hset
  have hnew : owners.set (outputKey target.isBinary fileName) target.owner
      (outputKey target.isBinary fileName) = some target.owner := if_pos rfl
  refine ⟨⟨_, hnew, .inl rfl⟩, fun key a ⟨w, hw, ha⟩ => ?_⟩
  by_cases hkey : key = outputKey target.isBinary fileName
  · subst hkey
    refine ⟨_, hnew, ?_⟩
    rcases hold w hw with rfl | ⟨ht, hfw⟩
    · exact ha
    · rcases ha with rfl | ha
      · exact .inr ⟨ht, hfw⟩
      · exact .inr ⟨ht, ha.2⟩
  · exact ⟨w, (if_neg hkey).trans hw, ha⟩

theorem holds_foldlM_registerOutput {outs : List String} {owners owners' : Owners}
    {target : BuildTarget} (h : outs.foldlM (registerOutput filename target) owners = .ok owners') :
    (∀ o ∈ outs, owners'.Holds (outputKey target.isBinary o) target.owner) ∧
      ∀ key a, owners.Holds key a → owners'.Holds key a := by
  induction outs generalizing owners with
  | nil =>
    obtain rfl := ok.inj h
    exact ⟨by simp, fun _ _ => id⟩
  | cons out _ ih =>
    obtain ⟨owners₁, howners₁, h⟩ := bind_eq_ok.mp h
    obtain ⟨hholds, hkept⟩ := holds_registerOutput howners₁
    obtain ⟨hholds', hkept'⟩ := ih h
    exact ⟨forall_mem_cons.mpr ⟨hkept' _ _ hholds, hholds'⟩,
      fun key a ha => hkept' key a (hkept key a ha)⟩

/-- What adding outputs to a target does: which ones it has then without a group and which ones it
declares, as they are written, and which ones it holds. -/
structure Populates (unnamed declared held : List String) (st st' : Populating) : Prop where
  owner : st'.target.owner = st.target.owner
  isBinary : st'.target.isBinary = st.target.isBinary
  outputs : ∀ p, p ∈ st'.target.outputs ↔ p ∈ st.target.outputs ∨ ∃ o ∈ unnamed, p = cleanOutput o
  declares : ∀ p, st'.target.Declares p ↔ st.target.Declares p ∨ ∃ o ∈ declared, p = cleanOutput o
  kept : ∀ key a, st.owners.Holds key a → st'.owners.Holds key a
  holds : ∀ o ∈ held, st'.owners.Holds (outputKey st.target.isBinary o) st.target.owner

theorem Populates.refl (st : Populating) : Populates [] [] [] st st :=
  ⟨rfl, rfl, by simp, by simp, fun _ _ => id, by simp⟩

theorem Populates.trans {us ds hs us' ds' hs' : List String} {st st₁ st' : Populating}
    (h : Populates us ds hs st st₁) (h' : Populates us' ds' hs' st₁ st') :
    Populates (us ++ us') (ds ++ ds') (hs ++ hs') st st' where
  owner := h'.owner.trans h.owner
  isBinary := h'.isBinary.trans h.isBinary
  outputs p := by
    simp only [h'.outputs, h.outputs, mem_append, or_and_right, exists_or, or_assoc]
  declares p := by
    simp only [h'.declares, h.declares, mem_append, or_and_right, exists_or, or_assoc]
  kept key a ha := h'.kept key a (h.kept key a ha)
  holds o ho := by
    rcases mem_append.mp ho with ho | ho
    · exact h'.kept _ _ (h.holds o ho)
    · rw [← h.isBinary, ← h.owner]
      exact h'.holds o ho

/-- What adding one output does: whether it is then an output without a group, and whether it is
declared. -/
def Adds (add : Populating → String → Except String Populating) (unnamed declares : Bool) : Prop :=
  ∀ st out st', add st out = .ok st' →
    Populates (if unnamed then [out] else []) (if declares then [out] else []) [] st st'

theorem populates_addOutputs {add : Populating → String → Except String Populating}
    {unnamed declares optional : Bool} (hadd : Adds add unnamed declares) {outs : List String}
    {st st' : Populating} (h : addOutputs filename add optional outs st = .ok st') :
    Populates (if unnamed then outs else []) (if declares then outs else [])
      (if optional then [] else outs) st st' := by
  induction outs generalizing st with
  | nil =>
    obtain rfl := ok.inj h
    simpa using .refl st
  | cons out _ ih =>
    obtain ⟨st₁, hst₁, h⟩ := bind_eq_ok.mp h
    obtain ⟨st₂, hst₂, hst₁⟩ := bind_eq_ok.mp hst₁
    obtain ⟨owners, howners, hst₁⟩ := bind_eq_ok.mp hst₁
    obtain rfl := ok.inj hst₁
    have hregister : Populates [] [] (if optional then [] else [out]) st₂ { st₂ with owners } := by
      rw [registerDeclared] at howners
      split at howners
      case isTrue =>
        obtain ⟨hholds, hkept⟩ := holds_registerOutput howners
        refine ⟨rfl, rfl, by simp, by simp, hkept, fun o ho => ?_⟩
        cases optional with
        | true => cases ho
        | false => rwa [mem_singleton.mp ho]
      case isFalse hno =>
        obtain rfl := ok.inj howners
        have hoptional : optional = true := by
          cases optional <;> simp_all
        simpa [hoptional] using .refl st₂
    have hall := ((hadd _ _ _ hst₂).trans hregister).trans (ih h)
    cases unnamed <;> cases declares <;> cases optional <;> simpa using hall

theorem adds_addWith {add : BuildTarget → String → Except String BuildTarget}
    {unnamed declares : Bool}
    (hadd : ∀ t out t', add t out = .ok t' → t'.owner = t.owner ∧ t'.isBinary = t.isBinary ∧
      (∀ p, p ∈ t'.outputs ↔ p ∈ t.outputs ∨ (unnamed = true ∧ p = cleanOutput out)) ∧
      ∀ p, t'.Declares p ↔ t.Declares p ∨ (declares = true ∧ p = cleanOutput out)) :
    Adds (Populating.addWith add) unnamed declares := by
  intro st out st' h
  obtain ⟨t, ht, rfl⟩ := map_eq_ok.mp h
  obtain ⟨howner, hbinary, houtputs, hdeclares⟩ := hadd _ _ _ ht
  refine ⟨howner, hbinary, fun p => (houtputs p).trans ?_, fun p => (hdeclares p).trans ?_,
    fun _ _ => id, by simp⟩
  · cases unnamed <;> simp
  · cases declares <;> simp

theorem adds_addOutput : Adds (Populating.addWith addOutput) true true := by
  refine adds_addWith fun t out t' h => ?_
  obtain ⟨outs, houts, rfl⟩ := map_eq_ok.mp h
  obtain rfl := insertOutput_eq_ok houts
  refine ⟨rfl, rfl, fun p => ?_, fun p => ?_⟩
  · simp only [mem_insertSorted, true_and, or_comm]
  · simp only [Declares, mem_insertSorted, true_and]
    rw [or_assoc, or_comm]

theorem adds_addOptionalOutput : Adds (Populating.addWith addOptionalOutput) false false := by
  refine adds_addWith fun t out t' h => ?_
  obtain ⟨outs, -, rfl⟩ := map_eq_ok.mp h
  exact ⟨rfl, rfl, by simp, fun p => by simp [Declares]⟩

theorem adds_addTestOutput : Adds Populating.addTestOutput false false := by
  intro st out st' h
  obtain ⟨outs, -, rfl⟩ := map_eq_ok.mp h
  exact ⟨rfl, rfl, by simp, by simp, fun _ _ => id, by simp⟩

theorem adds_addNamedOutput (name : String) :
    Adds (Populating.addWith (·.addNamedOutput name)) false true := by
  refine adds_addWith fun t out t' h => ?_
  obtain ⟨outs, houts, rfl⟩ := map_eq_ok.mp h
  obtain rfl := insertOutput_eq_ok houts
  refine ⟨rfl, rfl, by simp, fun p => ?_⟩
  simp only [Declares, Lib.SortedMap.lookup_insert, true_and, or_assoc]
  refine or_congr_right ?_
  constructor
  · rintro ⟨name', outs, hlookup, hp⟩
    split at hlookup
    case isTrue =>
      obtain rfl := Option.some.inj hlookup
      rcases mem_insertSorted.mp hp with rfl | hp
      · exact .inr rfl
      · cases houts : t.namedOutputs.lookup name with
        | none => simp [houts] at hp
        | some outs => exact .inl ⟨name, outs, houts, by simpa [houts] using hp⟩
    case isFalse => exact .inl ⟨name', outs, hlookup, hp⟩
  · rintro (⟨name', outs, hlookup, hp⟩ | rfl)
    · by_cases hname : name' = name
      · subst hname
        exact ⟨name', _, if_pos rfl, mem_insertSorted.mpr (.inr (by simpa [hlookup] using hp))⟩
      · exact ⟨name', outs, (if_neg hname).trans hlookup, hp⟩
    · exact ⟨name, _, if_pos rfl, mem_insertSorted.mpr (.inl rfl)⟩

theorem populates_named {named : List (String × List String)} {st st' : Populating}
    (h : named.foldlM (fun st named => addOutputs filename
      (Populating.addWith (·.addNamedOutput named.1)) false named.2 st) st = .ok st') :
    Populates [] (named.flatMap (·.2)) (named.flatMap (·.2)) st st' := by
  induction named generalizing st with
  | nil =>
    obtain rfl := ok.inj h
    exact .refl st
  | cons entry _ ih =>
    obtain ⟨st₁, hst₁, h⟩ := bind_eq_ok.mp h
    exact (populates_addOutputs (adds_addNamedOutput entry.1) hst₁).trans (ih h)

/-- The target has the outputs of the rule. -/
structure Describes (args : RuleOutputs) (t : BuildTarget) : Prop where
  owner : t.owner = args.owner
  isBinary : t.isBinary = args.isBinary
  declares : ∀ p, t.Declares p ↔ ∃ o ∈ args.written, p = cleanOutput o

/-- What one rule does. -/
theorem buildRule_spec {name : String} {pkg pkg' : OutputPackage} {args : RuleOutputs}
    (h : buildRule name filename pkg args = .ok pkg') :
    ∃ t, pkg'.targets = pkg.targets ++ [t] ∧ Describes args t ∧
      (∀ key a, pkg.owners.Holds key a → pkg'.owners.Holds key a) ∧
      ∀ o ∈ args.written, ∀ name, args.Registers o name →
        pkg'.owners.Holds (outputKey args.isBinary name) args.owner := by
  rw [buildRule] at h
  split at h
  · cases h
  obtain ⟨st, hst, h⟩ := bind_eq_ok.mp h
  obtain ⟨owners, howners, h⟩ := bind_eq_ok.mp h
  obtain rfl := ok.inj h
  obtain ⟨st₁, hst₁, hst⟩ := bind_eq_ok.mp hst
  obtain ⟨st₂, hst₂, hst⟩ := bind_eq_ok.mp hst
  obtain ⟨st₃, hst₃, hst⟩ := bind_eq_ok.mp hst
  have hall := (((populates_addOutputs adds_addOutput hst₁).trans (populates_named hst₂)).trans
    (populates_addOutputs adds_addOptionalOutput hst₃)).trans
      (populates_addOutputs adds_addTestOutput hst)
  obtain ⟨hadded, hkept⟩ := holds_foldlM_registerOutput howners
  rw [hall.isBinary, hall.owner] at hadded
  refine ⟨st.target, rfl, ⟨hall.owner, hall.isBinary, fun p => (hall.declares p).trans ?_⟩,
    fun key a ha => hkept key a (hall.kept key a ha), fun o ho name hname => ?_⟩
  · have hnone : ¬Declares { new args.label with
        isBinary := args.isBinary, isFilegroup := args.isFilegroup, sources := args.srcs } p := by
      rintro (h | ⟨name, outs, h, -⟩)
      · cases h
      · cases h
    rw [or_iff_right hnone]
    simp [RuleOutputs.written]
  · rcases hname with rfl | ⟨hunnamed, hfilegroup, rfl⟩
    · exact hkept _ _ (hall.holds _ (mem_append_left _ (mem_append_left _ ho)))
    · have hplain : st.target.isFilegroup = false :=
        (congrArg Owner.isFilegroup hall.owner).trans hfilegroup
      refine hadded _ ?_
      rw [hplain]
      exact mem_append_left _ ((hall.outputs _).mpr (.inr ⟨o, by simpa using hunnamed, rfl⟩))

/-- The package has the targets of the rules, and each holds the names of its outputs. -/
structure Creates (rules : List RuleOutputs) (pkg : OutputPackage) : Prop where
  target : ∀ args ∈ rules, ∃ t ∈ pkg.targets, Describes args t
  rule : ∀ t ∈ pkg.targets, ∃ args ∈ rules, Describes args t
  holds : ∀ args ∈ rules, ∀ o ∈ args.written, ∀ name, args.Registers o name →
    pkg.owners.Holds (outputKey args.isBinary name) args.owner

theorem creates_foldlM {name : String} {rules done : List RuleOutputs} {pkg pkg' : OutputPackage}
    (hdone : Creates done pkg) (h : rules.foldlM (buildRule name filename) pkg = .ok pkg') :
    Creates (done ++ rules) pkg' := by
  induction rules generalizing done pkg with
  | nil =>
    obtain rfl := ok.inj h
    rwa [append_nil]
  | cons args _ ih =>
    obtain ⟨pkg₁, hpkg₁, h⟩ := bind_eq_ok.mp h
    obtain ⟨t, htargets, hdescribes, hkept, hholds⟩ := buildRule_spec hpkg₁
    rw [append_cons]
    refine ih ⟨fun args' hargs' => ?_, fun t' ht' => ?_, fun args' hargs' o ho name hname => ?_⟩ h
    · rw [htargets]
      rcases mem_append.mp hargs' with hargs' | hargs'
      · obtain ⟨t', ht', hd⟩ := hdone.target args' hargs'
        exact ⟨t', mem_append_left _ ht', hd⟩
      · obtain rfl := mem_singleton.mp hargs'
        exact ⟨t, mem_append_right _ mem_cons_self, hdescribes⟩
    · rw [htargets] at ht'
      rcases mem_append.mp ht' with ht' | ht'
      · obtain ⟨args', hargs', hd⟩ := hdone.rule t' ht'
        exact ⟨args', mem_append_left _ hargs', hd⟩
      · obtain rfl := mem_singleton.mp ht'
        exact ⟨args, mem_append_right _ mem_cons_self, hdescribes⟩
    · rcases mem_append.mp hargs' with hargs' | hargs'
      · exact hkept _ _ (hdone.holds args' hargs' o ho name hname)
      · obtain rfl := mem_singleton.mp hargs'
        exact hholds o ho name hname

/-- Two targets that must not have an output in common: they are different, binaries both or
neither, and not both filegroups. -/
def Apart (a b : Owner) (isBinary isBinary' : Bool) : Prop :=
  a.label ≠ b.label ∧ isBinary = isBinary' ∧ ¬(a.isFilegroup = true ∧ b.isFilegroup = true)

/-- After a sequence of rules that all succeed, no two targets that must not have an output in
common do, if and only if two such rules that write the same path register it under a common
name. -/
theorem outputs_owned_iff {name filename : String} {rules : List RuleOutputs} {pkg : OutputPackage}
    (h : rules.foldlM (buildRule name filename) {} = .ok pkg) :
    (∀ t ∈ pkg.targets, ∀ t' ∈ pkg.targets, Apart t.owner t'.owner t.isBinary t'.isBinary →
        ∀ p, t.Declares p → ¬t'.Declares p) ↔
      ∀ a ∈ rules, ∀ a' ∈ rules, Apart a.owner a'.owner a.isBinary a'.isBinary →
        ∀ o ∈ a.written, ∀ o' ∈ a'.written, cleanOutput o = cleanOutput o' →
          ∃ name, a.Registers o name ∧ a'.Registers o' name := by
  have hcreates : Creates ([] ++ rules) pkg := creates_foldlM ⟨by simp, by simp, by simp⟩ h
  constructor
  · intro howned a ha a' ha' hapart o ho o' ho' heq
    obtain ⟨t, ht, hd⟩ := hcreates.target a ha
    obtain ⟨t', ht', hd'⟩ := hcreates.target a' ha'
    refine absurd ((hd'.declares _).mpr ⟨o', ho', heq⟩) ?_
    refine howned t ht t' ht' ?_ _ ((hd.declares _).mpr ⟨o, ho, rfl⟩)
    rwa [hd.owner, hd'.owner, hd.isBinary, hd'.isBinary]
  · intro hways t ht t' ht' hapart p hp hp'
    obtain ⟨a, ha, hd⟩ := hcreates.rule t ht
    obtain ⟨a', ha', hd'⟩ := hcreates.rule t' ht'
    rw [hd.owner, hd'.owner, hd.isBinary, hd'.isBinary] at hapart
    obtain ⟨o, ho, rfl⟩ := (hd.declares p).mp hp
    obtain ⟨o', ho', heq⟩ := (hd'.declares _).mp hp'
    -- both hold the common name
    obtain ⟨name, hname, hname'⟩ := hways a ha a' ha' hapart o ho o' ho' heq
    have hheld' := hcreates.holds a' ha' o' ho' name hname'
    rw [← hapart.2.1] at hheld'
    rcases (hcreates.holds a ha o ho name hname).unique hheld' with hsame | hboth
    · exact hapart.1 (congrArg Owner.label hsame)
    · exact hapart.2.2 hboth

/-- Two rules that write the same output in two ways, the second in a group. -/
def twoWays : List RuleOutputs :=
  [{ label := ⟨"p", "a", ""⟩, outs := ["x"] },
    { label := ⟨"p", "b", ""⟩, namedOuts := [("g", ["./x"])] }]

theorem outputs_owned_iff_twoWays :
    ∃ pkg, twoWays.foldlM (buildRule "p" "p/BUILD") {} = .ok pkg ∧
      ((∀ t ∈ pkg.targets, ∀ t' ∈ pkg.targets, Apart t.owner t'.owner t.isBinary t'.isBinary →
          ∀ p, t.Declares p → ¬t'.Declares p) ↔
        ∀ a ∈ twoWays, ∀ a' ∈ twoWays, Apart a.owner a'.owner a.isBinary a'.isBinary →
          ∀ o ∈ a.written, ∀ o' ∈ a'.written, cleanOutput o = cleanOutput o' →
            ∃ name, a.Registers o name ∧ a'.Registers o' name) := by
  obtain ⟨pkg, h⟩ := exists_ok_of_isSome (x := twoWays.foldlM (buildRule "p" "p/BUILD") {})
    (by decide +kernel)
  exact ⟨pkg, h, outputs_owned_iff h⟩

theorem common_output_twoWays :
    ((twoWays.foldlM (buildRule "p" "p/BUILD") {}).toOption.elim [] fun pkg =>
        pkg.targets.map fun t => (t.owner, t.isBinary, t.outputs, t.namedOutputs.entries)) =
      [(⟨⟨"p", "a", ""⟩, false⟩, false, ["x"], []),
        (⟨⟨"p", "b", ""⟩, false⟩, false, [], [("g", ["x"])])] := by
  decide +kernel

end Please.Core
