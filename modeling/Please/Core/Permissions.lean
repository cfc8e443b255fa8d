import Please.Core.Package
import Please.Fs.PathHasher

/-!
# Wildcards, and what a repository permits

The three tests of a `...` label (`Includes`, `Matches` and `Package.IsIncludedIn`), and two checks
of the targets of a repository: `validateSandbox` (`src/parse/asp/targets.go`, lines 199–224) and
`CheckLicences` (`src/core/build_target.go`, lines 2044–2064).

* `wildcards_agree_iff`: where the three tests are true of exactly the packages in the tree.
* `validateSandbox_sound_iff`: when a target without sandbox is in a permitted tree.
* `checkLicences_perm_iff`: when the order of the licences does not matter.
-/

namespace Please.Core

open Please.Fs (hasPrefix hasPrefix_iff)
open List

/-! ## Wildcards -/

/-- The package `q` is in the tree of `p`: it is `p` or lies below it, and all of them do below
the root. -/
def InTree (p q : String) : Prop := p = "" ∨ q = p ∨ hasPrefix q (p ++ "/")

instance (p q : String) : Decidable (InTree p q) := inferInstanceAs (Decidable (_ ∨ _ ∨ _))

/-- `BuildLabel.Matches` (build_label.go, lines 534–543). -/
def BuildLabel.matches (label other : BuildLabel) : Bool :=
  if label.name = "..." then
    label.packageName = "." || hasPrefix other.packageName label.packageName
  else if label.name = "all" then label.packageName = other.packageName
  else label = other.parent

theorem hasPrefix_of_inTree {p q : String} (h : InTree p q) : hasPrefix q p := by
  rw [hasPrefix_iff]
  obtain rfl | rfl | h := h
  · exact ⟨q.toList, rfl⟩
  · exact ⟨[], (append_nil _).symm⟩
  · obtain ⟨rest, h⟩ := hasPrefix_iff.mp h
    exact ⟨'/' :: rest, by simpa using h⟩

/-- `Includes` is right about every package. `IsIncludedIn` is not about the root, and `Matches`
not about a package whose name only begins like that of the wildcard. -/
theorem wildcards_agree_iff (p : String) (pkg : Package) (name : String) :
    let wildcard : BuildLabel := ⟨p, "...", ""⟩
    let target : BuildLabel := ⟨pkg.name, name, ""⟩
    (wildcard.includes target ↔ InTree p pkg.name) ∧
    ((pkg.isIncludedIn wildcard ↔ InTree p pkg.name) ↔
      (p = "" → pkg.name = "" ∨ hasPrefix pkg.name "/")) ∧
    ((wildcard.matches target ↔ InTree p pkg.name) ↔
      (p = "." ∨ hasPrefix pkg.name p → InTree p pkg.name)) := by
  refine ⟨?_, ?_, ?_⟩
  · simp [BuildLabel.includes, InTree, BuildLabel.isAllSubpackages, or_assoc]
  · by_cases hp : p = "" <;> simp [Package.isIncludedIn, InTree, hp]
  · simp only [BuildLabel.matches, if_true, Bool.or_eq_true, decide_eq_true_eq]
    exact ⟨Iff.mp, fun h => ⟨h, fun hin => .inr (hasPrefix_of_inTree hin)⟩⟩

/-- The wildcard of a package whose name is the beginning of another's, and that of the root. -/
theorem wildcards_differ :
    BuildLabel.matches ⟨"a", "...", ""⟩ ⟨"ab", "x", ""⟩ = true ∧
      BuildLabel.includes ⟨"a", "...", ""⟩ ⟨"ab", "x", ""⟩ = false ∧
      Package.isIncludedIn ⟨"ab", "", [], []⟩ ⟨"", "...", ""⟩ = false ∧
      BuildLabel.includes ⟨"", "...", ""⟩ ⟨"ab", "x", ""⟩ = true := by
  decide

/-! ## The sandbox -/

/-- The settings that `validateSandbox` reads. -/
structure SandboxConfig where
  excludeableTargets : List BuildLabel
  experimentalDir : List String

/-- `validateSandbox`; `testSandbox` is `Test.Sandbox` of a target that has a test. -/
def validateSandbox (config : SandboxConfig) (target : BuildTarget) (testSandbox : Bool) :
    Except String Unit :=
  if target.isFilegroup || config.excludeableTargets.isEmpty then .ok ()
  else if !target.isRemoteFile && target.sandbox && (target.test.isNone || testSandbox) then .ok ()
  else if target.label.packageName = "_please" then .ok ()
  else if config.excludeableTargets.any (·.matches target.label) then .ok ()
  else if config.experimentalDir.any (hasPrefix target.label.packageName) then .ok ()
  else .error (target.label.toStr ++ " is not whitelisted to opt out of the sandbox")

/-- The label is in the tree of a `...` label or in an experimental directory, or a label of the
settings names it, its parent or all targets of its package. -/
def SandboxConfig.Permits (config : SandboxConfig) (label : BuildLabel) : Prop :=
  (∃ w ∈ config.excludeableTargets, w.name = "..." ∧ InTree w.packageName label.packageName) ∨
  (∃ dir ∈ config.experimentalDir, InTree dir label.packageName) ∨
  ∃ w ∈ config.excludeableTargets,
    w = label ∨ w = label.parent ∨ (w.name = "all" ∧ w.packageName = label.packageName)

instance (config : SandboxConfig) (label : BuildLabel) : Decidable (config.Permits label) :=
  inferInstanceAs (Decidable (_ ∨ _ ∨ _))

/-- The name of a tree of the settings is a mere beginning of the package's, or is taken for the
root. -/
def SandboxConfig.Confuses (config : SandboxConfig) (pkg : String) : Prop :=
  (∃ w ∈ config.excludeableTargets, w.name = "..." ∧ ¬ InTree w.packageName pkg ∧
    (w.packageName = "." ∨ hasPrefix pkg w.packageName)) ∨
  ∃ dir ∈ config.experimentalDir, ¬ InTree dir pkg ∧ hasPrefix pkg dir

section sandbox

variable {config : SandboxConfig} {target : BuildTarget} {testSandbox : Bool}

/-- For a target that has opted out, the lists of the settings decide. -/
theorem validateSandbox_eq_ok_iff (hconfig : config.excludeableTargets ≠ [])
    (hkind : target.isFilegroup = false) (hpkg : target.label.packageName ≠ "_please")
    (hout : target.sandbox = false ∨ (target.test.isSome ∧ testSandbox = false)) :
    validateSandbox config target testSandbox = .ok () ↔
      (∃ w ∈ config.excludeableTargets, w.matches target.label) ∨
        ∃ dir ∈ config.experimentalDir, hasPrefix target.label.packageName dir := by
  have hsandbox : (!target.isRemoteFile && target.sandbox &&
      (target.test.isNone || testSandbox)) = false := by
    obtain h | ⟨h, h'⟩ := hout
    · simp [h]
    · simp [Option.isNone_eq_false_iff.mpr h, h']
  simp only [validateSandbox, hkind, isEmpty_eq_false_iff.mpr hconfig, hsandbox, hpkg, if_false,
    Bool.or_self, Bool.false_eq_true, ← any_eq_true]
  split_ifs <;> simp [*]

/-- An entry that the code goes by is a right one, or is confused with the package's tree. -/
theorem permits_or_confuses
    (h : (∃ w ∈ config.excludeableTargets, w.matches target.label) ∨
      ∃ dir ∈ config.experimentalDir, hasPrefix target.label.packageName dir) :
    config.Permits target.label ∨ config.Confuses target.label.packageName := by
  obtain ⟨w, hw, hmatch⟩ | ⟨dir, hmem, hdir⟩ := h
  · unfold BuildLabel.matches at hmatch
    split_ifs at hmatch with hdots hall
    · by_cases hin : InTree w.packageName target.label.packageName
      · exact .inl (.inl ⟨w, hw, hdots, hin⟩)
      · exact .inr (.inl ⟨w, hw, hdots, hin, by simpa using hmatch⟩)
    · exact .inl (.inr (.inr ⟨w, hw, .inr (.inr ⟨hall, of_decide_eq_true hmatch⟩)⟩))
    · exact .inl (.inr (.inr ⟨w, hw, .inr (.inl (of_decide_eq_true hmatch))⟩))
  · by_cases hin : InTree dir target.label.packageName
    · exact .inl (.inr (.inl ⟨dir, hmem, hin⟩))
    · exact .inr (.inr ⟨dir, hmem, hin, hdir⟩)

/-- Only permitted targets pass exactly if no tree is confused with the target's, or the target is
permitted by another entry. -/
theorem validateSandbox_sound_iff (hconfig : config.excludeableTargets ≠ [])
    (hkind : target.isFilegroup = false) (hpkg : target.label.packageName ≠ "_please")
    (hout : target.sandbox = false ∨ (target.test.isSome ∧ testSandbox = false)) :
    (validateSandbox config target testSandbox = .ok () → config.Permits target.label) ↔
      (config.Confuses target.label.packageName → config.Permits target.label) := by
  rw [validateSandbox_eq_ok_iff hconfig hkind hpkg hout]
  refine ⟨fun h hconfuses => h ?_, fun h hok => (permits_or_confuses hok).elim id h⟩
  obtain ⟨w, hw, hdots, -, hprefix⟩ | ⟨dir, hmem, -, hdir⟩ := hconfuses
  · exact .inl ⟨w, hw, by simpa [BuildLabel.matches, hdots] using hprefix⟩
  · exact .inr ⟨dir, hmem, hdir⟩

end sandbox

/-- Targets of the packages `third_party/go` and `third_party2`, when those below `third_party` may
opt out. -/
theorem validateSandbox_sound_third_party :
    let config : SandboxConfig := ⟨[⟨"third_party", "...", ""⟩], []⟩
    validateSandbox config (.new ⟨"third_party/go", "lib", ""⟩) false = .ok () ∧
      config.Permits ⟨"third_party/go", "lib", ""⟩ := by
  intro config
  have hok : validateSandbox config (.new ⟨"third_party/go", "lib", ""⟩) false = .ok () := by decide
  refine ⟨hok, (validateSandbox_sound_iff (by decide) rfl (by decide) (.inl rfl)).mpr ?_ hok⟩
  simp [SandboxConfig.Confuses, SandboxConfig.Permits, config, InTree, BuildTarget.new]
  decide

theorem not_permits_third_party2 :
    let config : SandboxConfig := ⟨[⟨"third_party", "...", ""⟩], []⟩
    validateSandbox config (.new ⟨"third_party2", "lib", ""⟩) false = .ok () ∧
      ¬ config.Permits ⟨"third_party2", "lib", ""⟩ := by
  decide

/-! ## Licences -/

/-- The licences that the configuration names. -/
structure LicencesConfig where
  accept : List String
  reject : List String

section licences

variable (equalFold : String → String → Bool) (config : LicencesConfig)

def LicencesConfig.rejected (licence : String) : Bool := config.reject.any (equalFold · licence)

def LicencesConfig.accepted (licence : String) : Bool := config.accept.any (equalFold · licence)

/-- The loop of `CheckLicences` and what follows it; `licences` are all of the target's. -/
def checkLicencesLoop (label : String) (licences : List String) : List String → Except String String
  | [] =>
    if config.accept.isEmpty then .ok ""
    else .error ("None of the licences for " ++ label ++ " are accepted in this repository: " ++
      ", ".intercalate licences)
  | licence :: rest =>
    if config.rejected equalFold licence then
      .error ("Target " ++ label ++ " is licensed " ++ licence ++
        ", which is explicitly rejected for this repository")
    else if config.accepted equalFold licence then .ok licence
    else checkLicencesLoop label licences rest

/-- `CheckLicences`, by the licences of the target. -/
def checkLicences (target : BuildTarget) : Except String String :=
  if target.licences.isEmpty then .ok ""
  else checkLicencesLoop equalFold config target.label.toStr target.licences target.licences

/-- A licence at which the loop ends. -/
def LicencesConfig.decisive (licence : String) : Bool :=
  config.rejected equalFold licence || config.accepted equalFold licence

variable {equalFold config}

/-- The first licence at which the loop ends decides. -/
theorem isOk_checkLicencesLoop (label : String) (all licences : List String) :
    (checkLicencesLoop equalFold config label all licences).isOk =
      (licences.find? (config.decisive equalFold)).elim config.accept.isEmpty
        fun l => !config.rejected equalFold l := by
  induction licences with
  | nil => cases h : config.accept.isEmpty <;> rw [checkLicencesLoop, h] <;> rfl
  | cons l _ ih =>
    rw [checkLicencesLoop, find?_cons, LicencesConfig.decisive]
    cases hr : config.rejected equalFold l with
    | true => simp [hr]; rfl
    | false =>
      cases ha : config.accepted equalFold l with
      | true => simp [hr]; rfl
      | false => simpa using ih

theorem isOk_checkLicences (target : BuildTarget) :
    (checkLicences equalFold config target).isOk =
      (target.licences.find? (config.decisive equalFold)).elim
        (target.licences.isEmpty || config.accept.isEmpty)
        fun l => !config.rejected equalFold l := by
  unfold checkLicences
  cases h : target.licences with
  | nil => rfl
  | cons => exact isOk_checkLicencesLoop _ _ _

/-- The order does not matter, unless one licence is rejected and another accepted. -/
theorem checkLicences_perm_iff (target : BuildTarget) :
    (∀ licences, licences ~ target.licences →
      (checkLicences equalFold config { target with licences := licences }).isOk =
        (checkLicences equalFold config target).isOk) ↔
      ¬ ((∃ l ∈ target.licences, config.rejected equalFold l) ∧
        ∃ l ∈ target.licences, config.decisive equalFold l ∧
          config.rejected equalFold l = false) := by
  simp only [isOk_checkLicences]
  constructor
  · rintro h ⟨⟨r, hr, hrejected⟩, a, ha, hdecisive, haccepted⟩
    have hfirst := h _ (perm_cons_erase hr).symm
    rw [← h _ (perm_cons_erase ha).symm] at hfirst
    have hdecisive' : config.decisive equalFold r := by simp [LicencesConfig.decisive, hrejected]
    simp [hdecisive, hdecisive', hrejected, haccepted] at hfirst
  · intro hnot licences hperm
    cases hx : licences.find? (config.decisive equalFold) with
    | none =>
      have hnone : target.licences.find? (config.decisive equalFold) = none :=
        find?_eq_none.mpr fun y hy => find?_eq_none.mp hx y (hperm.symm.subset hy)
      simp [hnone, hperm.isEmpty_eq]
    | some x =>
      have hmem := hperm.subset (mem_of_find?_eq_some hx)
      cases hy : target.licences.find? (config.decisive equalFold) with
      | none => exact absurd (find?_some hx) (find?_eq_none.mp hy x hmem)
      | some y =>
        -- both end the loop, so if one is rejected and the other not, the latter is accepted
        have hmem' := mem_of_find?_eq_some hy
        cases hrx : config.rejected equalFold x <;>
          cases hry : config.rejected equalFold y <;> simp [hrx, hry]
        · exact hnot ⟨⟨y, hmem', hry⟩, x, hmem, find?_some hx, hrx⟩
        · exact hnot ⟨⟨x, hmem, hrx⟩, y, hmem', find?_some hy, hry⟩

/-- The same two licences in two orders. -/
theorem checkLicences_two_orders :
    let config : LicencesConfig := ⟨["MIT"], ["GPL"]⟩
    let target : BuildTarget := .new ⟨"p", "lib", ""⟩
    checkLicences (· = ·) config { target with licences := ["MIT", "GPL"] } = .ok "MIT" ∧
      (checkLicences (· = ·) config { target with licences := ["GPL", "MIT"] }).isOk = false := by
  decide

end licences

end Please.Core
