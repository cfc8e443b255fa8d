import Mathlib.Algebra.Ring.Int.Defs
import Please.Core.Package
import Please.Test.XmlResults

/-!
# Running the tests that failed again

Model of `mustSerialiseResults` (`src/test/xml_results.go`, lines 473–508), which writes one suite
for each name, and of `LoadPreviousFailures` (`src/test/results.go`, lines 68–96), which reads the
labels of the tests to run again. The order of the suites in the file is that of a Go map. The
attributes of a suite that are not read are left out.

* `loadPreviousFailures_iff`: which labels are read.
-/

namespace Please.Test

open Please.Core Please.Build TestSuite
open Please.Lib.Except List

/-- `strings.ReplaceAll` for single characters. -/
def replaceAll (s : String) (old new : Char) : String :=
  String.ofList (s.toList.map fun c => if c = old then new else c)

/-- A target with the results of its tests, which are named after it (`doTest`,
`src/test/test_step.go`, lines 378–380). -/
structure TestTarget where
  label : BuildLabel
  results : TestSuite
  package_eq : results.package = replaceAll label.packageName '/' '.'
  name_eq : results.name = label.name

/-- `jUnitXMLTestSuite`. -/
structure JUnitXMLTestSuite (T : Type) where
  name : String
  package : String
  failures : ℕ
  testCases : List (JUnitXMLTest T)

/-! ## Writing -/

section writing

variable {T : Type} [Zero T] (clock : Clock T) (storeOutputOnSuccess : Bool)

/-- `toXMLTestSuite` (lines 527–547). -/
def toXMLTestSuite (testSuite : TestSuite) : Option (JUnitXMLTestSuite T) := do
  let testCases ← testSuite.testCases.mapM fun testCase => do
    let xmlTest ← toXMLTestCase clock testCase storeOutputOnSuccess
    return if xmlTest.className = "" then { xmlTest with className := testSuite.javaStyleName }
      else xmlTest
  return ⟨testSuite.name, testSuite.package, testSuite.failures, testCases⟩

/-- A suite is added to the map of suites, or to the suite of its name. -/
def addSuite (xmlSuites : List (String × JUnitXMLTestSuite T)) (name : String)
    (xmlTestSuite : JUnitXMLTestSuite T) : List (String × JUnitXMLTestSuite T) :=
  if name ∈ xmlSuites.map Prod.fst then
    xmlSuites.map fun entry =>
      if entry.1 = name then
        (name, { entry.2 with
          failures := entry.2.failures + xmlTestSuite.failures
          testCases := entry.2.testCases ++ xmlTestSuite.testCases })
      else entry
  else xmlSuites ++ [(name, xmlTestSuite)]

/-- The loop of `mustSerialiseResults` over the targets. -/
def serialiseResults (xmlSuites : List (String × JUnitXMLTestSuite T)) (target : TestTarget) :
    Option (List (String × JUnitXMLTestSuite T)) :=
  if target.results.testCases = [] then some xmlSuites
  else (toXMLTestSuite clock storeOutputOnSuccess target.results).map
    (addSuite xmlSuites target.results.javaStyleName)

/-- `mustSerialiseResults`: the map of suites. -/
def mustSerialiseResults (targets : List TestTarget) :
    Option (List (String × JUnitXMLTestSuite T)) :=
  targets.foldlM (serialiseResults clock storeOutputOnSuccess) []

end writing

/-! ## Reading -/

/-- `NewBuildLabel`, which panics if the names are not valid. -/
def newBuildLabel (pkgName name : String) : Option BuildLabel :=
  if validateNames pkgName name then some ⟨pkgName, name, ""⟩ else none

/-- `LoadPreviousFailures`: the labels, and the names of the cases as arguments. -/
def loadPreviousFailures {T : Type} (junit : List (JUnitXMLTestSuite T)) :
    Option (List BuildLabel × List String) := do
  let failed := junit.filter fun suite => 0 < suite.failures
  let labels ← failed.mapM fun suite =>
    newBuildLabel (replaceAll suite.package '.' '/') suite.name
  return (labels, failed.flatMap fun suite =>
    (suite.testCases.filter fun c => c.failure.isSome || c.error.isSome).map JUnitXMLTest.name)

/-! ## Which labels are read -/

/-- The target that the suite of this name is written for: the first with results. -/
def headOf (targets : List TestTarget) (name : String) : Option TestTarget :=
  targets.find? fun t => t.results.testCases ≠ [] ∧ t.results.javaStyleName = name

/-- The label that is read from the suite with the results of this target. -/
def labelRead (targets : List TestTarget) (target : TestTarget) : Option BuildLabel :=
  (headOf targets target.results.javaStyleName).bind fun t =>
    newBuildLabel (replaceAll t.results.package '.' '/') t.results.name

theorem testCases_ne_nil_of_failures {testSuite : TestSuite} (h : 0 < testSuite.failures) :
    testSuite.testCases ≠ [] := by
  intro hnil
  rw [failures, hnil] at h
  exact absurd h (lt_irrefl 0)

theorem headOf_append {targets rest : List TestTarget} {name : String} {t : TestTarget}
    (h : headOf targets name = some t) : headOf (targets ++ rest) name = some t := by
  rw [headOf] at h ⊢
  rw [find?_append, h]
  rfl

section written

variable {T : Type} [Zero T] {clock : Clock T} {storeOutputOnSuccess : Bool}
  {suite : JUnitXMLTestSuite T}

theorem toXMLTestSuite_eq_some {testSuite : TestSuite}
    (h : toXMLTestSuite clock storeOutputOnSuccess testSuite = some suite) :
    suite.name = testSuite.name ∧ suite.package = testSuite.package ∧
      suite.failures = testSuite.failures := by
  obtain ⟨testCases, -, h⟩ := Option.bind_eq_some_iff.mp h
  cases h
  exact ⟨rfl, rfl, rfl⟩

/-- A suite of this name has the names of the first target with results, and failures if one of the
targets with this name has. -/
structure Suits (targets : List TestTarget) (name : String) (suite : JUnitXMLTestSuite T) :
    Prop where
  head : ∃ t, headOf targets name = some t ∧ suite.package = t.results.package ∧
    suite.name = t.results.name
  failures : 0 < suite.failures ↔
    ∃ t ∈ targets, t.results.javaStyleName = name ∧ 0 < t.results.failures

/-- The suites that are written for these targets. -/
structure Writes (targets : List TestTarget) (xmlSuites : List (String × JUnitXMLTestSuite T)) :
    Prop where
  suits : ∀ entry ∈ xmlSuites, Suits targets entry.1 entry.2
  all : ∀ t ∈ targets, t.results.testCases ≠ [] → t.results.javaStyleName ∈ xmlSuites.map Prod.fst

variable {targets : List TestTarget} {target : TestTarget}
  {xmlSuites : List (String × JUnitXMLTestSuite T)}

omit [Zero T] in
theorem Suits.append {name : String} (h : Suits targets name suite)
    (hnone : target.results.javaStyleName = name → ¬ 0 < target.results.failures) :
    Suits (targets ++ [target]) name suite where
  head := by
    obtain ⟨t, ht, hnames⟩ := h.head
    exact ⟨t, headOf_append ht, hnames⟩
  failures := by
    rw [h.failures]
    simp only [mem_append, mem_singleton, or_and_right, exists_or, exists_eq_left]
    exact (or_iff_left fun hlast => hnone hlast.1 hlast.2).symm

/-- One target is added to the map. -/
theorem Writes.addSuite (h : Writes targets xmlSuites) (hcases : target.results.testCases ≠ [])
    (hsuite : toXMLTestSuite clock storeOutputOnSuccess target.results = some suite) :
    Writes (targets ++ [target]) (addSuite xmlSuites target.results.javaStyleName suite) := by
  obtain ⟨hname, hpackage, hfailures⟩ := toXMLTestSuite_eq_some hsuite
  unfold Test.addSuite
  split
  case isTrue hpresent =>
    refine ⟨fun entry hentry => ?_, fun t ht ht' => ?_⟩
    · obtain ⟨old, hold, rfl⟩ := mem_map.mp hentry
      have hsuits := h.suits old hold
      by_cases hkey : old.1 = target.results.javaStyleName
      · rw [if_pos hkey]
        obtain ⟨t, ht, hnames⟩ := hsuits.head
        rw [hkey] at ht
        refine ⟨⟨t, headOf_append ht, hnames⟩, ?_⟩
        simp only [mem_append, mem_singleton, or_and_right, exists_or, exists_eq_left, true_and,
          ← hkey, ← hsuits.failures, hfailures]
        omega
      · rw [if_neg hkey]
        exact hsuits.append fun heq => absurd heq.symm hkey
    · have hkeys : (xmlSuites.map fun entry => if entry.1 = target.results.javaStyleName then
          (target.results.javaStyleName, { entry.2 with
            failures := entry.2.failures + suite.failures
            testCases := entry.2.testCases ++ suite.testCases }) else entry).map Prod.fst =
          xmlSuites.map Prod.fst := by
        rw [map_map]
        refine map_congr_left fun entry _ => ?_
        by_cases hkey : entry.1 = target.results.javaStyleName <;> simp [hkey]
      rw [hkeys]
      rcases mem_append.mp ht with ht | ht
      · exact h.all t ht ht'
      · rwa [mem_singleton.mp ht]
  case isFalse habsent =>
    refine ⟨fun entry hentry => ?_, fun t ht ht' => ?_⟩
    · rcases mem_append.mp hentry with hentry | hentry
      · refine (h.suits entry hentry).append fun heq => ?_
        exact absurd (heq ▸ mem_map_of_mem hentry) habsent
      · -- no target before it has results under this name
        obtain rfl := mem_singleton.mp hentry
        have hfirst : ∀ t ∈ targets, t.results.testCases ≠ [] →
            t.results.javaStyleName ≠ target.results.javaStyleName :=
          fun t ht ht' heq => habsent (heq ▸ h.all t ht ht')
        refine ⟨⟨target, ?_, hpackage, hname⟩, ?_⟩
        · rw [headOf, find?_append, find?_eq_none.mpr fun t ht => by simpa using hfirst t ht]
          simp [hcases]
        · rw [hfailures]
          constructor
          · exact fun hpos => ⟨target, mem_append_right _ mem_cons_self, rfl, hpos⟩
          · rintro ⟨t, ht, heq, hpos⟩
            rcases mem_append.mp ht with ht | ht
            · exact absurd heq (hfirst t ht (testCases_ne_nil_of_failures hpos))
            · rwa [← mem_singleton.mp ht]
    · rw [map_append]
      rcases mem_append.mp ht with ht | ht
      · exact mem_append_left _ (h.all t ht ht')
      · rw [mem_singleton.mp ht]
        exact mem_append_right _ mem_cons_self

theorem Writes.foldlM {rest : List TestTarget} {before : List (String × JUnitXMLTestSuite T)}
    (h : Writes targets before)
    (hrest : rest.foldlM (serialiseResults clock storeOutputOnSuccess) before = some xmlSuites) :
    Writes (targets ++ rest) xmlSuites := by
  induction rest generalizing targets before with
  | nil =>
    cases hrest
    rwa [append_nil]
  | cons target _ ih =>
    obtain ⟨after, hafter, hrest⟩ := Option.bind_eq_some_iff.mp hrest
    rw [append_cons]
    refine ih ?_ hrest
    unfold serialiseResults at hafter
    split at hafter
    case isTrue hempty =>
      cases hafter
      have hnone : ¬ 0 < target.results.failures := fun hpos =>
        testCases_ne_nil_of_failures hpos hempty
      refine ⟨fun entry hentry => (h.suits entry hentry).append fun _ => hnone, fun t ht ht' => ?_⟩
      rcases mem_append.mp ht with ht | ht
      · exact h.all t ht ht'
      · exact absurd (mem_singleton.mp ht ▸ hempty) ht'
    case isFalse hne =>
      obtain ⟨suite, hsuite, rfl⟩ := Option.map_eq_some_iff.mp hafter
      exact h.addSuite hne hsuite

end written

/-- The labels that are read are those of the targets with a failure or an error exactly if every
target with a failure is read back as such a target, and every target with a failure or an error
is what some target with a failure is read back as. -/
theorem loadPreviousFailures_iff {T : Type} [Zero T] (clock : Clock T) (storeOutputOnSuccess : Bool)
    (targets : List TestTarget) {xmlSuites : List (String × JUnitXMLTestSuite T)}
    (hwritten : mustSerialiseResults clock storeOutputOnSuccess targets = some xmlSuites)
    {junit : List (JUnitXMLTestSuite T)} (hjunit : junit.Perm (xmlSuites.map Prod.snd)) :
    (∃ labels args, loadPreviousFailures junit = some (labels, args) ∧ ∀ label, label ∈ labels ↔
        ∃ t ∈ targets, 0 < t.results.errors + t.results.failures ∧ t.label = label) ↔
      (∀ t ∈ targets, 0 < t.results.failures →
        ∃ t' ∈ targets, 0 < t'.results.errors + t'.results.failures ∧
          labelRead targets t = some t'.label) ∧
      ∀ t ∈ targets, 0 < t.results.errors + t.results.failures →
        ∃ t' ∈ targets, 0 < t'.results.failures ∧ labelRead targets t' = some t.label := by
  have hwrites : Writes ([] ++ targets) xmlSuites := Writes.foldlM ⟨by simp, by simp⟩ hwritten
  -- the suites with failures are those of the targets with a failure
  have hfailed (P : Option BuildLabel → Prop) :
      (∃ suite ∈ junit.filter fun suite => 0 < suite.failures,
        P (newBuildLabel (replaceAll suite.package '.' '/') suite.name)) ↔
      ∃ t ∈ targets, 0 < t.results.failures ∧ P (labelRead targets t) := by
    have hread {t : TestTarget} {suite : JUnitXMLTestSuite T}
        (h : Suits targets t.results.javaStyleName suite) :
        newBuildLabel (replaceAll suite.package '.' '/') suite.name = labelRead targets t := by
      obtain ⟨t', ht', hpackage, hname⟩ := h.head
      rw [labelRead, ht', hpackage, hname]
      rfl
    constructor
    · rintro ⟨suite, hsuite, hP⟩
      obtain ⟨hmem, hpos⟩ := mem_filter.mp hsuite
      obtain ⟨entry, hentry, rfl⟩ := mem_map.mp (hjunit.mem_iff.mp hmem)
      have hsuits : Suits targets entry.1 entry.2 := hwrites.suits entry hentry
      obtain ⟨t, ht, hname, hfail⟩ := hsuits.failures.mp (of_decide_eq_true hpos)
      rw [← hname] at hsuits
      exact ⟨t, ht, hfail, hread hsuits ▸ hP⟩
    · rintro ⟨t, ht, hfail, hP⟩
      obtain ⟨entry, hentry, hname⟩ := mem_map.mp
        (hwrites.all t ht (testCases_ne_nil_of_failures hfail))
      have hsuits : Suits targets t.results.javaStyleName entry.2 :=
        hname ▸ hwrites.suits entry hentry
      refine ⟨entry.2, mem_filter.mpr ⟨?_, decide_eq_true ?_⟩, (hread hsuits).symm ▸ hP⟩
      · exact hjunit.mem_iff.mpr (mem_map_of_mem hentry)
      · exact hsuits.failures.mpr ⟨t, ht, rfl, hfail⟩
  constructor
  · rintro ⟨labels, args, hload, hmem⟩
    obtain ⟨labels', hlabels, hload⟩ := Option.bind_eq_some_iff.mp hload
    cases hload
    refine ⟨fun t ht hfail => ?_, fun t ht hfail => ?_⟩
    · cases hback : labelRead targets t with
      | none =>
        obtain ⟨suite, hsuite, hnone⟩ := (hfailed (· = none)).mpr ⟨t, ht, hfail, hback⟩
        obtain ⟨label, -, hlabel⟩ := mem_map.mp
          (mapM_eq_some.mp hlabels ▸ mem_map_of_mem hsuite)
        rw [hnone] at hlabel
        cases hlabel
      | some label =>
        have hlabel : label ∈ labels := (mem_of_mapM_eq_some hlabels).mpr
          ((hfailed (· = some label)).mpr ⟨t, ht, hfail, hback⟩)
        obtain ⟨t', ht', hpos, rfl⟩ := (hmem label).mp hlabel
        exact ⟨t', ht', hpos, rfl⟩
    · exact (hfailed (· = some t.label)).mp
        ((mem_of_mapM_eq_some hlabels).mp ((hmem t.label).mpr ⟨t, ht, hfail, rfl⟩))
  · rintro ⟨hsound, hcomplete⟩
    obtain ⟨labels, hlabels⟩ : ∃ labels, (junit.filter fun suite => 0 < suite.failures).mapM
        (fun suite => newBuildLabel (replaceAll suite.package '.' '/') suite.name) =
          some labels := by
      refine exists_mapM_eq_some fun suite hsuite => ?_
      obtain ⟨t, ht, hfail, hread⟩ := (hfailed (· =
        newBuildLabel (replaceAll suite.package '.' '/') suite.name)).mp ⟨suite, hsuite, rfl⟩
      obtain ⟨t', -, -, hback⟩ := hsound t ht hfail
      exact ⟨t'.label, hread ▸ hback⟩
    refine ⟨labels, _, by simp only [loadPreviousFailures, hlabels]; rfl, fun label => ?_⟩
    rw [mem_of_mapM_eq_some hlabels, hfailed (· = some label)]
    constructor
    · rintro ⟨t, ht, hfail, hback⟩
      obtain ⟨t', ht', hpos, hback'⟩ := hsound t ht hfail
      exact ⟨t', ht', hpos, Option.some.inj (hback'.symm.trans hback)⟩
    · rintro ⟨t, ht, hpos, rfl⟩
      exact hcomplete t ht hpos

/-- `//pkg:t` with one case, which was executed once. -/
def testTarget (execution : TestExecution) : TestTarget where
  label := ⟨"pkg", "t", ""⟩
  results :=
    { package := "pkg", name := "t", testCases := [{ name := "case", executions := [execution] }] }
  package_eq := show "pkg" = replaceAll "pkg" '/' '.' by decide
  name_eq := rfl

def failedOnce : TestExecution :=
  { failure := some ⟨"", "", ""⟩, duration := some 1, stdout := "", stderr := "" }

def erroredOnce : TestExecution :=
  { error := some ⟨"", "", ""⟩, duration := none, stdout := "", stderr := "" }

def intClock : Clock ℤ := ⟨id, id, id⟩

theorem loadPreviousFailures_failedOnce : ∃ junit labels args,
    mustSerialiseResults intClock true [testTarget failedOnce] = some [("pkg.t", junit)] ∧
      loadPreviousFailures [junit] = some (labels, args) ∧ ⟨"pkg", "t", ""⟩ ∈ labels := by
  obtain ⟨junit, hwritten⟩ : ∃ junit, mustSerialiseResults intClock true
      [testTarget failedOnce] = some [("pkg.t", junit)] := ⟨_, rfl⟩
  have hback : labelRead [testTarget failedOnce] (testTarget failedOnce) =
      some (testTarget failedOnce).label := by decide
  have hfail : 0 < (testTarget failedOnce).results.failures := by decide
  obtain ⟨labels, args, hload, hmem⟩ := (loadPreviousFailures_iff intClock true
    [testTarget failedOnce] hwritten (.refl _)).mpr
      ⟨by simp [hback, hfail], by simp [hback, hfail]⟩
  exact ⟨junit, labels, args, hwritten, hload,
    (hmem _).mpr ⟨_, mem_singleton.mpr rfl, by decide, rfl⟩⟩

/-- A target with an error only is not run again. -/
theorem loadPreviousFailures_erroredOnce : ∃ junit,
    mustSerialiseResults intClock true [testTarget erroredOnce] = some [("pkg.t", junit)] ∧
      (testTarget erroredOnce).results.errors = 1 ∧
      loadPreviousFailures [junit] = some ([], []) :=
  ⟨_, rfl, rfl, rfl⟩

end Please.Test
