import Please.Lib.SortedMap

/-!
# Test results

Model of `src/core/test_results.go`, lines 11–240: the executions of a test case,
the cases of a suite, and the two ways in which suites are put together.
`Collapse` concatenates the cases; `Add` merges a case into the first one with
the same name and class name.
-/

namespace Please.Core

open Please.Lib List

/-! ## Executions and cases -/

structure TestResultFailure where
  type : String
  message : String
  traceback : String
  deriving DecidableEq

structure TestResultSkip where
  message : String
  deriving DecidableEq

/-- `TestExecution` (lines 222–231); a nil pointer is `none`. -/
structure TestExecution where
  failure : Option TestResultFailure := none
  error : Option TestResultFailure := none
  skip : Option TestResultSkip := none
  stdout : String
  stderr : String
  duration : Option ℤ
  deriving DecidableEq

structure TestCase where
  className : String := ""
  name : String
  executions : List TestExecution
  deriving DecidableEq

namespace TestCase

variable (testCase : TestCase)

/-- `TestCase.Success` (lines 155–164). -/
def success : Option TestExecution :=
  testCase.executions.find? fun execution =>
    execution.failure.isNone && execution.error.isNone && execution.skip.isNone

/-- `TestCase.Skip` (lines 167–174). -/
def skip : Option TestExecution :=
  testCase.executions.find? fun execution => execution.skip.isSome

/-- `TestCase.Failures` (lines 177–185). -/
def failures : List TestExecution :=
  testCase.executions.filter fun execution => execution.failure.isSome

/-- `TestCase.Errors` (lines 188–196). -/
def errors : List TestExecution :=
  testCase.executions.filter fun execution => execution.error.isSome

end TestCase

abbrev TestCases := List TestCase

/-- `TestCases.AllSucceeded` (lines 213–220). -/
def TestCases.allSucceeded (testCases : TestCases) : Bool :=
  testCases.all fun testCase => testCase.success.isSome || testCase.skip.isSome

/-- `findMatchingTestCase` (lines 137–145); -1 is `none`. -/
def findMatchingTestCase (testCase : TestCase) (testCases : TestCases) : Option ℕ :=
  testCases.findIdx? fun originalTestCase =>
    originalTestCase.name = testCase.name && originalTestCase.className = testCase.className

/-- The body of the loop of `TestSuite.Add` (lines 125–133) on `TestCases`. -/
def TestCases.addCase (testCases : TestCases) (testCase : TestCase) : TestCases :=
  match findMatchingTestCase testCase testCases with
  | some idx => testCases.modify idx fun original =>
      { original with executions := original.executions ++ testCase.executions }
  | none => testCases ++ [testCase]

/-! ## Suites -/

/-- `TestSuite` (lines 17–26); a nil map is `none`. -/
structure TestSuite where
  package : String := ""
  name : String := ""
  duration : ℤ := 0
  cached : Bool := false
  timedOut : Bool := false
  testCases : TestCases := []
  properties : Option (SortedMap String String) := none
  timestamp : String := ""
  deriving DecidableEq

/-- `addAll` (lines 44–49). -/
def addAll (map1 map2 : SortedMap String String) : SortedMap String String :=
  map2.entries.foldl (fun m kv => m.insert kv.1 kv.2) map1

namespace TestSuite

variable (testSuite : TestSuite)

/-- `TestSuite.Collapse` (lines 34–42). -/
def collapse (incoming : TestSuite) : TestSuite :=
  { testSuite with
    testCases := testSuite.testCases ++ incoming.testCases
    duration := testSuite.duration + incoming.duration
    timedOut := testSuite.timedOut || incoming.timedOut
    properties :=
      some (addAll (testSuite.properties.getD SortedMap.empty)
        (incoming.properties.getD SortedMap.empty)) }

/-- `TestSuite.JavaStyleName` (lines 29–31). -/
def javaStyleName : String := testSuite.package ++ "." ++ testSuite.name

/-- `TestSuite.Errors` (lines 83–94). -/
def errors : ℕ :=
  testSuite.testCases.countP fun result =>
    -- No success result, not skipped, some errors (don't care about the presence of failures)
    result.success.isNone && result.skip.isNone && !result.errors.isEmpty

/-- `TestSuite.Skips` (lines 111–121). -/
def skips : ℕ := testSuite.testCases.countP fun result => result.skip.isSome

/-- `TestSuite.Failures` (lines 97–108). -/
def failures : ℕ :=
  testSuite.testCases.countP fun result =>
    -- No success result, not skipped, no errors, but some failures.
    result.success.isNone && result.skip.isNone &&
      result.errors.isEmpty && !result.failures.isEmpty

/-- `TestSuite.Add` (lines 125–135). -/
def add (cases : TestCases) : TestSuite :=
  { testSuite with testCases := cases.foldl TestCases.addCase testSuite.testCases }

end TestSuite

/-! ## What a case and a suite report -/

/-- The execution passed or was skipped. -/
def TestExecution.Ok (execution : TestExecution) : Prop :=
  (execution.failure = none ∧ execution.error = none) ∨ execution.skip ≠ none

/-- Some execution of the case passed or was skipped. -/
def TestCase.Ok (testCase : TestCase) : Prop :=
  ∃ execution ∈ testCase.executions, execution.Ok

/-- What `Add` tells cases apart by. -/
def TestCase.key (testCase : TestCase) : String × String :=
  (testCase.name, testCase.className)

theorem TestCase.ok_iff (testCase : TestCase) :
    (testCase.success.isSome || testCase.skip.isSome) = true ↔ testCase.Ok := by
  have hsuccess : testCase.success.isSome = true ↔ ∃ execution ∈ testCase.executions,
      (execution.failure = none ∧ execution.error = none) ∧ execution.skip = none := by
    simp [success]
  have hskip : testCase.skip.isSome = true ↔
      ∃ execution ∈ testCase.executions, execution.skip ≠ none := by
    rw [skip, find?_isSome]
    simp only [Option.isSome_iff_ne_none]
  rw [Bool.or_eq_true, hsuccess, hskip]
  constructor
  · rintro (⟨execution, hmem, hpass, -⟩ | ⟨execution, hmem, hs⟩)
    · exact ⟨execution, hmem, .inl hpass⟩
    · exact ⟨execution, hmem, .inr hs⟩
  · rintro ⟨execution, hmem, h⟩
    by_cases hs : execution.skip = none
    · exact .inl ⟨execution, hmem, h.resolve_right (not_not.mpr hs), hs⟩
    · exact .inr ⟨execution, hmem, hs⟩

theorem allSucceeded_iff (testCases : TestCases) :
    testCases.allSucceeded = true ↔ ∀ testCase ∈ testCases, testCase.Ok := by
  simp only [TestCases.allSucceeded, all_eq_true, TestCase.ok_iff]

/-- A suite that counts a failure did not succeed. -/
theorem failures_eq_zero {testSuite : TestSuite} (h : testSuite.testCases.allSucceeded = true) :
    testSuite.failures = 0 := by
  refine countP_eq_zero.mpr fun testCase hmem hfail => ?_
  have hok := (testCase.ok_iff).mpr ((allSucceeded_iff _).mp h testCase hmem)
  simp only [Bool.and_eq_true, Option.isNone_iff_eq_none] at hfail
  simp [hfail.1.1.1, hfail.1.1.2] at hok

/-! ## Adding one case -/

section addCase

variable (testCase : TestCase)

/-- The case `original` after the executions of `testCase` were appended to it. -/
def TestCase.append (original : TestCase) : TestCase :=
  { original with executions := original.executions ++ testCase.executions }

@[simp] theorem TestCase.key_append (original : TestCase) :
    (testCase.append original).key = original.key := rfl

@[simp] theorem TestCase.ok_append (original : TestCase) :
    (testCase.append original).Ok ↔ original.Ok ∨ testCase.Ok := by
  simp only [Ok, append, mem_append, or_and_right, exists_or]

@[simp] theorem addCase_nil : TestCases.addCase [] testCase = [testCase] := rfl

/-- `addCase` goes through the cases in order and stops at the first match. -/
theorem addCase_cons (original : TestCase) (rest : TestCases) :
    TestCases.addCase (original :: rest) testCase =
      if original.key = testCase.key then testCase.append original :: rest
      else original :: TestCases.addCase rest testCase := by
  have hkey : (decide (original.name = testCase.name) &&
      decide (original.className = testCase.className)) = decide (original.key = testCase.key) := by
    simp [TestCase.key]
  simp only [TestCases.addCase, findMatchingTestCase, findIdx?_cons, hkey]
  by_cases h : original.key = testCase.key
  · simp [h, TestCase.append]
  · simp only [h, decide_false, Bool.false_eq_true, if_false]
    cases findIdx? _ rest <;> simp

/-- Adding a case that did not succeed: the suite succeeds only if it did before
and the case is merged into one of its cases. -/
theorem allSucceeded_addCase (testCases : TestCases) (hfail : ¬ testCase.Ok) :
    (testCases.addCase testCase).allSucceeded = true ↔
      testCases.allSucceeded = true ∧ ∃ original ∈ testCases, original.key = testCase.key := by
  simp only [allSucceeded_iff]
  induction testCases with
  | nil => simp [hfail]
  | cons original _ ih =>
    rw [addCase_cons]
    by_cases h : original.key = testCase.key
    · simp [h, hfail]
    · simp only [h, if_false, forall_mem_cons, ih, exists_mem_cons_iff, false_or, and_assoc]

end addCase

/-! ## Adding any number of cases -/

/-- Some case has the name and class name `k`. -/
def Named (testCases : TestCases) (k : String × String) : Prop :=
  ∃ testCase ∈ testCases, testCase.key = k

/-- Some case with the name and class name `k` passed or was skipped. -/
def OkNamed (testCases : TestCases) (k : String × String) : Prop :=
  ∃ testCase ∈ testCases, testCase.key = k ∧ testCase.Ok

/-- No two cases have the same name and class name. -/
def NodupKeys (testCases : TestCases) : Prop :=
  (testCases.map TestCase.key).Nodup

theorem named_iff_mem {testCases : TestCases} {k : String × String} :
    Named testCases k ↔ k ∈ testCases.map TestCase.key := by
  simp [Named]

section

variable (testCases : TestCases) (testCase : TestCase)

theorem named_addCase (k : String × String) :
    Named (testCases.addCase testCase) k ↔ Named testCases k ∨ testCase.key = k := by
  simp only [Named]
  induction testCases with
  | nil => simp
  | cons original _ ih =>
    rw [addCase_cons]
    by_cases h : original.key = testCase.key
    · simp only [h, if_true, exists_mem_cons_iff, TestCase.key_append]
      grind
    · simp only [h, if_false, exists_mem_cons_iff, ih, or_assoc]

theorem okNamed_addCase (k : String × String) :
    OkNamed (testCases.addCase testCase) k ↔
      OkNamed testCases k ∨ (testCase.key = k ∧ testCase.Ok) := by
  simp only [OkNamed]
  induction testCases with
  | nil => simp
  | cons original _ ih =>
    rw [addCase_cons]
    by_cases h : original.key = testCase.key
    · simp only [h, if_true, exists_mem_cons_iff, TestCase.key_append, TestCase.ok_append]
      grind
    · simp only [h, if_false, exists_mem_cons_iff, ih, or_assoc]

theorem nodup_addCase (h : NodupKeys testCases) : NodupKeys (testCases.addCase testCase) := by
  induction testCases with
  | nil => exact nodup_singleton _
  | cons original rest ih =>
    obtain ⟨hnot, hrest⟩ := nodup_cons.mp h
    rw [addCase_cons]
    by_cases heq : original.key = testCase.key
    · rw [if_pos heq]
      exact h
    · rw [if_neg heq]
      refine nodup_cons.mpr ⟨fun hmem => ?_, ih hrest⟩
      rcases (named_addCase rest testCase _).mp (named_iff_mem.mpr hmem) with hn | hn
      · exact hnot (named_iff_mem.mp hn)
      · exact heq hn.symm

end

section add

variable (testSuite : TestSuite) (cases : TestCases)

theorem named_add (k : String × String) :
    Named (testSuite.add cases).testCases k ↔ Named testSuite.testCases k ∨ Named cases k :=
  foldl_iff_or (p := (Named · k)) fun testCases testCase => named_addCase testCases testCase k

theorem okNamed_add (k : String × String) :
    OkNamed (testSuite.add cases).testCases k ↔ OkNamed testSuite.testCases k ∨ OkNamed cases k :=
  foldl_iff_or (p := (OkNamed · k)) fun testCases testCase => okNamed_addCase testCases testCase k

theorem nodup_add (h : NodupKeys testSuite.testCases) :
    NodupKeys (testSuite.add cases).testCases := by
  simp only [TestSuite.add]
  generalize testSuite.testCases = testCases at h
  induction cases generalizing testCases with
  | nil => exact h
  | cons testCase _ ih => exact ih _ (nodup_addCase testCases testCase h)

/-- With one case for each name a suite succeeds exactly if every name it has was
successful. -/
theorem allSucceeded_iff_okNamed {testCases : TestCases} (h : NodupKeys testCases) :
    testCases.allSucceeded = true ↔ ∀ k, Named testCases k → OkNamed testCases k := by
  rw [allSucceeded_iff]
  constructor
  · rintro hall k ⟨testCase, hmem, rfl⟩
    exact ⟨testCase, hmem, rfl, hall testCase hmem⟩
  · intro hnamed testCase hmem
    obtain ⟨other, hother, hkey, hok⟩ := hnamed testCase.key ⟨testCase, hmem, rfl⟩
    rw [← inj_on_of_nodup_map h hother hmem hkey]
    exact hok

end add

end Please.Core
