import Please.Core.TestResults

/-!
# Test results in XML

Model of `toXMLTestCase` and `appendResult` (`src/test/xml_results.go`, lines 549–642 and
130–257): a test case becomes one element with a primary result and lists of flaky results and
reruns, and is read back from it. Attributes of times are floating-point numbers; what is done to
them is a parameter. A nil pointer that is followed makes the result `none`.

* `xmlResults_keep_verdict`: no verdict is changed by writing results and reading them back.
-/

namespace Please.Test

open Please.Core List TestCase TestCases

/-! ## Elements -/

/-- How durations are converted to the numbers in attributes, and back: `Duration.Seconds`,
`timed.Duration`, and the conversion `time.Duration(t)`. -/
structure Clock (T : Type) where
  seconds : ℤ → T
  duration : T → ℤ
  truncate : T → ℤ

/-- `jUnitXMLFlaky` and `jUnitXMLRerunError`. `jUnitXMLError` and `jUnitXMLFailure` have the
fields of `TestResultFailure`. -/
structure JUnitXMLFlaky extends TestResultFailure where
  stdout : String
  stderr : String

/-- `jUnitXMLRerunFailure`. -/
structure JUnitXMLRerunFailure (T : Type) extends JUnitXMLFlaky where
  time : T

/-- `jUnitXMLTest` (lines 295–312). -/
structure JUnitXMLTest (T : Type) where
  name : String
  className : String
  time : T
  error : Option TestResultFailure := none
  flakyError : List JUnitXMLFlaky := []
  rerunError : List JUnitXMLFlaky := []
  failure : Option TestResultFailure := none
  flakyFailure : List JUnitXMLFlaky := []
  rerunFailure : List (JUnitXMLRerunFailure T) := []
  skipped : Option TestResultSkip := none
  stdout : String := ""
  stderr : String := ""

variable {T : Type} (clock : Clock T)

/-! ## Writing -/

/-- A failure or an error of an execution, with its output. -/
def flaky (execution : TestExecution) (failure : TestResultFailure) : JUnitXMLFlaky :=
  { failure with stdout := execution.stdout, stderr := execution.stderr }

/-- The variables of the loop over the executions of a case that never passed. -/
structure Reruns (T : Type) where
  testcase : JUnitXMLTest T
  doneFirst : Bool := false
  setDuration : Bool := false

/-- The body of that loop (lines 597–638). -/
def addExecution (st : Reruns T) (execution : TestExecution) : Option (Reruns T) :=
  let first := { st.testcase with stdout := execution.stdout, stderr := execution.stderr }
  match execution.error, execution.failure with
  | some error, _ =>
    some { st with
      doneFirst := true
      testcase :=
        if !st.doneFirst then { first with error := some error }
        else { st.testcase with
          rerunError := st.testcase.rerunError ++ [flaky execution error] } }
  | none, some failure => do
    let testcase ←
      if !st.doneFirst then some { first with failure := some failure }
      else do
        let duration ← execution.duration
        let rerun := { flaky execution failure with time := clock.seconds duration }
        some { st.testcase with rerunFailure := st.testcase.rerunFailure ++ [rerun] }
    match !st.setDuration, execution.duration with
    | true, some duration => some ⟨{ testcase with time := clock.seconds duration }, true, true⟩
    | _, _ => some ⟨testcase, true, st.setDuration⟩
  | none, none => some st

/-- `toXMLTestCase`. -/
def toXMLTestCase [Zero T] (result : TestCase) (storeOutputOnSuccess : Bool) :
    Option (JUnitXMLTest T) :=
  let testcase : JUnitXMLTest T := { className := result.className, name := result.name, time := 0 }
  match result.success, result.skip with
  | some success, _ => do
    let duration ← success.duration
    -- We passed but we might have had flakes
    some { testcase with
      time := clock.seconds duration
      stderr := if storeOutputOnSuccess then success.stderr else ""
      stdout := if storeOutputOnSuccess then success.stdout else ""
      flakyFailure := result.failures.filterMap fun execution =>
        execution.failure.map (flaky execution)
      flakyError := result.errors.filterMap fun execution =>
        execution.error.map (flaky execution) }
  | none, some skip => some { testcase with skipped := skip.skip }
  | none, none =>
    (result.executions.foldlM (addExecution clock) { testcase := testcase }).map Reruns.testcase

/-! ## Reading -/

section reading

variable (test : JUnitXMLTest T) (results : TestCase)

def appendExecution (execution : TestExecution) : TestCase :=
  { results with executions := results.executions ++ [execution] }

/-- A failure takes the duration of the element. -/
def failedExecution (failure : TestResultFailure) : TestExecution :=
  { failure := some failure, duration := some (clock.truncate test.time),
    stdout := test.stdout, stderr := test.stderr }

def erroredExecution (error : TestResultFailure) : TestExecution :=
  { error := some error, duration := none, stdout := test.stdout, stderr := test.stderr }

def appendFailure (failure : TestResultFailure) : TestCase :=
  appendExecution results (failedExecution clock test failure)

def appendFlakyFailure (flake : JUnitXMLFlaky) : TestCase :=
  appendExecution results (failedExecution clock test flake.toTestResultFailure)

def appendFlakyError (flake : JUnitXMLFlaky) : TestCase :=
  appendExecution results (erroredExecution test flake.toTestResultFailure)

def appendRerunFailure (flake : JUnitXMLRerunFailure T) : TestCase :=
  appendExecution results (failedExecution clock test flake.toTestResultFailure)

def appendRerunError (flake : JUnitXMLFlaky) : TestCase :=
  appendExecution results (erroredExecution test flake.toTestResultFailure)

def appendError (error : TestResultFailure) : TestCase :=
  appendExecution results (erroredExecution test error)

def appendSkipped (skipped : TestResultSkip) : TestCase :=
  appendExecution results
    { skip := some skipped, duration := none, stdout := test.stdout, stderr := test.stderr }

def appendSuccess : TestCase :=
  appendExecution results
    { duration := some (clock.duration test.time), stdout := test.stdout, stderr := test.stderr }

/-- `appendResult`. -/
def appendResult : TestCase :=
  -- There can be only one of these
  let results := match test.failure, test.error, test.skipped with
    | some failure, _, _ => appendFailure clock test results failure
    | none, some error, _ => appendError test results error
    | none, none, some skipped => appendSkipped test results skipped
    | none, none, none => appendSuccess clock test results
  let results := test.flakyFailure.foldl (appendFlakyFailure clock test) results
  let results := test.flakyError.foldl (appendFlakyError test) results
  let results := test.rerunFailure.foldl (appendRerunFailure clock test) results
  test.rerunError.foldl (appendRerunError test) results

/-- The case that `toCoreTestSuite` (lines 96–103) makes of an element. -/
def readBack : TestCase :=
  appendResult clock test { className := test.className, name := test.name, executions := [] }

end reading

/-! ## What is read back -/

theorem foldl_appendExecution {α : Type} (f : α → TestExecution) (l : List α) (results : TestCase) :
    (l.foldl (fun results a => appendExecution results (f a)) results).executions =
      results.executions ++ l.map f := by
  induction l generalizing results with
  | nil => simp
  | cons a l ih =>
    rw [foldl_cons, ih]
    simp [appendExecution]

/-- The execution that the primary result of an element stands for. -/
def primary (test : JUnitXMLTest T) : TestExecution :=
  match test.failure, test.error, test.skipped with
  | some failure, _, _ => failedExecution clock test failure
  | none, some error, _ => erroredExecution test error
  | none, none, skip =>
    { skip := skip, stdout := test.stdout, stderr := test.stderr
      duration := if skip.isNone then some (clock.duration test.time) else none }

variable (test : JUnitXMLTest T)

theorem readBack_executions :
    (readBack clock test).executions = primary clock test ::
      (test.flakyFailure.map (fun f => failedExecution clock test f.toTestResultFailure) ++
        test.flakyError.map (fun f => erroredExecution test f.toTestResultFailure) ++
        test.rerunFailure.map (fun f => failedExecution clock test f.toTestResultFailure) ++
        test.rerunError.map fun f => erroredExecution test f.toTestResultFailure) := by
  unfold readBack appendResult
  delta appendFlakyFailure appendFlakyError appendRerunFailure appendRerunError
  simp only [foldl_appendExecution]
  cases hf : test.failure <;> cases he : test.error <;> cases hs : test.skipped <;>
    simp [primary, appendFailure, appendError, appendSkipped, appendSuccess, appendExecution,
      hf, he, hs]

/-- Some execution that is read back has the property. -/
theorem exists_readBack_iff (p : TestExecution → Prop) :
    (∃ execution ∈ (readBack clock test).executions, p execution) ↔
      p (primary clock test) ∨
        (∃ f ∈ test.flakyFailure, p (failedExecution clock test f.toTestResultFailure)) ∨
        (∃ f ∈ test.flakyError, p (erroredExecution test f.toTestResultFailure)) ∨
        (∃ f ∈ test.rerunFailure, p (failedExecution clock test f.toTestResultFailure)) ∨
        ∃ f ∈ test.rerunError, p (erroredExecution test f.toTestResultFailure) := by
  simp only [readBack_executions, exists_mem_cons_iff, mem_append, or_and_right,
    exists_or, mem_map, exists_exists_and_eq_and, or_assoc]

theorem success_readBack : (readBack clock test).success.isSome = true ↔
    test.failure = none ∧ test.error = none ∧ test.skipped = none := by
  rw [success, find?_isSome, exists_readBack_iff]
  cases hf : test.failure <;> cases he : test.error <;> cases hs : test.skipped <;>
    simp [primary, failedExecution, erroredExecution, hf, he, hs]

theorem skip_readBack : (readBack clock test).skip.isSome = true ↔
    test.failure = none ∧ test.error = none ∧ test.skipped ≠ none := by
  rw [skip, find?_isSome, exists_readBack_iff]
  cases hf : test.failure <;> cases he : test.error <;> cases hs : test.skipped <;>
    simp [primary, failedExecution, erroredExecution, hf, he, hs]

theorem errors_ne_nil_iff (testCase : TestCase) : testCase.errors ≠ [] ↔
    ∃ execution ∈ testCase.executions, execution.error ≠ none := by
  simp [errors]

theorem errors_readBack : (readBack clock test).errors ≠ [] ↔
    (test.failure = none ∧ test.error ≠ none) ∨ test.flakyError ≠ [] ∨ test.rerunError ≠ [] := by
  rw [errors_ne_nil_iff, exists_readBack_iff]
  cases hf : test.failure <;> cases he : test.error <;>
    simp [primary, failedExecution, erroredExecution, hf, he, eq_nil_iff_forall_not_mem]

/-! ## Cases that never passed -/

/-- After the first execution the loop only adds reruns. -/
theorem foldlM_addExecution {l : List TestExecution}
    (htimed : ∀ execution ∈ l, execution.failure ≠ none → execution.duration ≠ none)
    {st : Reruns T} (hdone : st.doneFirst = true) :
    ∃ st', l.foldlM (addExecution clock) st = some st' ∧
      st'.testcase.failure = st.testcase.failure ∧ st'.testcase.error = st.testcase.error ∧
      st'.testcase.skipped = st.testcase.skipped ∧
      st'.testcase.flakyError = st.testcase.flakyError ∧
      (st'.testcase.rerunError ≠ [] ↔
        st.testcase.rerunError ≠ [] ∨ ∃ execution ∈ l, execution.error ≠ none) := by
  induction l generalizing st with
  | nil => exact ⟨st, rfl, rfl, rfl, rfl, rfl, by simp⟩
  | cons execution l ih =>
    obtain ⟨htime, htimed⟩ := forall_mem_cons.mp htimed
    obtain ⟨next, hnext, hdone', hfailure, herror, hskipped, hflaky, hrerun⟩ :
        ∃ next, addExecution clock st execution = some next ∧ next.doneFirst = true ∧
          next.testcase.failure = st.testcase.failure ∧ next.testcase.error = st.testcase.error ∧
          next.testcase.skipped = st.testcase.skipped ∧
          next.testcase.flakyError = st.testcase.flakyError ∧
          (next.testcase.rerunError ≠ [] ↔
            st.testcase.rerunError ≠ [] ∨ execution.error ≠ none) := by
      cases he : execution.error with
      | some => simp [addExecution, he, hdone]
      | none =>
        cases hf : execution.failure with
        | none => simp [addExecution, he, hf, hdone]
        | some =>
          obtain ⟨duration, hd⟩ := Option.ne_none_iff_exists'.mp (htime (by simp [hf]))
          cases hset : st.setDuration <;> simp [addExecution, he, hf, hd, hdone, hset]
    obtain ⟨st', hrun, hfailure', herror', hskipped', hflaky', hrerun'⟩ := ih htimed hdone'
    refine ⟨st', ?_, hfailure'.trans hfailure, herror'.trans herror, hskipped'.trans hskipped,
      hflaky'.trans hflaky, ?_⟩
    · rw [foldlM_cons, hnext]
      exact hrun
    · rw [hrerun', hrerun, exists_mem_cons_iff, or_assoc]

/-! ## Verdicts -/

/-- The case counts as an error of its suite. -/
def errored (testCase : TestCase) : Bool :=
  testCase.success.isNone && testCase.skip.isNone && !testCase.errors.isEmpty

/-- The case counts as a failure of its suite. -/
def failed (testCase : TestCase) : Bool :=
  testCase.success.isNone && testCase.skip.isNone && testCase.errors.isEmpty &&
    !testCase.failures.isEmpty

/-- The two cases have the same verdict. -/
structure SameVerdict (a b : TestCase) : Prop where
  success : a.success.isSome = b.success.isSome
  skip : a.skip.isSome = b.skip.isSome
  errored : errored a = errored b
  failed : failed a = failed b

/-- A case with an execution, of which either all or none are skipped, and with the durations of
those that passed or failed. -/
structure Reportable (testCase : TestCase) : Prop where
  nonempty : testCase.executions ≠ []
  unmixed : (∀ execution ∈ testCase.executions, execution.skip = none) ∨
    ∀ execution ∈ testCase.executions, execution.skip ≠ none
  passed : ∀ execution ∈ testCase.executions, execution.failure = none →
    execution.error = none → execution.skip = none → execution.duration ≠ none
  failed : ∀ execution ∈ testCase.executions, execution.failure ≠ none → execution.duration ≠ none

/-- A case without a success, a skip or an error has a failure. -/
theorem failed_eq {testCase : TestCase} (h : testCase.executions ≠ []) : failed testCase =
    (testCase.success.isNone && testCase.skip.isNone && testCase.errors.isEmpty) := by
  obtain ⟨execution, rest, hcons⟩ := exists_cons_of_ne_nil h
  by_cases hf : execution.failure = none
  · simp only [failed, success, skip, errors, hcons, find?_cons]
    cases he : execution.error <;> cases hs : execution.skip <;> simp [hf, he]
  · have hfailures : testCase.failures.isEmpty = false := by
      simp [failures, hcons, Option.isSome_iff_ne_none, hf]
    simp [failed, hfailures]

theorem sameVerdict_of_iff {a b : TestCase} (ha : a.executions ≠ []) (hb : b.executions ≠ [])
    (hsuccess : a.success.isSome = true ↔ b.success.isSome = true)
    (hskip : a.skip.isSome = true ↔ b.skip.isSome = true)
    (herrors : a.success = none → a.skip = none → (a.errors ≠ [] ↔ b.errors ≠ [])) :
    SameVerdict a b := by
  have hsuccess := Bool.eq_iff_iff.mpr hsuccess
  have hskip := Bool.eq_iff_iff.mpr hskip
  have hdark : (b.success.isNone && b.skip.isNone) = (a.success.isNone && a.skip.isNone) := by
    simp only [← Option.not_isSome, hsuccess, hskip]
  cases h : a.success.isNone && a.skip.isNone with
  | false =>
    exact ⟨hsuccess, hskip, by simp only [errored, hdark, h, Bool.false_and],
      by simp only [failed, hdark, h, Bool.false_and]⟩
  | true =>
    simp only [Bool.and_eq_true, Option.isNone_iff_eq_none] at h
    have herr : b.errors.isEmpty = a.errors.isEmpty := by
      rw [Bool.eq_iff_iff, List.isEmpty_iff, List.isEmpty_iff]
      exact (not_iff_not.mp (herrors h.1 h.2)).symm
    exact ⟨hsuccess, hskip, by simp only [errored, hdark, herr],
      by simp only [failed_eq ha, failed_eq hb, hdark, herr]⟩

variable [Zero T] (storeOutputOnSuccess : Bool)

/-- Writing a case and reading it back gives a case with the same verdict. -/
theorem toXMLTestCase_verdict {testCase : TestCase} (h : Reportable testCase) :
    ∃ test, toXMLTestCase clock testCase storeOutputOnSuccess = some test ∧
      SameVerdict testCase (readBack clock test) := by
  have hread : ∀ test, (readBack clock test).executions ≠ [] := by
    intro test
    rw [readBack_executions]
    exact cons_ne_nil _ _
  cases hsuccess : testCase.success with
  | some success =>
    have hpass := find?_some hsuccess
    have hmem := mem_of_find?_eq_some hsuccess
    simp only [Bool.and_eq_true, Option.isNone_iff_eq_none] at hpass
    obtain ⟨duration, hd⟩ := Option.ne_none_iff_exists'.mp
      (h.passed success hmem hpass.1.1 hpass.1.2 hpass.2)
    have hskip : testCase.skip = none := by
      rcases h.unmixed with hnone | hall
      · simpa [skip] using hnone
      · exact absurd hpass.2 (hall success hmem)
    refine ⟨_, by simp only [toXMLTestCase, hsuccess, hd]; rfl,
      sameVerdict_of_iff h.nonempty (hread _) ?_ ?_ ?_⟩
    · rw [success_readBack]
      simp [hsuccess]
    · rw [skip_readBack]
      simp [hskip]
    · simp [hsuccess]
  | none =>
    cases hskip : testCase.skip with
    | some =>
      have hsome := find?_some hskip
      refine ⟨_, by simp only [toXMLTestCase, hsuccess, hskip]; rfl,
        sameVerdict_of_iff h.nonempty (hread _) ?_ ?_ ?_⟩
      · rw [success_readBack]
        simpa [hsuccess, Option.isSome_iff_ne_none] using hsome
      · rw [skip_readBack]
        simpa [hskip, Option.isSome_iff_ne_none] using hsome
      · simp [hskip]
    | none =>
      obtain ⟨execution, rest, hcons⟩ := exists_cons_of_ne_nil h.nonempty
      have htimed : ∀ e ∈ rest, e.failure ≠ none → e.duration ≠ none := fun e he =>
        h.failed e (hcons ▸ mem_cons_of_mem _ he)
      have hexec : execution.error ≠ none ∨ execution.failure ≠ none := by
        have hs := find?_eq_none.mp hsuccess execution (hcons ▸ mem_cons_self)
        have hk := find?_eq_none.mp hskip execution (hcons ▸ mem_cons_self)
        by_contra! hnone
        simp [hnone] at hs hk
        exact hs hk
      have hfirst : ∃ st, addExecution clock { testcase :=
            { className := testCase.className, name := testCase.name, time := (0 : T) } }
          execution = some st ∧ st.doneFirst = true ∧ st.testcase.skipped = none ∧
          st.testcase.flakyError = [] ∧ st.testcase.rerunError = [] ∧
          (st.testcase.failure = none ↔ execution.error ≠ none) ∧
          (st.testcase.failure = none → st.testcase.error ≠ none) := by
        cases he : execution.error with
        | some => simp [addExecution, he]
        | none =>
          obtain ⟨failure, hf⟩ := Option.ne_none_iff_exists'.mp (hexec.resolve_left (by simp [he]))
          cases hd : execution.duration <;> simp [addExecution, he, hf, hd]
      obtain ⟨st, hst, hdone, hskipped, hflaky, hrerun, hfailure, herror⟩ := hfirst
      obtain ⟨st', hrun, hfailure', herror', hskipped', hflaky', hrerun'⟩ :=
        foldlM_addExecution clock htimed hdone
      refine ⟨st'.testcase, ?_, sameVerdict_of_iff h.nonempty (hread _) ?_ ?_ ?_⟩
      · simp only [toXMLTestCase, hsuccess, hskip, hcons, foldlM_cons, hst]
        exact congrArg (Option.map _) hrun
      · rw [success_readBack, hfailure', herror']
        simp only [hsuccess, Option.isSome_none, Bool.false_eq_true, false_iff]
        exact fun hnone => herror hnone.1 hnone.2.1
      · rw [skip_readBack, hskipped', hskipped]
        simp [hskip]
      · intro _ _
        rw [errors_readBack, errors_ne_nil_iff, hcons, hfailure', herror', hflaky', hflaky, hrerun',
          hrerun, exists_mem_cons_iff, ← hfailure]
        simp only [ne_eq, not_true_eq_false, false_or]
        exact or_congr_left ⟨fun hnone => ⟨hnone, herror hnone⟩, fun hnone => hnone.1⟩

theorem forall₂_readBack {testCases : TestCases} (h : ∀ testCase ∈ testCases, Reportable testCase) :
    ∃ tests, testCases.mapM (toXMLTestCase clock · storeOutputOnSuccess) = some tests ∧
      List.Forall₂ SameVerdict testCases (tests.map (readBack clock)) := by
  induction testCases with
  | nil => exact ⟨[], rfl, .nil⟩
  | cons _ _ ih =>
    obtain ⟨hcase, hrest⟩ := forall_mem_cons.mp h
    obtain ⟨test, htest, hsame⟩ := toXMLTestCase_verdict clock storeOutputOnSuccess hcase
    obtain ⟨tests, htests, hall⟩ := ih hrest
    refine ⟨test :: tests, ?_, .cons hsame hall⟩
    rw [mapM_cons, htest, htests]
    rfl

omit [Zero T] in
theorem countP_eq_of_sameVerdict {p : TestCase → Bool} (hp : ∀ a b, SameVerdict a b → p b = p a)
    {l l' : TestCases} (h : List.Forall₂ SameVerdict l l') : l'.countP p = l.countP p := by
  induction h with
  | nil => rfl
  | cons hab _ ih => rw [countP_cons, countP_cons, ih, hp _ _ hab]

omit [Zero T] in
/-- A case that neither succeeded nor was skipped counts as an error or as a failure. -/
theorem allSucceeded_iff_counts {testSuite : TestSuite}
    (h : ∀ testCase ∈ testSuite.testCases, Reportable testCase) :
    testSuite.testCases.allSucceeded = true ↔ testSuite.errors + testSuite.failures = 0 := by
  show _ ↔ testSuite.testCases.countP errored + testSuite.testCases.countP failed = 0
  rw [Nat.add_eq_zero_iff, countP_eq_zero, countP_eq_zero, allSucceeded, all_eq_true]
  have hcase : ∀ testCase ∈ testSuite.testCases,
      (testCase.success.isSome || testCase.skip.isSome) = true ↔
        ¬ errored testCase = true ∧ ¬ failed testCase = true := by
    intro testCase hmem
    rw [failed_eq (h testCase hmem).nonempty, errored]
    cases testCase.success <;> cases testCase.skip <;> cases testCase.errors.isEmpty <;> simp
  exact ⟨fun hall => ⟨fun c hc => ((hcase c hc).mp (hall c hc)).1,
      fun c hc => ((hcase c hc).mp (hall c hc)).2⟩,
    fun hzero c hc => (hcase c hc).mpr ⟨hzero.1 c hc, hzero.2 c hc⟩⟩

/-- Results that are written to XML and read back keep their verdicts, case by case, and the
suite keeps its counts; it succeeded exactly if it counts no error and no failure. -/
theorem xmlResults_keep_verdict (testSuite : TestSuite)
    (h : ∀ testCase ∈ testSuite.testCases, Reportable testCase) :
    (testSuite.testCases.allSucceeded = true ↔ testSuite.errors + testSuite.failures = 0) ∧
      ∃ tests, testSuite.testCases.mapM (toXMLTestCase clock · storeOutputOnSuccess) = some tests ∧
        let back := { testSuite with testCases := tests.map (readBack clock) }
        List.Forall₂ SameVerdict testSuite.testCases back.testCases ∧
          back.errors = testSuite.errors ∧ back.failures = testSuite.failures ∧
          back.skips = testSuite.skips ∧
          back.testCases.allSucceeded = testSuite.testCases.allSucceeded := by
  obtain ⟨tests, htests, hall⟩ := forall₂_readBack clock storeOutputOnSuccess h
  refine ⟨allSucceeded_iff_counts h, tests, htests, hall,
    countP_eq_of_sameVerdict (fun a b hab => hab.errored.symm) hall,
    countP_eq_of_sameVerdict (fun a b hab => hab.failed.symm) hall,
    countP_eq_of_sameVerdict (fun a b hab => hab.skip.symm) hall, ?_⟩
  have hok : ∀ l : TestCases, l.allSucceeded = true ↔
      l.countP (fun c => !(c.success.isSome || c.skip.isSome)) = 0 := by
    simp [allSucceeded, Option.isSome_iff_ne_none, or_iff_not_imp_left]
  rw [Bool.eq_iff_iff, hok, hok,
    countP_eq_of_sameVerdict (fun a b hab => by rw [hab.success, hab.skip]) hall]

/-- A test that failed before it passed. -/
def flakyCase : TestCase where
  name := "flaky"
  executions := [
    { failure := some ⟨"AssertionError", "1 != 2", ""⟩, stdout := "", stderr := "",
      duration := some 3 },
    { stdout := "", stderr := "", duration := some 4 }]

theorem xmlResults_keep_verdict_flaky :
    (∀ testCase ∈ [flakyCase], Reportable testCase) ∧
      (allSucceeded [flakyCase] = true ↔
        TestSuite.errors { testCases := [flakyCase] } +
          TestSuite.failures { testCases := [flakyCase] } = 0) := by
  have h : ∀ testCase ∈ [flakyCase], Reportable testCase := by
    simp only [forall_mem_singleton]
    exact ⟨by decide, by decide, by decide, by decide⟩
  exact ⟨h, (xmlResults_keep_verdict (⟨id, id, id⟩ : Clock ℤ) true
    { testCases := [flakyCase] } h).1⟩

end Please.Test
