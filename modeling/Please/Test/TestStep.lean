import Please.Core.TestResults
import Please.Fs.Tree

/-!
# Running a test and judging its results

Model of `parseTestResults` and `parseTestResultDatum` (`src/test/results.go`,
lines 14–49), `parseTestOutput`, `doTest` and `doFlakeRun` (`src/test/test_step.go`,
lines 431–515, 363–377 and 247–274), and of the part of `createTarget`
(`src/parse/asp/targets.go`, lines 157–174) that sets a test's flakiness.
The two parsers of result files and the outcome of an attempt to run the test
(`doTestResults`) are parameters.

* `parseTestOutput_success_iff`, `doFlakeRun_success_iff`: when success is reported.
* `parseTestResults_perm`: the order of the result files makes no difference.
* `flaky_executed_iff`: how often a test is run.
-/

namespace Please.Test

open Please.Core

/-! ## Parsing the results -/

/-- The parsers of the two formats of result files. -/
structure ResultParsers where
  parseJUnitXMLTestResults : Fs.Bytes → Except String (List TestSuite)
  parseGoTestResults : Fs.Bytes → Except String TestSuite

/-- `looksLikeJUnitXMLTestResults` (`src/test/xml_results.go`, lines 24–26):
the data begin with `<?xml` or `<test`. -/
def looksLikeJUnitXMLTestResults (b : Fs.Bytes) : Bool :=
  [60, 63, 120, 109, 108].isPrefixOf b || [60, 116, 101, 115, 116].isPrefixOf b

section parsing

variable (parsers : ResultParsers)

/-- `parseTestResultDatum`. -/
def parseTestResultDatum (data : Fs.Bytes) : Except String TestSuite :=
  if data.isEmpty then .error "No results"
  else if looksLikeJUnitXMLTestResults data then
    (parsers.parseJUnitXMLTestResults data).map fun testSuites =>
      testSuites.foldl TestSuite.collapse {}
  else parsers.parseGoTestResults data

/-- `parseTestResults`. -/
def parseTestResults (data : List Fs.Bytes) : Except String TestSuite :=
  data.foldlM (fun suite datum => (parseTestResultDatum parsers datum).map suite.collapse) {}

/-! ## Judging the results -/

/-- The fields of `target.Test` that `parseTestOutput` reads: `Results.Name` is the
name of the target's label (`StartTestSuite`, `src/core/build_target.go`, line
502). -/
structure TestFields where
  resultsName : String
  noOutput : Bool

/-- What an attempt to run the test leaves behind (`doTestResults`). -/
structure Attempt where
  stdout : String
  stderr : String
  runError : Option String
  duration : ℤ
  resultsData : List Fs.Bytes
  timedOut : Bool
  cached : Bool

variable (target : TestFields) (attempt : Attempt)

/-- The case of the local function `failSuite` (lines 449–468). -/
def failCase (msg resultType traceback : String) : TestCase where
  name := target.resultsName
  executions := [{
    duration := some attempt.duration
    stdout := attempt.stdout
    stderr := attempt.stderr
    error := some { message := msg, type := resultType, traceback := traceback } }]

def failSuite (msg resultType traceback : String) : TestSuite where
  testCases := [failCase target attempt msg resultType traceback]

/-- `parseTestOutput`. -/
def parseTestOutput : TestSuite :=
  if attempt.resultsData.isEmpty then
    match attempt.runError with
    | none =>
      -- No output and no execution error and output not expected - OK
      if target.noOutput then
        { testCases := [{
            name := target.resultsName
            executions := [{
              duration := some attempt.duration
              stdout := attempt.stdout
              stderr := attempt.stderr }] }] }
      else failSuite target attempt "Test failed to produce output results file"
        "MissingResults" ""
    | some runError => failSuite target attempt "Test failed" "TestFailed" runError
  else
    match parseTestResults parsers attempt.resultsData, attempt.runError with
    | .error _, some runError =>
      failSuite target attempt "Test failed with no results" "NoResults" runError
    | .error parseError, none =>
      failSuite target attempt "Couldn't parse test output file" "NoResults" parseError
    | .ok results, some runError =>
      if results.failures = 0 then
        results.add (failSuite target attempt "Test returned nonzero but reported no errors"
          "ReturnValue" runError).testCases
      else results
    | .ok results, none =>
      if results.failures ≠ 0 then
        results.add (failSuite target attempt "Test returned 0 but still reported failures"
          "ReturnValue" "").testCases
      else results

/-- `doTest`; `package` is the package name of the label with dots for slashes. -/
def doTest (package : String) : TestSuite :=
  let parsedSuite := parseTestOutput parsers target attempt
  { package := package
    name := target.resultsName
    duration := attempt.duration
    timedOut := attempt.timedOut
    properties := parsedSuite.properties
    testCases := parsedSuite.testCases
    cached := attempt.cached }

theorem allSucceeded_failSuite (msg resultType traceback : String) :
    (failSuite target attempt msg resultType traceback).testCases.allSucceeded = false := rfl

/-- Adding a synthetic case to a suite hides in a case of the suite that has the
name of the target and no class name. -/
theorem allSucceeded_add_failSuite (results : TestSuite) (msg resultType traceback : String) :
    (results.add (failSuite target attempt msg resultType
      traceback).testCases).testCases.allSucceeded
        = true ↔
      results.testCases.allSucceeded = true ∧ Named results.testCases (target.resultsName, "") :=
  allSucceeded_addCase _ _ (by simp [failCase, TestCase.Ok, TestExecution.Ok])

/-- The results of the attempt parse, as `results`. -/
def ParsesAs (results : TestSuite) : Prop :=
  attempt.resultsData ≠ [] ∧ parseTestResults parsers attempt.resultsData = .ok results

theorem allSucceeded_parseTestOutput :
    (parseTestOutput parsers target attempt).testCases.allSucceeded = true ↔
      (attempt.runError = none ∧ attempt.resultsData = [] ∧ target.noOutput = true) ∨
      ∃ results, ParsesAs parsers attempt results ∧ results.testCases.allSucceeded = true ∧
        (attempt.runError = none ∨ Named results.testCases (target.resultsName, "")) := by
  unfold parseTestOutput ParsesAs
  by_cases hdata : attempt.resultsData = []
  · cases hrun : attempt.runError with
    | none =>
      by_cases ho : target.noOutput = true
      · simp only [hdata, List.isEmpty_nil, ho, if_true, true_and, true_or, iff_true]
        rfl
      · simp [hdata, ho, allSucceeded_failSuite]
    | some => simp [hdata, allSucceeded_failSuite]
  · have hempty : attempt.resultsData.isEmpty = false := by simpa using hdata
    cases hparse : parseTestResults parsers attempt.resultsData with
    | error => cases hrun : attempt.runError <;> simp [hdata, hempty, allSucceeded_failSuite]
    | ok results =>
      have hfail : results.testCases.allSucceeded = true → results.failures = 0 := failures_eq_zero
      cases hrun : attempt.runError with
      | none =>
        by_cases hzero : results.failures = 0
        · simp [hdata, hempty, hzero]
        · have : results.testCases.allSucceeded ≠ true := fun h => hzero (hfail h)
          simp [hdata, hempty, hzero, allSucceeded_add_failSuite, this]
      | some =>
        by_cases hzero : results.failures = 0
        · simp [hdata, hempty, hzero, allSucceeded_add_failSuite]
        · have : results.testCases.allSucceeded ≠ true := fun h => hzero (hfail h)
          simp [hdata, hempty, hzero, this]

/-- A test is reported successful only if it exited successfully and its results
passed, unless the synthetic failure is merged into a case that passed. -/
theorem parseTestOutput_success_iff :
    ((attempt.runError ≠ none →
        (parseTestOutput parsers target attempt).testCases.allSucceeded = false) ∧
      (attempt.runError = none →
        (parseTestOutput parsers target attempt).testCases.allSucceeded = true →
        (∃ results, ParsesAs parsers attempt results ∧
          ∀ testCase ∈ results.testCases, testCase.Ok) ∨
        (target.noOutput = true ∧ attempt.resultsData = []))) ↔
      ¬ (attempt.runError ≠ none ∧ ∃ results, ParsesAs parsers attempt results ∧
          results.testCases.allSucceeded = true ∧
          ∃ testCase ∈ results.testCases,
            testCase.name = target.resultsName ∧ testCase.className = "") := by
  have hnamed : ∀ testCases : TestCases, (∃ testCase ∈ testCases,
      testCase.name = target.resultsName ∧ testCase.className = "") ↔
      Named testCases (target.resultsName, "") := by
    simp [Named, TestCase.key]
  have hspec := allSucceeded_parseTestOutput parsers target attempt
  simp only [hnamed]
  constructor
  · rintro ⟨hexit, -⟩ ⟨hrun, results, hparse, hall, hmerged⟩
    have htrue := hspec.mpr (.inr ⟨results, hparse, hall, .inr hmerged⟩)
    simp [hexit hrun] at htrue
  · intro hnot
    refine ⟨fun hrun => ?_, fun hrun htrue => ?_⟩
    · rw [← Bool.not_eq_true, hspec]
      rintro (⟨hnone, -⟩ | ⟨results, hparse, hall, hmerged⟩)
      · exact hrun hnone
      · exact hnot ⟨hrun, results, hparse, hall, hmerged.resolve_left hrun⟩
    · rcases hspec.mp htrue with ⟨-, hdata, ho⟩ | ⟨results, hparse, hall, -⟩
      · exact .inr ⟨ho, hdata⟩
      · exact .inl ⟨results, hparse, (allSucceeded_iff _).mp hall⟩

/-! ### The order of the result files -/

variable {data data' : List Fs.Bytes} {s s' s₁ : TestSuite}

/-- The suites have the same cases, in some order, and the same times. -/
structure SameReport (s s' : TestSuite) : Prop where
  cases : s.testCases.Perm s'.testCases
  duration : s.duration = s'.duration
  timedOut : s.timedOut = s'.timedOut

theorem SameReport.collapse (h : SameReport s s') (r : TestSuite) :
    SameReport (s.collapse r) (s'.collapse r) where
  cases := h.cases.append_right _
  duration := congrArg (· + r.duration) h.duration
  timedOut := congrArg (· || r.timedOut) h.timedOut

theorem SameReport.collapse_collapse (h : SameReport s s') (r r' : TestSuite) :
    SameReport ((s.collapse r).collapse r') ((s'.collapse r').collapse r) where
  cases := by
    simp only [TestSuite.collapse, List.append_assoc]
    exact h.cases.append List.perm_append_comm
  duration := by
    simp only [TestSuite.collapse, h.duration]
    omega
  timedOut := by simp only [TestSuite.collapse, h.timedOut, Bool.or_right_comm]

/-- By induction on how the files are put into another order; what was read before them may be in
another order too. -/
theorem exists_sameReport (h : data.Perm data') (hs : SameReport s s')
    (hparse : data.foldlM
      (fun suite datum => (parseTestResultDatum parsers datum).map suite.collapse) s = .ok s₁) :
    ∃ s₁', data'.foldlM
        (fun suite datum => (parseTestResultDatum parsers datum).map suite.collapse) s' = .ok s₁' ∧
      SameReport s₁ s₁' := by
  induction h using List.Perm.recOnSwap' generalizing s s' s₁ with
  | nil =>
    cases hparse
    exact ⟨s', rfl, hs⟩
  | cons datum _ ih =>
    rw [List.foldlM_cons] at hparse ⊢
    cases hr : parseTestResultDatum parsers datum with
    | error => rw [hr] at hparse; cases hparse
    | ok r => rw [hr] at hparse; exact ih (hs.collapse r) hparse
  | swap' a b _ ih =>
    simp only [List.foldlM_cons] at hparse ⊢
    cases hb : parseTestResultDatum parsers b with
    | error => rw [hb] at hparse; cases hparse
    | ok r =>
      cases ha : parseTestResultDatum parsers a with
      | error => rw [hb, ha] at hparse; cases hparse
      | ok r' => rw [hb, ha] at hparse; exact ih (hs.collapse_collapse r r') hparse
  | trans _ _ ih₁ ih₂ =>
    obtain ⟨s₂, hs₂, h₁⟩ := ih₁ hs hparse
    obtain ⟨s₃, hs₃, h₂⟩ := ih₂ ⟨.refl _, rfl, rfl⟩ hs₂
    exact ⟨s₃, hs₃, h₁.cases.trans h₂.cases, h₁.duration.trans h₂.duration,
      h₁.timedOut.trans h₂.timedOut⟩

/-- **The order of the result files makes no difference** in what is reported of a test: if they
parse in one order, they do in every other, and the suites agree. -/
theorem parseTestResults_perm (h : data.Perm data') (hs : parseTestResults parsers data = .ok s) :
    ∃ s', parseTestResults parsers data' = .ok s' ∧ SameReport s s' ∧
      s'.testCases.allSucceeded = s.testCases.allSucceeded ∧ s'.errors = s.errors ∧
      s'.failures = s.failures ∧ s'.skips = s.skips := by
  obtain ⟨s', hs', hsame⟩ := exists_sameReport parsers h ⟨.refl _, rfl, rfl⟩ hs
  refine ⟨s', hs', hsame, ?_, hsame.cases.symm.countP_eq _, hsame.cases.symm.countP_eq _,
    hsame.cases.symm.countP_eq _⟩
  rw [Bool.eq_iff_iff, allSucceeded_iff, allSucceeded_iff]
  exact forall_congr' fun testCase => imp_congr_left hsame.cases.symm.mem_iff

end parsing

/-- The suite that the result file `<testsuite><testcase name="lib_test"/></testsuite>`
parses to. -/
def libTestSuite : TestSuite where
  testCases := [{ name := "lib_test", executions :=
      [{ stdout := "", stderr := "", duration := some 0 }] }]

/-- Parsers that read that file. -/
def libTestParsers : ResultParsers where
  parseJUnitXMLTestResults _ := .ok [libTestSuite]
  parseGoTestResults _ := .ok {}

/-- A result file in each of the two formats. -/
theorem parseTestResults_perm_two :
    ∃ s, parseTestResults libTestParsers [[1], [60, 116, 101, 115, 116]] = .ok s ∧
      s.testCases.allSucceeded = true := by
  obtain ⟨s, hs, -, hsucceeded, -⟩ :=
    parseTestResults_perm libTestParsers (.swap [1] [60, 116, 101, 115, 116] []) rfl
  exact ⟨s, hs, hsucceeded.trans (by decide)⟩

/-- The test writes that file and then exits with a non-zero status. -/
def crashAfterResults : Attempt where
  stdout := ""
  stderr := ""
  runError := some "exit status 1"
  duration := 0
  resultsData := ["<testsuite><testcase name=\"lib_test\"/></testsuite>".toUTF8.data.toList]
  timedOut := false
  cached := false

/-- A test `lib_test` whose only case has its name fails after it wrote its results,
and is reported successful. -/
theorem crashAfterResults_reported_successful :
    crashAfterResults.runError ≠ none ∧
      (parseTestOutput libTestParsers ⟨"lib_test", false⟩
        crashAfterResults).testCases.allSucceeded = true := by
  decide

/-! ## Flaky tests -/

section flaky

/-- The loop of `doFlakeRun` (lines 253–272) with `left` attempts to go, the next
one being number `flakes`: the suite, and how many attempts were executed. -/
def flakeLoop (doTest : ℕ → TestSuite) : (left flakes : ℕ) → TestSuite → TestSuite × ℕ
  | 0, _, results => (results, 0)
  | left + 1, flakes, results =>
    let testSuite := doTest flakes
    let results := { results with
      timedOut := results.timedOut || testSuite.timedOut
      properties := testSuite.properties
      duration := results.duration + testSuite.duration }
    let results := results.add testSuite.testCases
    if testSuite.testCases.allSucceeded then ({ results with cached := testSuite.cached }, 1)
    else
      let (results, executed) := flakeLoop doTest left (flakes + 1) results
      (results, executed + 1)

variable (doTest : ℕ → TestSuite)

/-- `doFlakeRun`, where `doTest i` is the suite of attempt number `i`. -/
def doFlakeRun (flakiness : UInt8) : TestSuite × ℕ :=
  flakeLoop doTest flakiness.toNat 1 {}

/-- Attempt number `i` succeeded. -/
def Succeeds (i : ℕ) : Prop := (doTest i).testCases.allSucceeded = true

/-- The suite of one pass through the loop. -/
def mergeAttempt (results testSuite : TestSuite) : TestSuite :=
  { results with
    timedOut := results.timedOut || testSuite.timedOut
    properties := testSuite.properties
    duration := results.duration + testSuite.duration }.add testSuite.testCases

section

variable (left flakes : ℕ) (results : TestSuite)

theorem flakeLoop_succ :
    flakeLoop doTest (left + 1) flakes results =
      if (doTest flakes).testCases.allSucceeded then
        ({ mergeAttempt results (doTest flakes) with cached := (doTest flakes).cached }, 1)
      else
        ((flakeLoop doTest left (flakes + 1) (mergeAttempt results (doTest flakes))).1,
          (flakeLoop doTest left (flakes + 1) (mergeAttempt results (doTest flakes))).2 + 1) := rfl

/-- The attempts executed are the first ones up to a success. -/
theorem flakeLoop_executed :
    let executed := (flakeLoop doTest left flakes results).2
    executed ≤ left ∧ (∀ i, flakes ≤ i → i + 1 < flakes + executed → ¬ Succeeds doTest i) ∧
      (executed = left ∨ ∃ i, i + 1 = flakes + executed ∧ flakes ≤ i ∧ Succeeds doTest i) := by
  induction left generalizing flakes results with
  | zero => exact ⟨le_rfl, fun i hge (hlt : i + 1 < flakes) => by omega, .inl rfl⟩
  | succ _ ih =>
    rw [flakeLoop_succ]
    by_cases h : (doTest flakes).testCases.allSucceeded = true
    · rw [if_pos h]
      refine ⟨by omega, fun i _ _ => by omega, .inr ⟨flakes, rfl, le_rfl, h⟩⟩
    · rw [if_neg h]
      obtain ⟨hle, hfail, hstop⟩ := ih (flakes + 1) (mergeAttempt results (doTest flakes))
      refine ⟨by omega, fun i hi hlt => ?_, ?_⟩
      · rcases Nat.eq_or_lt_of_le hi with rfl | hi
        · exact h
        · exact hfail i hi (by omega)
      · rcases hstop with hstop | ⟨i, hi, hge, hsucc⟩
        · exact .inl (by omega)
        · exact .inr ⟨i, by omega, by omega, hsucc⟩

theorem nodup_flakeLoop (h : NodupKeys results.testCases) :
    NodupKeys (flakeLoop doTest left flakes results).1.testCases := by
  induction left generalizing flakes results with
  | zero => exact h
  | succ _ ih =>
    have hmerge : NodupKeys (mergeAttempt results (doTest flakes)).testCases := nodup_add _ _ h
    rw [flakeLoop_succ]
    split
    · exact hmerge
    · exact ih _ _ hmerge

end

/-- A property that a merged suite has exactly if one of its parts has it holds of
the final suite exactly if it holds of an executed attempt. -/
theorem flakeLoop_iff (P : TestCases → Prop)
    (hadd : ∀ (testSuite : TestSuite) (cases : TestCases),
      P (testSuite.add cases).testCases ↔ P testSuite.testCases ∨ P cases)
    (left flakes : ℕ) (results : TestSuite) :
    P (flakeLoop doTest left flakes results).1.testCases ↔
      P results.testCases ∨
        ∃ i, flakes ≤ i ∧ i < flakes + (flakeLoop doTest left flakes results).2 ∧
          P (doTest i).testCases := by
  induction left generalizing flakes results with
  | zero =>
    refine ⟨.inl, fun h => h.resolve_right ?_⟩
    rintro ⟨i, hge, hlt, -⟩
    exact absurd (show i < flakes from hlt) (by omega)
  | succ _ ih =>
    have hmerge : P (mergeAttempt results (doTest flakes)).testCases ↔
        P results.testCases ∨ P (doTest flakes).testCases := hadd _ _
    rw [flakeLoop_succ]
    split
    · show P (mergeAttempt results (doTest flakes)).testCases ↔ _
      rw [hmerge]
      refine or_congr_right ⟨fun h => ⟨flakes, le_rfl, by omega, h⟩, ?_⟩
      rintro ⟨i, hge, hlt, h⟩
      obtain rfl : i = flakes := by omega
      exact h
    · rw [ih, hmerge, or_assoc]
      refine or_congr_right ⟨?_, ?_⟩
      · rintro (h | ⟨i, hge, hlt, h⟩)
        · exact ⟨flakes, le_rfl, by omega, h⟩
        · exact ⟨i, by omega, by omega, h⟩
      · rintro ⟨i, hge, hlt, h⟩
        rcases Nat.eq_or_lt_of_le hge with rfl | hgt
        · exact .inl h
        · exact .inr ⟨i, hgt, by omega, h⟩

variable (flakiness : UInt8)

/-- The suite of `doFlakeRun` succeeds exactly if every name of a case of an executed
attempt was successful in one of them. -/
theorem allSucceeded_doFlakeRun :
    (doFlakeRun doTest flakiness).1.testCases.allSucceeded = true ↔
      ∀ i, 1 ≤ i → i ≤ (doFlakeRun doTest flakiness).2 → ∀ testCase ∈ (doTest i).testCases,
        ∃ j, 1 ≤ j ∧ j ≤ (doFlakeRun doTest flakiness).2 ∧
          OkNamed (doTest j).testCases testCase.key := by
  have hnodup : NodupKeys (doFlakeRun doTest flakiness).1.testCases :=
    nodup_flakeLoop doTest _ _ _ List.nodup_nil
  rw [allSucceeded_iff_okNamed hnodup]
  have hnamed := fun k => flakeLoop_iff doTest (Named · k)
    (fun testSuite cases => named_add testSuite cases k) flakiness.toNat 1 {}
  have hok := fun k => flakeLoop_iff doTest (OkNamed · k)
    (fun testSuite cases => okNamed_add testSuite cases k) flakiness.toNat 1 {}
  have hnone : ∀ k, ¬ Named [] k ∧ ¬ OkNamed [] k := by simp [Named, OkNamed]
  simp only [doFlakeRun, hnamed, hok, (hnone _).1, (hnone _).2, false_or]
  constructor
  · intro h i hi hle testCase hmem
    obtain ⟨j, hj, hlt, hj'⟩ := h testCase.key ⟨i, hi, by omega, testCase, hmem, rfl⟩
    exact ⟨j, hj, by omega, hj'⟩
  · rintro h k ⟨i, hi, hlt, testCase, hmem, rfl⟩
    obtain ⟨j, hj, hle, hj'⟩ := h i hi (by omega) testCase hmem
    exact ⟨j, hj, by omega, hj'⟩

/-- What is executed: attempts that fail, then a success or the end of the allowance. -/
theorem doFlakeRun_executed :
    (doFlakeRun doTest flakiness).2 ≤ flakiness.toNat ∧
      (∀ i, 1 ≤ i → i < (doFlakeRun doTest flakiness).2 → ¬ Succeeds doTest i) ∧
      ((doFlakeRun doTest flakiness).2 = flakiness.toNat ∨
        (1 ≤ (doFlakeRun doTest flakiness).2 ∧
          Succeeds doTest (doFlakeRun doTest flakiness).2)) := by
  obtain ⟨hle, hfail, hstop⟩ := flakeLoop_executed doTest flakiness.toNat 1 {}
  refine ⟨hle, fun i hi hlt => hfail i hi (by unfold doFlakeRun at hlt; omega), ?_⟩
  refine hstop.imp id ?_
  rintro ⟨i, hi, hge, hsucc⟩
  obtain rfl : i = (doFlakeRun doTest flakiness).2 := by unfold doFlakeRun; omega
  exact ⟨hge, hsucc⟩

/-- Attempt number `m` is within the allowance and the first that succeeds. -/
def FirstSuccess (flakiness : UInt8) (m : ℕ) : Prop :=
  1 ≤ m ∧ m ≤ flakiness.toNat ∧ Succeeds doTest m ∧ ∀ i, 1 ≤ i → i < m → ¬ Succeeds doTest i

theorem executed_eq_iff_firstSuccess (m : ℕ) :
    FirstSuccess doTest flakiness m ↔
      1 ≤ m ∧ m = (doFlakeRun doTest flakiness).2 ∧ Succeeds doTest m := by
  obtain ⟨hle, hfail, hstop⟩ := doFlakeRun_executed doTest flakiness
  constructor
  · rintro ⟨hm, hmle, hsucc, hfirst⟩
    refine ⟨hm, ?_, hsucc⟩
    rcases Nat.lt_trichotomy m (doFlakeRun doTest flakiness).2 with hlt | heq | hgt
    · exact absurd hsucc (hfail m hm hlt)
    · exact heq
    · rcases hstop with hstop | ⟨hpos, hlast⟩
      · omega
      · exact absurd hlast (hfirst _ hpos hgt)
  · rintro ⟨hm, rfl, hsucc⟩
    exact ⟨hm, hle, hsucc, hfail⟩

/-- The suite of a flaky test with a successful attempt succeeds exactly if every case
of the failing attempts before it was successful in one of the attempts, under the
same name and class name. -/
theorem doFlakeRun_success_iff (flakiness : UInt8) :
    ((∃ i, 1 ≤ i ∧ i ≤ (doFlakeRun doTest flakiness).2 ∧ Succeeds doTest i) →
        (doFlakeRun doTest flakiness).1.testCases.allSucceeded = true) ↔
      ∀ m, FirstSuccess doTest flakiness m →
        ∀ i, 1 ≤ i → i < m → ∀ testCase ∈ (doTest i).testCases,
          ∃ j, 1 ≤ j ∧ j ≤ m ∧ OkNamed (doTest j).testCases testCase.key := by
  obtain ⟨-, hfail, -⟩ := doFlakeRun_executed doTest flakiness
  rw [allSucceeded_doFlakeRun]
  constructor
  · intro h m hm i hi hlt
    obtain ⟨hpos, rfl, hsucc⟩ := (executed_eq_iff_firstSuccess doTest flakiness m).mp hm
    exact h ⟨_, hpos, le_rfl, hsucc⟩ i hi (by omega)
  · rintro h ⟨m, hm, hle, hsucc⟩ i hi hi'
    obtain rfl : m = (doFlakeRun doTest flakiness).2 := by
      by_contra hne
      exact hfail m hm (by omega) hsucc
    have hfirst := (executed_eq_iff_firstSuccess doTest flakiness _).mpr ⟨hm, rfl, hsucc⟩
    rcases Nat.eq_or_lt_of_le hi' with rfl | hlt
    · intro testCase hmem
      exact ⟨_, hm, le_rfl, testCase, hmem, rfl, (allSucceeded_iff _).mp hsucc testCase hmem⟩
    · exact h _ hfirst i hi hlt

end flaky

/-- The first attempt crashes without results, the second writes a result file and
exits with status zero. -/
def crashThenPass : ℕ → Attempt
  | 1 => { crashAfterResults with resultsData := [] }
  | _ => { crashAfterResults with runError := none }

/-- The second attempt of `flaky_test` passes, and the test is reported as failed: the
synthetic case of the crash has no success. -/
theorem crashThenPass_reported_failed :
    let doTest := fun i => doTest libTestParsers ⟨"flaky_test", false⟩ (crashThenPass i) "lib"
    (doFlakeRun doTest 3).2 = 2 ∧ Succeeds doTest 2 ∧
      (doFlakeRun doTest 3).1.testCases.allSucceeded = false := by
  refine ⟨by decide, ?_, by decide⟩
  show TestCases.allSucceeded _ = true
  decide

/-! ## The flakiness of a target -/

/-- The argument `flaky` of a test rule. -/
inductive FlakyArg where
  | unset
  | bool (b : Bool)
  | int (i : Int64)
  deriving DecidableEq

def defaultFlakiness : UInt8 := 3

/-- `target.Test.Flakiness` and the labels added (`createTarget`, lines 158–174). -/
def FlakyArg.flakiness : FlakyArg → UInt8 × List String
  | .bool true => (defaultFlakiness, ["flaky"])
  | .bool false => (1, [])
  | .int i => if i ≤ 1 then (1, []) else (i.toUInt64.toUInt8, ["flaky"])
  | .unset => (1, [])

/-- The number of runs that the argument asks for; the documentation gives three for
`True`. -/
def FlakyArg.requested : FlakyArg → ℤ
  | .unset => 1
  | .bool true => 3
  | .bool false => 1
  | .int i => i.toInt

/-- An integer above one is narrowed to a byte. -/
theorem flakiness_int {i : Int64} (h : 1 < i.toInt) :
    (((FlakyArg.int i).flakiness.1.toNat : ℕ) : ℤ) = i.toInt % 256 := by
  have hgt : ¬ i ≤ 1 := fun hle =>
    absurd (show i.toInt ≤ 1 from Int64.le_iff_toInt_le.mp hle) (by omega)
  have hnonneg : (0 : Int64) ≤ i := Int64.le_iff_toInt_le.mpr (show 0 ≤ i.toInt by omega)
  rw [FlakyArg.flakiness, if_neg hgt, UInt64.toNat_toUInt8, Int64.toNat_toUInt64_of_le hnonneg,
    Int64.toNatClampNeg]
  omega

theorem flakiness_of_requested_le_one {flaky : FlakyArg} (h : flaky.requested ≤ 1) :
    flaky.flakiness.1 = 1 := by
  cases flaky with
  | unset => rfl
  | bool b =>
    cases b with
    | false => rfl
    | true => exact absurd h (by decide)
  | int i =>
    have hle : i ≤ 1 := Int64.le_iff_toInt_le.mpr h
    rw [FlakyArg.flakiness, if_pos hle]

/-- A run executes an attempt exactly if any is allowed. -/
theorem one_le_executed_iff (doTest : ℕ → TestSuite) (flakiness : UInt8) :
    1 ≤ (doFlakeRun doTest flakiness).2 ↔ flakiness.toNat ≠ 0 := by
  obtain ⟨hle, -, hstop⟩ := doFlakeRun_executed doTest flakiness
  constructor
  · intro h
    omega
  · intro h
    rcases hstop with hstop | hstop
    · omega
    · exact hstop.1

/-- An accepted test is run at least once and at most as often as asked, and not
reported successful without a run, unless the number of runs asked for is a
multiple of 256. -/
theorem flaky_executed_iff (flaky : FlakyArg) (doTest : ℕ → TestSuite) :
    (1 ≤ (doFlakeRun doTest flaky.flakiness.1).2 ∧
        ((doFlakeRun doTest flaky.flakiness.1).2 : ℤ) ≤ max 1 flaky.requested ∧
        ((doFlakeRun doTest flaky.flakiness.1).1.testCases.allSucceeded = true →
          1 ≤ (doFlakeRun doTest flaky.flakiness.1).2)) ↔
      ¬ ∃ i, flaky = .int i ∧ 1 < i.toInt ∧ i.toInt % 256 = 0 := by
  obtain ⟨hle, -, -⟩ := doFlakeRun_executed doTest flaky.flakiness.1
  have hone := one_le_executed_iff doTest flaky.flakiness.1
  constructor
  · rintro ⟨hpos, -, -⟩ ⟨i, rfl, hgt, hmod⟩
    have hzero := flakiness_int hgt
    exact hone.mp hpos (by omega)
  · intro hnot
    suffices h : flaky.flakiness.1.toNat ≠ 0 ∧
        (flaky.flakiness.1.toNat : ℤ) ≤ max 1 flaky.requested by
      exact ⟨hone.mpr h.1, by omega, fun _ => hone.mpr h.1⟩
    by_cases hreq : flaky.requested ≤ 1
    · rw [flakiness_of_requested_le_one hreq]
      exact ⟨by decide, le_max_left 1 _⟩
    · cases flaky with
      | unset => exact absurd le_rfl hreq
      | bool b =>
        cases b with
        | false => exact absurd le_rfl hreq
        | true => exact ⟨by decide, by decide⟩
      | int i =>
        have hgt : 1 < i.toInt := not_le.mp hreq
        have hval := flakiness_int hgt
        have hmod : i.toInt % 256 ≠ 0 := fun h => hnot ⟨i, rfl, hgt, h⟩
        exact ⟨by omega, by rw [hval]; exact le_max_of_le_right (by show _ ≤ i.toInt; omega)⟩

/-- With `flaky = 256` a test that always fails is reported successful, and it is not
run at all. -/
theorem flaky_256_never_runs :
    let doTest := fun _ => failSuite
      ⟨"lib_test", false⟩ crashAfterResults "Test failed" "TestFailed" ""
    (doFlakeRun doTest (FlakyArg.int 256).flakiness.1).2 = 0 ∧
      (doFlakeRun doTest (FlakyArg.int 256).flakiness.1).1.testCases.allSucceeded = true := by
  decide

end Please.Test
