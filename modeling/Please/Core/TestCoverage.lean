import Please.Core.Target
import Mathlib.Order.WithBot
import Mathlib.Data.List.Pairwise
import Mathlib.Data.List.Perm.Basic

/-!
# Coverage of lines by tests

Model of `LineCoverage`, `TestCoverage`, `Aggregate` and `MergeCoverageLines`
(`src/core/test_results.go`, lines 245–299). A map is a function to `Option`: `Aggregate` goes
through the entries of two maps in any order and changes each key once.

* `aggregate_order_independent`: every order and every grouping gives the same coverage.
-/

namespace Please.Core

open List

/-! ## Lines -/

/-- `LineCoverage`, in the order of its constants. -/
inductive LineCoverage
  | notExecutable | unreachable | uncovered | covered
  deriving DecidableEq

namespace LineCoverage

/-- The value of the constant. -/
def toNat : LineCoverage → ℕ
  | notExecutable => 0
  | unreachable => 1
  | uncovered => 2
  | covered => 3

theorem toNat_injective : Function.Injective toNat := by
  intro a b h
  cases a <;> cases b <;> first | rfl | cases h

instance : LinearOrder LineCoverage := LinearOrder.lift' toNat toNat_injective

end LineCoverage

/-- The body of the loop of `MergeCoverageLines` at the index `i`. -/
def mergeLine (ret : List LineCoverage) (entry : LineCoverage × ℕ) : List LineCoverage :=
  match ret[entry.2]? with
  | none => ret ++ [entry.1]
  | some old => if entry.1 > old then ret.set entry.2 entry.1 else ret

/-- `MergeCoverageLines` (lines 288–299). -/
def mergeCoverageLines (existing coverage : List LineCoverage) : List LineCoverage :=
  coverage.zipIdx.foldl mergeLine existing

theorem mergeLine_cons (x : LineCoverage) (ret : List LineCoverage) (y : LineCoverage) (i : ℕ) :
    mergeLine (x :: ret) (y, i + 1) = x :: mergeLine ret (y, i) := by
  simp only [mergeLine, getElem?_cons_succ]
  cases ret[i]? with
  | none => rfl
  | some old =>
    by_cases h : y > old
    · simp [h]
    · simp [h]

theorem foldl_mergeLine_cons (x : LineCoverage) (coverage ret : List LineCoverage) (i : ℕ) :
    (coverage.zipIdx (i + 1)).foldl mergeLine (x :: ret) =
      x :: (coverage.zipIdx i).foldl mergeLine ret := by
  induction coverage generalizing ret i with
  | nil => rfl
  | cons y _ ih => rw [zipIdx_cons, zipIdx_cons, foldl_cons, foldl_cons, mergeLine_cons, ih]

@[simp]
theorem mergeCoverageLines_nil (existing : List LineCoverage) :
    mergeCoverageLines existing [] = existing := rfl

@[simp]
theorem mergeCoverageLines_cons (x y : LineCoverage) (existing coverage : List LineCoverage) :
    mergeCoverageLines (x :: existing) (y :: coverage) =
      max x y :: mergeCoverageLines existing coverage := by
  have hhead : mergeLine (x :: existing) (y, 0) = max x y :: existing := by
    by_cases h : y > x
    · simp [mergeLine, h, max_eq_right h.le]
    · simp [mergeLine, h, max_eq_left (not_lt.mp h)]
  rw [mergeCoverageLines, zipIdx_cons, foldl_cons, hhead, foldl_mergeLine_cons]
  rfl

@[simp]
theorem nil_mergeCoverageLines (coverage : List LineCoverage) :
    mergeCoverageLines [] coverage = coverage := by
  induction coverage with
  | nil => rfl
  | cons y rest ih =>
    show (rest.zipIdx (0 + 1)).foldl mergeLine [y] = y :: rest
    rw [foldl_mergeLine_cons]
    exact congrArg _ ih

theorem mergeCoverageLines_comm (a b : List LineCoverage) :
    mergeCoverageLines a b = mergeCoverageLines b a := by
  induction a generalizing b with
  | nil => simp
  | cons x a ih =>
    cases b with
    | nil => simp
    | cons y b => simp [ih b, max_comm x y]

theorem mergeCoverageLines_assoc (a b c : List LineCoverage) :
    mergeCoverageLines (mergeCoverageLines a b) c =
      mergeCoverageLines a (mergeCoverageLines b c) := by
  induction a generalizing b c with
  | nil => simp
  | cons x a ih =>
    cases b with
    | nil => simp
    | cons y b =>
      cases c with
      | nil => simp
      | cons z c => simp [ih b c, max_assoc]

theorem mergeCoverageLines_self (a : List LineCoverage) : mergeCoverageLines a a = a := by
  induction a with
  | nil => rfl
  | cons x a ih => simp [ih]

/-- The line with the index `i`; `⊥` if there is none. -/
def lineAt (lines : List LineCoverage) (i : ℕ) : WithBot LineCoverage :=
  lines[i]?.elim ⊥ (↑)

@[simp]
theorem lineAt_nil (i : ℕ) : lineAt [] i = ⊥ := rfl

theorem lineAt_mergeCoverageLines (a b : List LineCoverage) (i : ℕ) :
    lineAt (mergeCoverageLines a b) i = lineAt a i ⊔ lineAt b i := by
  induction a generalizing b i with
  | nil => simp
  | cons x a ih =>
    cases b with
    | nil => simp
    | cons y b =>
      rw [mergeCoverageLines_cons]
      cases i with
      | zero => rfl
      | succ i => exact ih b i

/-! ## Coverage objects -/

/-- `TestCoverage` (lines 260–263). -/
@[ext]
structure TestCoverage where
  tests : BuildLabel → Option (String → Option (List LineCoverage)) := fun _ => none
  files : String → Option (List LineCoverage) := fun _ => none

namespace TestCoverage

/-- `TestCoverage.Aggregate` (lines 267–284). -/
def aggregate (coverage cov : TestCoverage) : TestCoverage where
  tests label := cov.tests label <|> coverage.tests label
  files filename :=
    match cov.files filename with
    | none => coverage.files filename
    | some c => some (mergeCoverageLines ((coverage.files filename).getD []) c)

/-- The line with the index `i` of a file; `⊥` if there is none. -/
def line (coverage : TestCoverage) (filename : String) (i : ℕ) : WithBot LineCoverage :=
  lineAt ((coverage.files filename).getD []) i

/-- The tests of the two coverage objects are different. -/
def DisjointTests (a b : TestCoverage) : Prop :=
  ∀ label, a.tests label = none ∨ b.tests label = none

instance : Std.Symm DisjointTests := ⟨fun _ _ h label => (h label).symm⟩

@[simp]
theorem empty_aggregate (a : TestCoverage) : aggregate {} a = a := by
  ext1
  · funext label
    simp [aggregate]
  · funext filename
    cases h : a.files filename <;> simp [aggregate, h]

theorem aggregate_assoc (a b c : TestCoverage) :
    (a.aggregate b).aggregate c = a.aggregate (b.aggregate c) := by
  ext1
  · funext label
    cases h : c.tests label <;> simp [aggregate, h]
  · funext filename
    cases hb : b.files filename <;> cases hc : c.files filename <;>
      simp [aggregate, hb, hc, mergeCoverageLines_assoc]

theorem aggregate_comm {a b : TestCoverage} (h : DisjointTests a b) :
    a.aggregate b = b.aggregate a := by
  ext1
  · funext label
    rcases h label with ha | hb
    · simp [aggregate, ha]
    · simp [aggregate, hb]
  · funext filename
    cases ha : a.files filename <;> cases hb : b.files filename <;>
      simp [aggregate, ha, hb, mergeCoverageLines_comm]

theorem line_aggregate (a b : TestCoverage) (filename : String) (i : ℕ) :
    (a.aggregate b).line filename i = a.line filename i ⊔ b.line filename i := by
  cases hb : b.files filename with
  | none => simp [line, aggregate, hb]
  | some => simp [line, aggregate, hb, lineAt_mergeCoverageLines]

/-! ## Orders and groupings -/

/-- An order and a grouping in which coverage objects are aggregated. -/
inductive Plan
  | empty
  | member (coverage : TestCoverage)
  | aggregate (coverage cov : Plan)

namespace Plan

/-- The objects that are aggregated, in order. -/
def members : Plan → List TestCoverage
  | empty => []
  | member coverage => [coverage]
  | aggregate coverage cov => coverage.members ++ cov.members

def run : Plan → TestCoverage
  | empty => {}
  | member coverage => coverage
  | aggregate coverage cov => coverage.run.aggregate cov.run

variable (plan : Plan)

/-- A coverage object into which the members of a plan are aggregated one by one. -/
theorem foldl_members (coverage : TestCoverage) :
    plan.members.foldl TestCoverage.aggregate coverage = coverage.aggregate plan.run := by
  induction plan generalizing coverage with
  | empty =>
    ext1
    · funext label
      simp [TestCoverage.aggregate, members, run]
    · rfl
  | member => rfl
  | aggregate p q hp hq => rw [members, foldl_append, hp, hq, run, aggregate_assoc]

/-- The grouping does not matter. -/
theorem run_eq : plan.run = plan.members.foldl TestCoverage.aggregate {} := by
  rw [foldl_members, empty_aggregate]

theorem line_run (filename : String) (i : ℕ) :
    plan.run.line filename i =
      (plan.members.map fun cov => cov.line filename i).foldr (· ⊔ ·) ⊥ := by
  induction plan with
  | empty => rfl
  | member => exact (sup_bot_eq _).symm
  | aggregate p q hp hq =>
    rw [run, line_aggregate, hp, hq, members, map_append, foldr_append]
    induction p.members.map _ with
    | nil => exact bot_sup_eq _
    | cons x _ ih => rw [foldr_cons, foldr_cons, sup_assoc, ih]

end Plan

/-- The order does not matter for objects of different tests. -/
theorem foldl_aggregate_perm {family family' : List TestCoverage}
    (hdisjoint : family.Pairwise DisjointTests) (hperm : family.Perm family')
    (coverage : TestCoverage) :
    family.foldl aggregate coverage = family'.foldl aggregate coverage := by
  refine hperm.foldl_eq' (fun a ha b hb z => ?_) coverage
  by_cases hab : a = b
  · rw [hab]
  · have h : DisjointTests a b := hdisjoint.forall ha hb hab
    rw [aggregate_assoc, aggregate_comm h, ← aggregate_assoc]

/-- `MergeCoverageLines` is a join with the empty list as unit. Aggregating a family of
coverage objects of different tests into an empty one gives the same coverage in every order
and grouping: each line is the maximum over the members that have it. -/
theorem aggregate_order_independent (family : List TestCoverage)
    (hdisjoint : family.Pairwise DisjointTests) :
    ((∀ a b c, mergeCoverageLines (mergeCoverageLines a b) c =
        mergeCoverageLines a (mergeCoverageLines b c)) ∧
      (∀ a b, mergeCoverageLines a b = mergeCoverageLines b a) ∧
      (∀ a, mergeCoverageLines a a = a) ∧
      ∀ a, mergeCoverageLines a [] = a ∧ mergeCoverageLines [] a = a) ∧
    ∀ plan : Plan, plan.members.Perm family →
      plan.run = family.foldl aggregate {} ∧
      ∀ filename i, plan.run.line filename i =
        (family.map fun cov => cov.line filename i).foldr (· ⊔ ·) ⊥ := by
  refine ⟨⟨mergeCoverageLines_assoc, mergeCoverageLines_comm, mergeCoverageLines_self,
    fun a => ⟨mergeCoverageLines_nil a, nil_mergeCoverageLines a⟩⟩, fun plan hperm => ⟨?_, ?_⟩⟩
  · rw [plan.run_eq]
    exact (foldl_aggregate_perm hdisjoint hperm.symm {}).symm
  · intro filename i
    rw [plan.line_run]
    exact (hperm.map _).foldr_eq _

/-- One file that one test covers. -/
def ofTest (label : BuildLabel) (filename : String) (lines : List LineCoverage) : TestCoverage :=
  let files := fun f => if f = filename then some lines else none
  { tests := fun l => if l = label then some files else none, files := files }

theorem aggregate_order_independent_pair :
    let a := ofTest ⟨"lib", "a_test", ""⟩ "lib/lib.go" [.uncovered, .notExecutable]
    let b := ofTest ⟨"lib", "b_test", ""⟩ "lib/lib.go" [.covered]
    [a, b].Pairwise DisjointTests ∧
      (Plan.aggregate (.member b) (.aggregate .empty (.member a))).run =
        [a, b].foldl aggregate {} := by
  intro a b
  have hdisjoint : [a, b].Pairwise DisjointTests := by
    refine pairwise_pair.mpr fun label => ?_
    by_cases h : label = ⟨"lib", "a_test", ""⟩
    · exact .inr (by simp [b, ofTest, h])
    · exact .inl (by simp [a, ofTest, h])
  exact ⟨hdisjoint, ((aggregate_order_independent [a, b] hdisjoint).2
    (.aggregate (.member b) (.aggregate .empty (.member a))) (.swap a b [])).1⟩

end TestCoverage

end Please.Core
