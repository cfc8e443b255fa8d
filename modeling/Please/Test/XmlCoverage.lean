import Please.Core.TestCoverage

/-!
# Coverage in XML

Model of `parseXMLLines` and `getLineCoverageInfo` (`src/test/xml_coverage.go`, lines 31–44 and
110–131). The reader takes the first line of a file to be number 1, the writer writes the index
of the line.

* `xmlLines_roundTrip_iff`: which lists are read back as they were written.
-/

namespace Please.Test

open Please.Core List LineCoverage

/-- `xmlCoverageLine`, and `line`, which has the same attributes. -/
structure XmlLine where
  number : ℤ
  hits : ℤ
  deriving DecidableEq

/-- The body of the loop of `parseXMLLines`. -/
def parseXMLLine (ret : List LineCoverage) (line : XmlLine) : List LineCoverage :=
  ret ++ List.replicate (line.number - (ret.length + 1)).toNat .notExecutable ++
    [if line.hits > 0 then .covered else .uncovered]

/-- `parseXMLLines`. -/
def parseXMLLines (lines : List XmlLine) : List LineCoverage := lines.foldl parseXMLLine []

/-- The body of the loop of `getLineCoverageInfo`: the lines, how many are covered, and how many
there are. -/
def lineCoverageInfo (info : List XmlLine × ℕ × ℕ) (entry : LineCoverage × ℕ) :
    List XmlLine × ℕ × ℕ :=
  match entry.1 with
  | .covered => (info.1 ++ [⟨entry.2, 1⟩], info.2.1 + 1, info.2.2 + 1)
  | .uncovered => (info.1 ++ [⟨entry.2, 0⟩], info.2.1, info.2.2 + 1)
  | _ => info

/-- `getLineCoverageInfo`. -/
def getLineCoverageInfo (lineCover : List LineCoverage) : List XmlLine × ℕ × ℕ :=
  lineCover.zipIdx.foldl lineCoverageInfo ([], 0, 0)

/-! ## What is written -/

/-- The element for a line, if there is one. -/
def writtenLine : LineCoverage × ℕ → Option XmlLine
  | (.covered, index) => some ⟨index, 1⟩
  | (.uncovered, index) => some ⟨index, 0⟩
  | _ => none

theorem foldl_lineCoverageInfo (entries : List (LineCoverage × ℕ)) (info : List XmlLine × ℕ × ℕ) :
    (entries.foldl lineCoverageInfo info).1 = info.1 ++ entries.filterMap writtenLine := by
  induction entries generalizing info with
  | nil => simp
  | cons entry _ ih =>
    obtain ⟨status, index⟩ := entry
    rw [foldl_cons, ih]
    cases status <;> simp [lineCoverageInfo, writtenLine, filterMap_cons]

theorem getLineCoverageInfo_lines (lineCover : List LineCoverage) :
    (getLineCoverageInfo lineCover).1 = lineCover.zipIdx.filterMap writtenLine := by
  rw [getLineCoverageInfo, foldl_lineCoverageInfo, nil_append]

/-! ## What is read back -/

/-- The two lists are the same up to lines at the end that are not executable. -/
def SameUpToTrailing (a b : List LineCoverage) : Prop :=
  ∃ m n, a ++ List.replicate m .notExecutable = b ++ List.replicate n .notExecutable

variable (l : List LineCoverage)

/-- After a line that is not executable the reader is one line behind; `g` lines are still to be
filled in. -/
theorem foldl_parse_behind (ret : List LineCoverage) (g i : ℕ) (hl : .unreachable ∉ l)
    (hlen : ret.length + g + 1 = i) :
    ∃ m, ((l.zipIdx i).filterMap writtenLine).foldl parseXMLLine ret ++
      List.replicate m .notExecutable = ret ++ List.replicate g .notExecutable ++ l := by
  induction l generalizing ret g i with
  | nil => exact ⟨g, by simp⟩
  | cons status l ih =>
    have hl' : unreachable ∉ l := fun h => hl (mem_cons_of_mem _ h)
    have hgap : ((i : ℤ) - (ret.length + 1)).toNat = g := by omega
    have hnext : (ret ++ replicate g notExecutable ++ [status]).length + 0 + 1 =
        i + 1 := by
      simp
      omega
    cases status with
    | unreachable => exact absurd mem_cons_self hl
    | notExecutable =>
      obtain ⟨m, hm⟩ := ih ret (g + 1) (i + 1) hl' (by omega)
      exact ⟨m, by simpa [filterMap_cons, writtenLine, replicate_succ'] using hm⟩
    | covered | uncovered =>
      obtain ⟨m, hm⟩ := ih _ 0 (i + 1) hl' hnext
      exact ⟨m, by simpa [writtenLine, parseXMLLine, hgap] using hm⟩

/-- Up to the first line that is not executable the reader keeps up. -/
theorem foldl_parse_inStep (ret : List LineCoverage) (hl : .unreachable ∉ l) :
    ∃ m, ((l.zipIdx ret.length).filterMap writtenLine).foldl parseXMLLine ret ++
      List.replicate m .notExecutable = ret ++ l.erase .notExecutable := by
  induction l generalizing ret with
  | nil => exact ⟨0, by simp⟩
  | cons status l ih =>
    have hl' : unreachable ∉ l := fun h => hl (mem_cons_of_mem _ h)
    have hgap : ((ret.length : ℤ) - (ret.length + 1)).toNat = 0 := by omega
    cases status with
    | unreachable => exact absurd mem_cons_self hl
    | notExecutable =>
      obtain ⟨m, hm⟩ := foldl_parse_behind l ret 0 (ret.length + 1) hl' rfl
      exact ⟨m, by simpa [filterMap_cons, writtenLine] using hm⟩
    | covered | uncovered =>
      obtain ⟨m, hm⟩ := ih (ret ++ [_]) hl'
      exact ⟨m, by simpa [writtenLine, parseXMLLine, hgap] using hm⟩

theorem parseXMLLines_written (hl : .unreachable ∉ l) :
    ∃ m, parseXMLLines (getLineCoverageInfo l).1 ++ List.replicate m .notExecutable =
      l.erase .notExecutable := by
  rw [getLineCoverageInfo_lines]
  exact foldl_parse_inStep l [] hl

theorem sameUpToTrailing_cons_iff (s : LineCoverage) (a b : List LineCoverage) :
    SameUpToTrailing (s :: a) (s :: b) ↔ SameUpToTrailing a b := by
  simp [SameUpToTrailing]

/-- A list is the same up to its end with one more line before it only if no line is
executable. -/
theorem sameUpToTrailing_notExecutable_cons_iff :
    SameUpToTrailing l (.notExecutable :: l) ↔ ∀ s ∈ l, s = .notExecutable := by
  constructor
  · rintro ⟨m, n, h⟩
    induction l with
    | nil => simp
    | cons _ l ih =>
      obtain ⟨rfl, h⟩ := cons.inj h
      exact forall_mem_cons.mpr ⟨rfl, ih h⟩
  · intro h
    rw [eq_replicate_of_mem h]
    exact ⟨1, 0, by simp [← replicate_succ', replicate_succ]⟩

theorem sameUpToTrailing_erase_iff :
    SameUpToTrailing (l.erase .notExecutable) l ↔
      l.Pairwise fun s t => s = .notExecutable → t = .notExecutable := by
  induction l with
  | nil => exact ⟨fun _ => .nil, fun _ => ⟨0, 0, rfl⟩⟩
  | cons status l ih =>
    by_cases h : status = .notExecutable
    · subst h
      rw [erase_cons_head, sameUpToTrailing_notExecutable_cons_iff, pairwise_cons]
      refine ⟨fun hall => ⟨fun t ht _ => hall t ht, ?_⟩, fun hall t ht => hall.1 t ht rfl⟩
      exact pairwise_of_forall_mem_list fun _ _ t ht _ => hall t ht
    · rw [erase_cons_tail (by simpa using h), sameUpToTrailing_cons_iff, ih, pairwise_cons]
      exact ⟨fun hl => ⟨fun _ _ hs => absurd hs h, hl⟩, fun hl => hl.2⟩

/-! ## Round trips -/

/-- Reading back what was written gives the same lines. -/
def RoundTrips (l : List LineCoverage) : Prop :=
  SameUpToTrailing (parseXMLLines (getLineCoverageInfo l).1) l

/-- The numbers that are written are those of the executable lines, counted from 1. -/
def NumberedFromOne (l : List LineCoverage) : Prop :=
  (getLineCoverageInfo l).1.map XmlLine.number =
    (l.zipIdx 1).filterMap fun entry =>
      if entry.1 = .covered ∨ entry.1 = .uncovered then some (entry.2 : ℤ) else none

theorem roundTrips_iff_erase {l : List LineCoverage} (hl : .unreachable ∉ l) :
    RoundTrips l ↔ SameUpToTrailing (l.erase .notExecutable) l := by
  obtain ⟨k, hk⟩ := parseXMLLines_written l hl
  rw [← hk]
  constructor
  · rintro ⟨m, n, h⟩
    refine ⟨m, n + k, ?_⟩
    rw [append_assoc, replicate_append_replicate, add_comm k,
      ← replicate_append_replicate, ← append_assoc, h, append_assoc,
      replicate_append_replicate]
  · rintro ⟨m, n, h⟩
    refine ⟨k + m, n, ?_⟩
    rw [← h, append_assoc, replicate_append_replicate]

theorem map_number_eq_iff (hl : .unreachable ∉ l) (i : ℕ) :
    (((l.zipIdx i).filterMap writtenLine).map XmlLine.number =
      (l.zipIdx (i + 1)).filterMap fun entry =>
        if entry.1 = .covered ∨ entry.1 = .uncovered then some (entry.2 : ℤ) else none) ↔
      ∀ s ∈ l, s = .notExecutable := by
  induction l generalizing i with
  | nil => simp
  | cons status l ih =>
    have hl' : unreachable ∉ l := fun h => hl (mem_cons_of_mem _ h)
    cases status with
    | unreachable => exact absurd mem_cons_self hl
    | notExecutable => simpa [filterMap_cons, writtenLine] using ih hl' (i + 1)
    | covered | uncovered =>
      refine ⟨fun h => ?_, fun h => absurd (h _ mem_cons_self) (by decide)⟩
      have hhead : (i : ℤ) = (i + 1 : ℕ) := Option.some.inj (congrArg head? h)
      omega

/-- The lines are read back as they were written exactly if no executable line comes after one
that is not; their numbers are those the reader expects only if there is no executable
line. -/
theorem xmlLines_roundTrip_iff (l : List LineCoverage) (hl : .unreachable ∉ l) :
    (RoundTrips l ↔ l.Pairwise fun s t => s = .notExecutable → t = .notExecutable) ∧
      (NumberedFromOne l ↔ ∀ s ∈ l, s = .notExecutable) := by
  constructor
  · rw [roundTrips_iff_erase hl, sameUpToTrailing_erase_iff]
  · rw [NumberedFromOne, getLineCoverageInfo_lines]
    exact map_number_eq_iff l hl 0

theorem xmlLines_roundTrip_iff_block :
    unreachable ∉ [.uncovered, .covered, .notExecutable] ∧
      RoundTrips [.uncovered, .covered, .notExecutable] :=
  ⟨by decide, (xmlLines_roundTrip_iff _ (by decide)).1.mpr (by decide)⟩

/-- A comment in the first line: the line after it is read back as the first. -/
theorem not_roundTrips_comment :
    parseXMLLines (getLineCoverageInfo [.notExecutable, .covered]).1 = [.covered] ∧
      ¬ RoundTrips [.notExecutable, .covered] ∧ ¬ NumberedFromOne [.notExecutable, .covered] := by
  refine ⟨by decide, ?_, by simp [NumberedFromOne, getLineCoverageInfo, lineCoverageInfo]⟩
  rw [roundTrips_iff_erase (by decide), sameUpToTrailing_erase_iff]
  decide

end Please.Test
