import Mathlib.Data.List.TakeWhile
import Mathlib.Data.Nat.Digits.Defs
import Please.Asp.StringLiterals
import Please.Core.TestCoverage

/-!
# Coverage from gcov

Model of `parseGcovCoverageResults` and `translateGcovCount` (`src/test/gcov_coverage.go`, lines
17–60). The parser appends a line to the current file for every line of a report that has a number;
a header is a line whose third field is `Source`.

* `parseGcovCoverageResults_aligned_iff`: when the lines of the files are aligned.
-/

namespace Please.Test

open Please.Core
open Please.Fs (Bytes)
open Please.Build (utf8)
open Please.Asp.Syntax (atoi byte isDigit split split_append split_ne_nil split_of_not_mem)
open List

/-! ## The parser -/

/-- The runes of `unicode.IsSpace`, encoded. -/
def spaceRunes : List Bytes :=
  [[9], [10], [11], [12], [13], [32], [0xc2, 0x85], [0xc2, 0xa0], [0xe1, 0x9a, 0x80]] ++
    (List.range 11).map (fun i => [0xe2, 0x80, 0x80 + i.toUInt8]) ++
    [[0xe2, 0x80, 0xa8], [0xe2, 0x80, 0xa9], [0xe2, 0x80, 0xaf], [0xe2, 0x81, 0x9f],
      [0xe3, 0x80, 0x80]]

/-- Take `runes` off the front of a text, `n` times at most. -/
def trimRunes (runes : List Bytes) : ℕ → Bytes → Bytes
  | 0, s => s
  | n + 1, s =>
    match runes.find? (·.isPrefixOf s) with
    | none => s
    | some rune => trimRunes runes n (s.drop rune.length)

/-- `bytes.TrimSpace`. -/
def trimSpace (s : Bytes) : Bytes :=
  let rest := trimRunes spaceRunes s.length s
  (trimRunes (spaceRunes.map List.reverse) rest.length rest.reverse).reverse

/-- `strconv.Atoi`, which fails on a number that does not fit. -/
def strconvAtoi (s : Bytes) : Option ℤ :=
  (atoi s).filter fun i => -9223372036854775808 ≤ i ∧ i ≤ 9223372036854775807

/-- `translateGcovCount`. -/
def translateGcovCount (gcov : Bytes) : LineCoverage :=
  if gcov.head? = some (byte '-') then .notExecutable
  else if (strconvAtoi gcov).any (· > 0) then .covered
  else .uncovered

/-- The variables of the loop. A file that is not in the map has no lines. -/
structure GcovState where
  currentFilename : Bytes
  files : Bytes → List LineCoverage

/-- Append lines to the current file. -/
def GcovState.append (st : GcovState) (lines : List LineCoverage) : GcovState where
  currentFilename := st.currentFilename
  files := Function.update st.files st.currentFilename (st.files st.currentFilename ++ lines)

/-- The body of the loop (lines 27–44). -/
def parseGcovLine (lineno : ℕ) (line : Bytes) (st : GcovState) : Except Bytes GcovState :=
  match split (byte ':') line with
  | count :: number :: tag :: rest =>
    if tag = utf8 "Source" then
      match rest with
      | [] => .error (utf8 "Bad source on line " ++ utf8 (toString lineno) ++ utf8 ": " ++ line)
      | filename :: _ => .ok { st with currentFilename := filename }
    else
      match strconvAtoi (trimSpace number) with
      | none =>
        .error (utf8 "Bad line number on line " ++ utf8 (toString lineno) ++ utf8 ": " ++ line)
      | some covLine =>
        if covLine > 0 then .ok (st.append [translateGcovCount (trimSpace count)]) else .ok st
  | _ => .ok st

/-- The loop over the lines, from `lineno` on: the files, and the error. -/
def parseGcovLines (lineno : ℕ) :
    List Bytes → GcovState → (Bytes → List LineCoverage) × Option Bytes
  | [], st => (st.files, none)
  | line :: lines, st =>
    match parseGcovLine lineno line st with
    | .error err => (st.files, some err)
    | .ok st => parseGcovLines (lineno + 1) lines st

/-- `parseGcovCoverageResults`. (There is always a line, so that there is no error for an empty
file.) -/
def parseGcovCoverageResults (files : Bytes → List LineCoverage) (data : Bytes) :
    (Bytes → List LineCoverage) × Option Bytes :=
  if data = utf8 "gcov" then (files, none)
  else parseGcovLines 0 (split (byte '\n') data) ⟨[], files⟩

/-! ## Reports -/

/-- The digits of a number, as gcov prints it. -/
def decimalDigits (n : ℕ) : List ℕ := if n = 0 then [0] else (Nat.digits 10 n).reverse

def decimal (n : ℕ) : Bytes := (decimalDigits n).map fun d => (48 + d).toUInt8

/-- What gcov says about a line: it is no code, it was not executed (in code that is reached by
exceptions only, if `exceptional`), or it was executed `n` times (`partly` is for a line with
blocks that were not). -/
inductive GcovCount
  | nonCode
  | unexecuted (exceptional : Bool)
  | hits (n : ℕ) (partly : Bool)
  deriving DecidableEq

namespace GcovCount

def text : GcovCount → Bytes
  | nonCode => [45]
  | unexecuted true => [61, 61, 61, 61, 61]
  | unexecuted false => [35, 35, 35, 35, 35]
  | hits n partly => decimal n ++ if partly then [42] else []

/-- How often the line was executed, if it was. -/
def times : GcovCount → ℕ
  | hits n _ => n
  | _ => 0

def inPart : GcovCount → Bool
  | hits _ partly => partly
  | _ => false

end GcovCount

/-- What the counts of a line in some reports amount to. -/
def lineStatus (counts : List GcovCount) : LineCoverage :=
  if counts.any (0 < ·.times) then .covered
  else if counts.any (· ≠ .nonCode) then .uncovered
  else .notExecutable

/-- A line of a report, without its end. -/
def gcovLine (count : Bytes) (n : ℕ) (text : Bytes) : Bytes :=
  count.leftpad 9 32 ++ byte ':' :: ((decimal n).leftpad 5 32 ++ byte ':' :: text)

/-- A report: the name of the source, the other headers, and the lines of the source with their
counts. -/
structure GcovReport where
  source : Bytes
  headers : List Bytes
  lines : List (GcovCount × Bytes)
  deriving DecidableEq

/-- The first field of a text is `Source`. -/
def NamesSource (text : Bytes) : Prop := (split (byte ':') text).head? = some (utf8 "Source")

instance (text : Bytes) : Decidable (NamesSource text) := inferInstanceAs (Decidable (_ = _))

namespace GcovReport

variable (r : GcovReport)

def codeLines (k : ℕ) (lines : List (GcovCount × Bytes)) : List Bytes :=
  (lines.zipIdx k).map fun entry => gcovLine entry.1.1.text entry.2 entry.1.2

/-- The lines of the text. Headers have the number 0, those of the source 1, 2, … -/
def texts : List Bytes :=
  gcovLine [45] 0 (utf8 "Source" ++ byte ':' :: r.source) ::
    (r.headers.map (gcovLine [45] 0) ++ codeLines 1 r.lines)

def render : Bytes := r.texts.flatMap (· ++ [byte '\n'])

/-- Names and texts are on one line, there is one header for the source, and numbers fit the types
that gcov has for them. -/
structure WellFormed : Prop where
  source : byte '\n' ∉ r.source
  headers : ∀ header ∈ r.headers, byte '\n' ∉ header ∧ ¬ NamesSource header
  texts : ∀ line ∈ r.lines, byte '\n' ∉ line.2
  counts : ∀ line ∈ r.lines, line.1.times ≤ 9223372036854775807
  length : r.lines.length < 4294967296

/-- The name that is read for the source: what is in front of a colon. -/
def nameRead : Bytes := r.source.takeWhile (· ≠ byte ':')

/-- What is read of the counts. -/
def statuses : List LineCoverage := r.lines.map fun line => translateGcovCount line.1.text

end GcovReport

/-- What the reports for the file `f` say about the line with the index `i`. -/
def countsAt (reports : List GcovReport) (f : Bytes) (i : ℕ) : List GcovCount :=
  (reports.filter (·.source = f)).filterMap fun r => r.lines[i]?.map Prod.fst

/-- There is an entry for every line that a report has. It is covered if some report gives a
positive count, otherwise uncovered if some report says that it is code. -/
def Aligned (reports : List GcovReport) (files : Bytes → List LineCoverage) : Prop :=
  ∀ f i, (files f)[i]? =
    if countsAt reports f i = [] then none else some (lineStatus (countsAt reports f i))

/-! ## Numbers and fields -/

/-- A printable character that is neither blank nor a colon. -/
def Graphic (c : UInt8) : Prop := 32 < c.toNat ∧ c.toNat < 127 ∧ c ≠ byte ':'

instance (c : UInt8) : Decidable (Graphic c) := inferInstanceAs (Decidable (_ ∧ _ ∧ _))

def AllGraphic (w : Bytes) : Prop := ∀ c ∈ w, Graphic c

instance (w : Bytes) : Decidable (AllGraphic w) := List.decidableBAll Graphic w

theorem lt_of_mem_decimalDigits {n d : ℕ} (hd : d ∈ decimalDigits n) : d < 10 := by
  unfold decimalDigits at hd
  split at hd
  · rw [mem_singleton.mp hd]
    decide
  · exact Nat.digits_lt_base (by decide) (mem_reverse.mp hd)

variable (n : ℕ)

theorem decimalDigits_ne_nil : decimalDigits n ≠ [] := by
  unfold decimalDigits
  split
  · exact cons_ne_nil 0 []
  · rw [Ne, reverse_eq_nil_iff]
    exact Nat.digits_ne_nil_iff_ne_zero.mpr ‹_›

theorem foldl_decimalDigits : (decimalDigits n).foldl (fun i d => 10 * i + d) 0 = n := by
  unfold decimalDigits
  split
  · rename_i h
    rw [h]
    rfl
  · rw [foldl_reverse]
    calc (Nat.digits 10 n).foldr (fun d i => 10 * i + d) 0
        = Nat.ofDigits 10 (Nat.digits 10 n) := by
          rw [Nat.ofDigits_eq_foldr]
          congr 1
          funext d i
          exact Nat.add_comm _ _
      _ = n := Nat.ofDigits_digits 10 n

variable {c : UInt8}

theorem digit_of_mem_decimal {n : ℕ} (hc : c ∈ decimal n) : 48 ≤ c.toNat ∧ c.toNat < 58 := by
  obtain ⟨d, hd, rfl⟩ := mem_map.mp hc
  have hlt := lt_of_mem_decimalDigits hd
  have hmod : (48 + d).toUInt8.toNat = 48 + d := Nat.mod_eq_of_lt (by omega)
  omega

theorem decimal_ne_nil : decimal n ≠ [] :=
  fun h => decimalDigits_ne_nil n (map_eq_nil_iff.mp h)

theorem graphic_of_digit (h : 48 ≤ c.toNat ∧ c.toNat < 58) : Graphic c := by
  refine ⟨by omega, by omega, ?_⟩
  rintro rfl
  exact absurd h (by decide)

theorem atoi_decimal : atoi (decimal n) = some (n : ℤ) := by
  have hsign {c : UInt8} (hc : c.toNat < 48) : (decimal n).head? ≠ some c := by
    intro h
    have := digit_of_mem_decimal (mem_of_mem_head? h)
    omega
  have hminus : (decimal n).head? ≠ some (byte '-') := hsign (by decide)
  have hplus : (decimal n).head? ≠ some (byte '+') := hsign (by decide)
  have hdigits : (decimal n).all isDigit = true := by
    refine all_eq_true.mpr fun c hc => ?_
    have hdigit := digit_of_mem_decimal hc
    simp only [isDigit, Bool.and_eq_true, decide_eq_true_eq, UInt8.le_iff_toNat_le]
    exact ⟨hdigit.1, Nat.le_of_lt_succ hdigit.2⟩
  have hvalue : (decimal n).foldl (fun i d => 10 * i + (d.toNat - 48)) 0 = n := by
    rw [decimal, foldl_map]
    refine .trans (foldl_ext _ _ 0 fun i d hd => ?_) (foldl_decimalDigits n)
    have hlt := lt_of_mem_decimalDigits hd
    have hmod : (48 + d).toUInt8.toNat = 48 + d := Nat.mod_eq_of_lt (by omega)
    rw [hmod, Nat.add_sub_cancel_left]
  simp [atoi, hminus, hplus, hdigits, hvalue, decimal_ne_nil]

theorem strconvAtoi_decimal {n : ℕ} (hn : n ≤ 9223372036854775807) :
    strconvAtoi (decimal n) = some (n : ℤ) := by
  have hfits : (-9223372036854775808 ≤ (n : ℤ) ∧ (n : ℤ) ≤ 9223372036854775807) := by omega
  rw [strconvAtoi, atoi_decimal]
  exact Option.filter_some_pos (decide_eq_true hfits)

/-- Nothing is taken off a text that begins with a character. -/
theorem trimRunes_of_graphic {runes : List Bytes}
    (hrunes : ∀ rune ∈ runes, rune.head?.any (¬ Graphic ·) = true) {s : Bytes}
    (hc : s.head? = some c) (hgraphic : Graphic c) (n : ℕ) : trimRunes runes n s = s := by
  cases n with
  | zero => rfl
  | succ =>
    have hnone : runes.find? (·.isPrefixOf s) = none := by
      refine find?_eq_none.mpr fun rune hrune hprefix => ?_
      obtain ⟨c', hc', hblank⟩ := Option.any_eq_true _ _ |>.mp (hrunes rune hrune)
      obtain ⟨rest, rfl⟩ := isPrefixOf_iff_prefix.mp hprefix
      rw [head?_append, hc'] at hc
      exact of_decide_eq_true hblank (Option.some.inj hc ▸ hgraphic)
    rw [trimRunes, hnone]

theorem trimRunes_blanks {w : Bytes} (hc : w.head? = some c) (hgraphic : Graphic c)
    (k n : ℕ) : trimRunes spaceRunes (k + n) (List.replicate k 32 ++ w) = w := by
  induction k with
  | zero => exact trimRunes_of_graphic (by decide) hc hgraphic _
  | succ k ih =>
    have hfind : spaceRunes.find? (·.isPrefixOf (32 :: (replicate k 32 ++ w))) = some [32] := by
      simp [spaceRunes]
    rw [Nat.succ_add, replicate_succ, cons_append, trimRunes, hfind]
    exact ih

theorem trimSpace_leftpad {w : Bytes} (hne : w ≠ []) (hw : AllGraphic w) (k : ℕ) :
    trimSpace (w.leftpad k 32) = w := by
  obtain ⟨c, hc⟩ := Option.isSome_iff_exists.mp (isSome_head?.mpr hne)
  have hd : w.getLast? = some (w.getLast hne) := getLast?_eq_some_getLast hne
  have hleft : trimRunes spaceRunes (w.leftpad k 32).length (w.leftpad k 32) = w := by
    rw [leftpad, length_append, length_replicate]
    exact trimRunes_blanks hc (hw c (mem_of_mem_head? hc)) _ _
  rw [trimSpace, hleft, trimRunes_of_graphic (by decide)
    (head?_reverse.trans hd) (hw _ (getLast_mem hne)), reverse_reverse]

theorem not_mem_leftpad {w : Bytes} (hw : AllGraphic w) {k : ℕ}
    (hc : ¬ Graphic c) (hblank : c ≠ 32) : c ∉ w.leftpad k 32 := by
  rw [leftpad, mem_append]
  rintro (hmem | hmem)
  · exact hblank (eq_of_mem_replicate hmem)
  · exact hc (hw c hmem)

theorem graphic_decimal : AllGraphic (decimal n) :=
  fun _ hc => graphic_of_digit (digit_of_mem_decimal hc)

/-! ## Counts -/

namespace GcovCount

theorem graphic_text (count : GcovCount) : AllGraphic count.text := by
  cases count with
  | nonCode => decide
  | unexecuted exceptional => cases exceptional <;> decide
  | hits n partly =>
    have hpart : AllGraphic (if partly then [42] else []) := by cases partly <;> decide
    exact forall_mem_append.mpr ⟨graphic_decimal n, hpart⟩

theorem text_ne_nil (count : GcovCount) : count.text ≠ [] := by
  cases count with
  | nonCode => exact cons_ne_nil _ _
  | unexecuted exceptional => cases exceptional <;> exact cons_ne_nil _ _
  | hits n => exact fun h => decimal_ne_nil n (append_eq_nil_iff.mp h).1

/-- A count is understood, unless the line was executed in part. -/
theorem translate_text {count : GcovCount} (hfits : count.times ≤ 9223372036854775807) :
    translateGcovCount count.text = if count.inPart then .uncovered else lineStatus [count] := by
  cases count with
  | nonCode => rfl
  | unexecuted exceptional => cases exceptional <;> rfl
  | hits n partly =>
    have hsign (more : Bytes) : (decimal n ++ more).head? ≠ some (byte '-') := by
      rw [head?_append_of_ne_nil _ (decimal_ne_nil n)]
      exact fun h => absurd (digit_of_mem_decimal (mem_of_mem_head? h)) (by decide)
    have hplus : (decimal n ++ [42]).head? ≠ some (byte '+') := by
      rw [head?_append_of_ne_nil _ (decimal_ne_nil n)]
      exact fun h => absurd (digit_of_mem_decimal (mem_of_mem_head? h)) (by decide)
    rw [text, translateGcovCount, if_neg (hsign _)]
    cases partly with
    | true =>
      have hnone : atoi (decimal n ++ [42]) = none := by
        have hstar : isDigit 42 = false := by decide
        rw [atoi, if_neg (not_or.mpr ⟨hsign [42], hplus⟩)]
        simp [hstar]
      simp [strconvAtoi, hnone, inPart]
    | false =>
      have hn : strconvAtoi (decimal n) = some (n : ℤ) := strconvAtoi_decimal hfits
      rw [if_neg Bool.false_ne_true, append_nil, hn]
      by_cases hpos : 0 < n <;> simp [lineStatus, times, inPart, hpos]

end GcovCount

/-! ## Lines -/

section lines

variable {count text : Bytes} {n lineno : ℕ} {st : GcovState}

theorem fields_gcovLine (hcount : AllGraphic count) :
    split (byte ':') (gcovLine count n text) =
      count.leftpad 9 32 :: (decimal n).leftpad 5 32 :: split (byte ':') text := by
  rw [gcovLine, split_append (not_mem_leftpad hcount (by decide) (by decide)),
    split_append (not_mem_leftpad (graphic_decimal n) (by decide) (by decide))]

theorem newline_not_mem_gcovLine (hcount : AllGraphic count) (htext : byte '\n' ∉ text) :
    byte '\n' ∉ gcovLine count n text := by
  have hcolon : byte '\n' ≠ byte ':' := by decide
  simp only [gcovLine, mem_append, mem_cons, not_or]
  exact ⟨not_mem_leftpad hcount (by decide) (by decide), hcolon,
    not_mem_leftpad (graphic_decimal n) (by decide) (by decide), hcolon, htext⟩

theorem exists_split (sep : UInt8) (s : Bytes) :
    ∃ rest, split sep s = s.takeWhile (· ≠ sep) :: rest := by
  induction s with
  | nil => exact ⟨[], rfl⟩
  | cons c _ ih =>
    obtain ⟨rest, hrest⟩ := ih
    rw [split, hrest]
    by_cases hc : c = sep <;> simp [hc]

theorem parseGcovLine_source (source : Bytes) :
    parseGcovLine lineno (gcovLine [45] 0 (utf8 "Source" ++ byte ':' :: source)) st =
      .ok { st with currentFilename := source.takeWhile (· ≠ byte ':') } := by
  obtain ⟨rest, hrest⟩ := exists_split (byte ':') source
  rw [parseGcovLine, fields_gcovLine (by decide), split_append (by decide), hrest]
  exact if_pos rfl

/-- A line with a number is appended, unless its text looks like a header. -/
theorem parseGcovLine_gcovLine (hcount : AllGraphic count) (hne : count ≠ [])
    (hn : n ≤ 9223372036854775807) (htext : ¬ NamesSource text) :
    parseGcovLine lineno (gcovLine count n text) st =
      .ok (if n = 0 then st else st.append [translateGcovCount count]) := by
  rw [parseGcovLine, fields_gcovLine hcount]
  cases htag : split (byte ':') text with
  | nil => exact absurd htag (split_ne_nil _ _)
  | cons tag =>
    have hsource : tag ≠ utf8 "Source" := by
      rintro rfl
      exact htext (by rw [NamesSource, htag]; rfl)
    have hnumber := trimSpace_leftpad (decimal_ne_nil n) (graphic_decimal n) 5
    simp only [if_neg hsource, hnumber, strconvAtoi_decimal hn, trimSpace_leftpad hne hcount]
    cases n with
    | zero => rfl
    | succ => exact if_pos (by omega)

end lines

/-! ## Reports -/

theorem GcovState.append_append (st : GcovState) (xs ys : List LineCoverage) :
    (st.append xs).append ys = st.append (xs ++ ys) := by
  simp [GcovState.append]

theorem GcovState.append_nil (st : GcovState) : st.append [] = st := by
  simp [GcovState.append]

section reports

variable {r : GcovReport} {st : GcovState} {more : List Bytes}

theorem parseGcovLines_headers {headers : List Bytes}
    (hheaders : ∀ header ∈ headers, ¬ NamesSource header) (lineno : ℕ) :
    parseGcovLines lineno (headers.map (gcovLine [45] 0) ++ more) st =
      parseGcovLines (lineno + headers.length) more st := by
  induction headers generalizing lineno with
  | nil => rfl
  | cons _ headers ih =>
    obtain ⟨hheader, hrest⟩ := forall_mem_cons.mp hheaders
    rw [map_cons, cons_append, parseGcovLines,
      parseGcovLine_gcovLine (by decide) (by decide) (by decide) hheader, length_cons,
      Nat.add_comm headers.length, ← Nat.add_assoc]
    exact ih hrest (lineno + 1)

theorem parseGcovLines_codeLines {lines : List (GcovCount × Bytes)}
    (htexts : ∀ line ∈ lines, ¬ NamesSource line.2) {k : ℕ} (hk : k ≠ 0)
    (hlength : k + lines.length ≤ 9223372036854775807) (lineno : ℕ) :
    parseGcovLines lineno (GcovReport.codeLines k lines ++ more) st =
      parseGcovLines (lineno + lines.length) more
        (st.append (lines.map fun line => translateGcovCount line.1.text)) := by
  induction lines generalizing lineno k st with
  | nil =>
    rw [map_nil, st.append_nil]
    rfl
  | cons line lines ih =>
    obtain ⟨htext, hrest⟩ := forall_mem_cons.mp htexts
    rw [length_cons] at hlength
    rw [GcovReport.codeLines, zipIdx_cons, map_cons, cons_append, parseGcovLines,
      parseGcovLine_gcovLine line.1.graphic_text line.1.text_ne_nil (by omega) htext, if_neg hk,
      length_cons, Nat.add_comm lines.length, ← Nat.add_assoc, map_cons]
    refine (ih hrest k.succ_ne_zero (by omega) (lineno + 1)).trans ?_
    rw [st.append_append]
    rfl

/-- A report appends its lines to the file with the name that is read. -/
theorem parseGcovLines_texts (hwf : r.WellFormed)
    (htexts : ∀ line ∈ r.lines, ¬ NamesSource line.2) (lineno : ℕ) :
    ∃ lineno', parseGcovLines lineno (r.texts ++ more) st =
      parseGcovLines lineno' more (GcovState.append ⟨r.nameRead, st.files⟩ r.statuses) := by
  have hlength := hwf.length
  refine ⟨lineno + 1 + r.headers.length + r.lines.length, ?_⟩
  rw [GcovReport.texts, cons_append, append_assoc, parseGcovLines, parseGcovLine_source]
  rw [GcovReport.statuses, ← parseGcovLines_codeLines htexts one_ne_zero (by omega),
    ← parseGcovLines_headers (fun header hheader => (hwf.headers header hheader).2)]
  rfl

end reports

/-- What is read for the file `f`, one report after the other. -/
def chained (reports : List GcovReport) (f : Bytes) : List LineCoverage :=
  (reports.filter (·.nameRead = f)).flatMap GcovReport.statuses

variable {reports : List GcovReport}

theorem parseGcovLines_reports (hwf : ∀ r ∈ reports, r.WellFormed)
    (htexts : ∀ r ∈ reports, ∀ line ∈ r.lines, ¬ NamesSource line.2) (lineno : ℕ)
    (st : GcovState) :
    parseGcovLines lineno (reports.flatMap GcovReport.texts ++ [[]]) st =
      (fun f => st.files f ++ chained reports f, none) := by
  induction reports generalizing lineno st with
  | nil =>
    refine Prod.ext (funext fun f => ?_) rfl
    exact (append_nil _).symm
  | cons r _ ih =>
    obtain ⟨hr, hwf⟩ := forall_mem_cons.mp hwf
    obtain ⟨hrtexts, htexts⟩ := forall_mem_cons.mp htexts
    rw [flatMap_cons, append_assoc]
    obtain ⟨lineno', hreport⟩ := parseGcovLines_texts hr hrtexts lineno
    rw [hreport, ih hwf htexts]
    refine Prod.ext (funext fun f => ?_) rfl
    by_cases hf : r.nameRead = f
    · subst hf
      simp [chained, GcovState.append]
    · simp [chained, GcovState.append, hf, Function.update_of_ne (Ne.symm hf)]

theorem split_lines {lines : List Bytes} (hlines : ∀ line ∈ lines, byte '\n' ∉ line) :
    split (byte '\n') (lines.flatMap (· ++ [byte '\n'])) = lines ++ [[]] := by
  induction lines with
  | nil => rfl
  | cons _ _ ih =>
    obtain ⟨hline, hrest⟩ := forall_mem_cons.mp hlines
    rw [flatMap_cons, append_assoc, singleton_append, split_append hline, ih hrest]
    rfl

theorem GcovReport.WellFormed.newline_not_mem {r : GcovReport} (hwf : r.WellFormed) :
    ∀ line ∈ r.texts, byte '\n' ∉ line := by
  refine forall_mem_cons.mpr ⟨?_, forall_mem_append.mpr ⟨?_, ?_⟩⟩
  · refine newline_not_mem_gcovLine (by decide) ?_
    have hname : byte '\n' ∉ utf8 "Source" := by decide
    have hcolon : byte '\n' ≠ byte ':' := by decide
    simp [hname, hcolon, hwf.source]
  · refine forall_mem_map.mpr fun header hheader => ?_
    exact newline_not_mem_gcovLine (by decide) (hwf.headers header hheader).1
  · refine forall_mem_map.mpr fun entry hentry => ?_
    have hline := fst_mem_of_mem_zipIdx hentry
    exact newline_not_mem_gcovLine entry.1.1.graphic_text (hwf.texts _ hline)

/-- The lines of the reports for one file are put one after the other. -/
theorem parseGcovCoverageResults_render (hwf : ∀ r ∈ reports, r.WellFormed)
    (htexts : ∀ r ∈ reports, ∀ line ∈ r.lines, ¬ NamesSource line.2) :
    parseGcovCoverageResults (fun _ => []) (reports.flatMap GcovReport.render) =
      (chained reports, none) := by
  have hsplit : split (byte '\n') (reports.flatMap GcovReport.render) =
      reports.flatMap GcovReport.texts ++ [[]] := by
    have hlines : ∀ line ∈ reports.flatMap GcovReport.texts, byte '\n' ∉ line := by
      intro line hline
      obtain ⟨r, hr, hmem⟩ := mem_flatMap.mp hline
      exact (hwf r hr).newline_not_mem line hmem
    rw [← split_lines hlines, flatMap_assoc]
    rfl
  have hdata : reports.flatMap GcovReport.render ≠ utf8 "gcov" := by
    intro h
    have hlast := congrArg getLast? (hsplit.symm.trans (congrArg (split (byte '\n')) h))
    rw [getLast?_append, split_of_not_mem (by decide)] at hlast
    have hnil : [] = utf8 "gcov" := Option.some.inj hlast
    exact absurd hnil (by decide)
  rw [parseGcovCoverageResults, if_neg hdata, hsplit, parseGcovLines_reports hwf htexts]
  rfl

/-! ## Alignment -/

/-- No two reports with lines are for the same file, reports with lines have names that are read in
full, and no line that was executed is marked as executed in part. -/
structure ReadsRight (reports : List GcovReport) : Prop where
  once : ∀ f, (reports.filter fun r => r.source = f ∧ r.lines ≠ []).length ≤ 1
  source : ∀ r ∈ reports, r.lines ≠ [] → byte ':' ∉ r.source
  counts : ∀ r ∈ reports, ∀ line ∈ r.lines, line.1.inPart = true → line.1.times = 0

theorem nameRead_eq {r : GcovReport} (h : byte ':' ∉ r.source) : r.nameRead = r.source :=
  takeWhile_eq_self_iff.mpr fun c hc => by simpa using fun heq : c = byte ':' => h (heq ▸ hc)

/-- What is read comes from the reports with lines. -/
theorem chained_eq (hsource : ∀ r ∈ reports, r.lines ≠ [] → byte ':' ∉ r.source) (f : Bytes) :
    chained reports f =
      (reports.filter fun r => r.source = f ∧ r.lines ≠ []).flatMap GcovReport.statuses := by
  rw [chained]
  induction reports with
  | nil => rfl
  | cons r _ ih =>
    obtain ⟨hr, hrest⟩ := forall_mem_cons.mp hsource
    by_cases hlines : r.lines = []
    · have hnone : r.statuses = [] := by simp [GcovReport.statuses, hlines]
      by_cases hf : r.nameRead = f <;> simp [hf, hlines, hnone, ih hrest]
    · by_cases hf : r.source = f <;> simp [nameRead_eq (hr hlines), hf, hlines, ih hrest]

theorem countsAt_eq (f : Bytes) (i : ℕ) :
    countsAt reports f i = (reports.filter fun r => r.source = f ∧ r.lines ≠ []).filterMap
      fun r => r.lines[i]?.map Prod.fst := by
  rw [countsAt]
  induction reports with
  | nil => rfl
  | cons r _ ih =>
    by_cases hlines : r.lines = [] <;> by_cases hf : r.source = f <;>
      simp [filterMap_cons, hlines, hf, ih]

/-- One of several reports with lines has fewer lines than all of them. -/
theorem length_lt_of_two {mine : List GcovReport} (hlines : ∀ r ∈ mine, r.lines ≠ [])
    (htwo : 1 < mine.length) {r : GcovReport} (hr : r ∈ mine) :
    r.lines.length < (mine.flatMap GcovReport.statuses).length := by
  obtain ⟨before, after, rfl⟩ := append_of_mem hr
  have hpos : 0 < (before ++ after).length := by
    simp only [length_append, length_cons] at htwo ⊢
    omega
  obtain ⟨other, hother⟩ := exists_mem_of_length_pos hpos
  have hmem : other ∈ before ++ r :: after := by
    rcases mem_append.mp hother with h | h <;> simp [h]
  have hlength : 0 < other.statuses.length := by
    rw [GcovReport.statuses, length_map]
    exact length_pos_of_ne_nil (hlines other hmem)
  have hle : other.statuses.length ≤ ((before ++ after).flatMap GcovReport.statuses).length := by
    rw [flatMap_def]
    exact (sublist_flatten_of_mem (mem_map_of_mem hother)).length_le
  have hr : r.statuses.length = r.lines.length := length_map _
  simp only [flatMap_append, flatMap_cons, length_append] at hle ⊢
  omega

/-- Where a file has one report with lines at most, that is the one. -/
theorem filter_eq_singleton {r : GcovReport} (hr : r ∈ reports) (hlines : r.lines ≠ [])
    (honce : (reports.filter fun r' => r'.source = r.source ∧ r'.lines ≠ []).length ≤ 1) :
    (reports.filter fun r' => r'.source = r.source ∧ r'.lines ≠ []) = [r] := by
  have hmem : r ∈ reports.filter fun r' => r'.source = r.source ∧ r'.lines ≠ [] :=
    mem_filter.mpr ⟨hr, by simp [hlines]⟩
  generalize (reports.filter fun r' => r'.source = r.source ∧ r'.lines ≠ []) = mine at hmem honce
  cases mine with
  | nil => cases hmem
  | cons r' rest =>
    obtain rfl : rest = [] := eq_nil_of_length_eq_zero (by simpa using honce)
    rw [mem_singleton.mp hmem]

/-- Where no text of a source looks like a header, the entries are those of the lines exactly if the
reports are read right. -/
theorem parseGcovCoverageResults_aligned_iff {reports : List GcovReport}
    (hwf : ∀ r ∈ reports, r.WellFormed)
    (htexts : ∀ r ∈ reports, ∀ line ∈ r.lines, ¬ NamesSource line.2) :
    (∃ files, parseGcovCoverageResults (fun _ => []) (reports.flatMap GcovReport.render) =
      (files, none) ∧ Aligned reports files) ↔ ReadsRight reports := by
  have htranslate : ∀ r ∈ reports, ∀ line ∈ r.lines, _ := fun r hr line hline =>
    GcovCount.translate_text ((hwf r hr).counts line hline)
  rw [parseGcovCoverageResults_render hwf htexts]
  simp only [Prod.mk.injEq, and_true, exists_eq_left']
  constructor
  · intro haligned
    have hsource : ∀ r ∈ reports, r.lines ≠ [] → byte ':' ∉ r.source := by
      intro r hr hlines hcolon
      have hnone : chained reports r.source = [] := by
        refine flatMap_eq_nil_iff.mpr fun r' hr' => ?_
        have hname : r'.nameRead = r.source := of_decide_eq_true (mem_filter.mp hr').2
        rw [← hname] at hcolon
        simpa using mem_takeWhile_imp hcolon
      have hzero := haligned r.source 0
      have hcounts : countsAt reports r.source 0 ≠ [] := by
        obtain ⟨line, rest, hcons⟩ := exists_cons_of_ne_nil hlines
        refine ne_nil_of_mem (a := line.1) (mem_filterMap.mpr ⟨r, mem_filter.mpr ⟨hr, by simp⟩, ?_⟩)
        simp [hcons]
      rw [hnone, if_neg hcounts] at hzero
      cases hzero
    have honce : ∀ f, (reports.filter fun r => r.source = f ∧ r.lines ≠ []).length ≤ 1 := by
      intro f
      have haligned := haligned f
      simp only [chained_eq hsource, countsAt_eq] at haligned
      have hlines : ∀ r ∈ reports.filter fun r => r.source = f ∧ r.lines ≠ [], r.lines ≠ [] :=
        fun r hr => (of_decide_eq_true (mem_filter.mp hr).2).2
      generalize (reports.filter fun r => r.source = f ∧ r.lines ≠ []) = mine at haligned hlines
      by_contra htwo
      -- there is an entry for the sum of the lines, which is more than any report has
      obtain ⟨r, hr⟩ := exists_mem_of_length_pos (Nat.zero_lt_of_lt (not_le.mp htwo))
      have hpos : 0 < (mine.flatMap GcovReport.statuses).length :=
        Nat.zero_lt_of_lt (length_lt_of_two hlines (not_le.mp htwo) hr)
      have hlast := haligned ((mine.flatMap GcovReport.statuses).length - 1)
      have hnone : (mine.filterMap fun r =>
          r.lines[(mine.flatMap GcovReport.statuses).length - 1]?.map Prod.fst) = [] := by
        refine filterMap_eq_nil_iff.mpr fun r hr => ?_
        have hlt := length_lt_of_two hlines (not_le.mp htwo) hr
        rw [getElem?_eq_none (by omega)]
        rfl
      rw [hnone, if_pos rfl, List.getElem?_eq_none_iff] at hlast
      omega
    refine ⟨honce, hsource, fun r hr line hline hpart => ?_⟩
    obtain ⟨i, hi⟩ := mem_iff_getElem?.mp hline
    have hmine := filter_eq_singleton hr (ne_nil_of_mem hline) (honce r.source)
    have hentry := haligned r.source i
    rw [chained_eq hsource, countsAt_eq, hmine, flatMap_singleton, GcovReport.statuses,
      getElem?_map,
      hi, Option.map_some, htranslate r hr line hline, if_pos hpart] at hentry
    by_contra htimes
    simp [hi, lineStatus, Nat.pos_of_ne_zero htimes] at hentry
  · rintro ⟨honce, hsource, hcounts⟩ f i
    have honce := honce f
    have hmine : ∀ r ∈ reports.filter fun r => r.source = f ∧ r.lines ≠ [], r ∈ reports :=
      fun r hr => (mem_filter.mp hr).1
    rw [chained_eq hsource, countsAt_eq]
    generalize (reports.filter fun r => r.source = f ∧ r.lines ≠ []) = mine at honce hmine
    cases mine with
    | nil => rfl
    | cons r rest =>
      obtain rfl : rest = [] := eq_nil_of_length_eq_zero (by simpa using honce)
      rw [flatMap_singleton, GcovReport.statuses, getElem?_map]
      cases h : r.lines[i]? with
      | none => simp [h]
      | some line =>
        have hr := hmine r mem_cons_self
        have hline := mem_of_getElem? h
        rw [Option.map_some, htranslate r hr line hline]
        by_cases hpart : line.1.inPart = true
        · have htimes := hcounts r hr line hline hpart
          have hcode : line.1 ≠ .nonCode := by
            intro hcount
            rw [hcount] at hpart
            cases hpart
          simp [h, hpart, lineStatus, htimes, hcode]
        · simp [h, hpart]

/-- One report, with a header and three lines. -/
def mainReport : GcovReport where
  source := utf8 "main.c"
  headers := [utf8 "Runs:1"]
  lines := [(.nonCode, utf8 "// a:b"), (.hits 12 false, utf8 "f();"),
    (.unexecuted false, utf8 "g();")]

theorem parseGcovCoverageResults_mainReport : ∃ files,
    parseGcovCoverageResults (fun _ => []) ([mainReport].flatMap GcovReport.render) =
      (files, none) ∧ (files (utf8 "main.c"))[1]? = some .covered := by
  have hwf : mainReport.WellFormed := ⟨by decide, by decide, by decide, by decide, by decide⟩
  have htexts : ∀ line ∈ mainReport.lines, ¬ NamesSource line.2 := by decide
  obtain ⟨files, hparse, haligned⟩ := (parseGcovCoverageResults_aligned_iff
    (forall_mem_singleton.mpr hwf) (forall_mem_singleton.mpr htexts)).mpr
      ⟨fun f => length_filter_le _ _, by decide, by decide⟩
  exact ⟨files, hparse, (haligned _ 1).trans (by decide)⟩

/-- Two reports for one file: its line was executed in the second run. -/
def twoRuns : List GcovReport :=
  [⟨utf8 "main.c", [], [(.unexecuted false, utf8 "f();")]⟩,
    ⟨utf8 "main.c", [], [(.hits 1 false, utf8 "f();")]⟩]

/-- The lines of the second report come after those of the first, so that the entry of the first
line is that of the first report. -/
theorem parseGcovCoverageResults_twoRuns : (∀ r ∈ twoRuns, r.WellFormed) ∧
    ∃ files, parseGcovCoverageResults (fun _ => []) (twoRuns.flatMap GcovReport.render) =
        (files, none) ∧
      files (utf8 "main.c") = [.uncovered, .covered] ∧
      countsAt twoRuns (utf8 "main.c") 0 = [.unexecuted false, .hits 1 false] ∧
      ¬ Aligned twoRuns files := by
  have hwf : ∀ r ∈ twoRuns, r.WellFormed := forall_mem_cons.mpr
    ⟨⟨by decide, by decide, by decide, by decide, by decide⟩, forall_mem_singleton.mpr
      ⟨by decide, by decide, by decide, by decide, by decide⟩⟩
  refine ⟨hwf, chained twoRuns, parseGcovCoverageResults_render hwf (by decide),
    by decide, by decide,
    fun haligned => ?_⟩
  exact absurd (haligned (utf8 "main.c") 0) (by decide)

end Please.Test
