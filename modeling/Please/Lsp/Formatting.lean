import Please.Build.RuleHash

/-!
# The edits of the language server's formatting handler

Model of `Handler.formatting` (`tools/build_langserver/lsp/text.go`). Texts are lists of bytes; in
an ASCII text a byte is a character of the protocol.

Specification: the edits are applied as the Language Server Protocol says. A line ends at a line
feed, at a carriage return or at both; a position beyond the end of a line is the end of the line,
and one beyond the last line is the end of the document. All positions are positions in the
original document.

* `formatting_correct_iff`: when they yield the formatted text.
-/

namespace Please.Lsp

open Please.Fs (Bytes)
open Please.Build (utf8)
open List

def newline : UInt8 := 10

def carriageReturn : UInt8 := 13

/-! ## The handler -/

/-- `lsp.Position`. -/
structure Position where
  line : ℕ
  character : ℕ
deriving DecidableEq

/-- `lsp.TextEdit`, with its `lsp.Range`. -/
structure TextEdit where
  start : Position
  stop : Position
  newText : Bytes
deriving DecidableEq

/-- `strings.Join` with line ends. -/
def join (lines : List Bytes) : Bytes := [newline].intercalate lines

/-- `doc`, as far as its text goes. -/
structure Doc where
  content : List Bytes

/-- `doc.Text` (lines 31–35). -/
def Doc.text (doc : Doc) : Bytes := join doc.content

/-- `doc.SetText` (lines 43–47). -/
def Doc.setText (text : Bytes) : Doc := ⟨text.splitOn newline⟩

/-- The loop of `formatting` over the lines after formatting (lines 187–208), from line `i` on. -/
def edits : ℕ → (linesBefore linesAfter : List Bytes) → List TextEdit
  | _, _, [] => []
  | i, [], line :: linesAfter => [⟨⟨i, 0⟩, ⟨i, 0⟩, join (line :: linesAfter)⟩]
  | i, before :: linesBefore, line :: linesAfter =>
    if line ≠ before then
      ⟨⟨i, 0⟩, ⟨i, before.length⟩, line⟩ :: edits (i + 1) linesBefore linesAfter
    else edits (i + 1) linesBefore linesAfter

/-- `Handler.formatting` (lines 169–210), where `after` is the formatted text: the edits, and the
document that the handler goes on with. -/
def formatting (doc : Doc) (after : Bytes) : List TextEdit × Doc :=
  if doc.text = after then ([], doc)
  else (edits 0 doc.content (Doc.setText after).content, Doc.setText after)

/-! ## Applying edits -/

/-- The number of bytes up to the end of the first line. -/
def lineLength : Bytes → ℕ
  | [] => 0
  | b :: text => if b = newline ∨ b = carriageReturn then 0 else lineLength text + 1

/-- The number of bytes of the first line with its end, if there is another line. -/
def lineWidth : Bytes → Option ℕ
  | [] => none
  | b :: text =>
    if b = newline then some 1
    else if b = carriageReturn then some (if text.head? = some newline then 2 else 1)
    else (lineWidth text).map (· + 1)

/-- Where a position is in the text. -/
def offset (character : ℕ) : (line : ℕ) → Bytes → ℕ
  | 0, text => min character (lineLength text)
  | line + 1, text =>
    match lineWidth text with
    | none => text.length
    | some n => n + offset character line (text.drop n)

/-- One edit, at the place that its range has in the text `original`. -/
def applyEdit (original : Bytes) (edit : TextEdit) (text : Bytes) : Bytes :=
  text.take (offset edit.start.character edit.start.line original) ++ edit.newText ++
    text.drop (offset edit.stop.character edit.stop.line original)

/-- A list of edits in the order of their ranges. They are made from the last to the first, so
that what is in front of an edit has not moved. -/
def applyEdits (original : Bytes) (es : List TextEdit) : Bytes :=
  es.foldr (applyEdit original) original

/-! ## Rows

A row is a line of the protocol with its end. The lines that the handler counts end at line feeds
only.
-/

variable {content term rest text before line : Bytes} {linesBefore linesAfter : List Bytes}

/-- The text that begins with the line `content`, which ends with `term`. -/
structure Row (content term rest : Bytes) : Prop where
  noNewline : newline ∉ content
  noReturn : carriageReturn ∉ content
  ends : term = [] ∧ rest = [] ∨ term = [newline] ∨ term = [carriageReturn, newline] ∨
    term = [carriageReturn] ∧ rest.head? ≠ some newline

theorem exists_row (text : Bytes) :
    ∃ content term rest, text = content ++ (term ++ rest) ∧ Row content term rest := by
  induction text with
  | nil => exact ⟨[], [], [], rfl, by simp, by simp, .inl ⟨rfl, rfl⟩⟩
  | cons b text ih =>
    by_cases hnl : b = newline
    · exact ⟨[], [newline], text, by simp [hnl], by simp, by simp, .inr (.inl rfl)⟩
    by_cases hcr : b = carriageReturn
    · cases text with
      | nil => exact ⟨[], [carriageReturn], [], by simp [hcr], by simp, by simp, by simp⟩
      | cons c text =>
        by_cases hc : c = newline
        · exact ⟨[], [carriageReturn, newline], text, by simp [hcr, hc], by simp, by simp, by simp⟩
        · exact ⟨[], [carriageReturn], c :: text, by simp [hcr], by simp, by simp, by simp [hc]⟩
    · obtain ⟨content, term, rest, rfl, hrow⟩ := ih
      exact ⟨b :: content, term, rest, rfl, by simp [Ne.symm hnl, hrow.noNewline],
        by simp [Ne.symm hcr, hrow.noReturn], hrow.ends⟩

theorem Row.lineLength (h : Row content term rest) :
    lineLength (content ++ (term ++ rest)) = content.length := by
  obtain ⟨hnl, hcr, hends⟩ := h
  induction content with
  | nil =>
    obtain ⟨rfl, rfl⟩ | rfl | rfl | ⟨rfl, -⟩ := hends <;> simp [Lsp.lineLength]
  | cons b content ih =>
    simp only [mem_cons, not_or] at hnl hcr
    simp [Lsp.lineLength, Ne.symm hnl.1, Ne.symm hcr.1, ih hnl.2 hcr.2]

theorem Row.lineWidth (h : Row content term rest) : lineWidth (content ++ (term ++ rest)) =
    if term = [] then none else some (content.length + term.length) := by
  obtain ⟨hnl, hcr, hends⟩ := h
  induction content with
  | nil =>
    obtain ⟨rfl, rfl⟩ | rfl | rfl | ⟨rfl, hrest⟩ := hends
    · simp [Lsp.lineWidth]
    · simp [Lsp.lineWidth]
    · simp [Lsp.lineWidth, carriageReturn, newline]
    · simp only [newline] at hrest
      simp [Lsp.lineWidth, carriageReturn, newline, hrest]
  | cons b content ih =>
    simp only [mem_cons, not_or] at hnl hcr
    simp only [cons_append, Lsp.lineWidth, Ne.symm hnl.1, Ne.symm hcr.1, ih hnl.2 hcr.2, if_false]
    split
    · rfl
    · simp only [Option.map_some, length_cons]
      congr 1
      omega

/-- The edits of the lines `linesBefore`, each made in the first row that is left of the text. -/
def editText : Bytes → (linesBefore linesAfter : List Bytes) → Bytes
  | text, _, [] => text
  | text, [], line :: linesAfter => join (line :: linesAfter) ++ text
  | text, before :: linesBefore, line :: linesAfter =>
    let cut := min before.length (lineLength text)
    let width := (lineWidth text).getD text.length
    (if line ≠ before then line else text.take cut) ++ (text.take width).drop cut ++
      editText (text.drop width) linesBefore linesAfter

theorem Row.width (h : Row content term rest) :
    (Lsp.lineWidth (content ++ (term ++ rest))).getD (content ++ (term ++ rest)).length =
      (content ++ term).length := by
  rw [h.lineWidth]
  split
  · rename_i hterm
    obtain ⟨-, rfl⟩ | hends := h.ends
    · simp
    · subst hterm
      simp at hends
  · simp

theorem Row.editText (h : Row content term rest) :
    editText (content ++ (term ++ rest)) (before :: linesBefore) (line :: linesAfter) =
      (if line ≠ before then line ++ content.drop before.length else content) ++ term ++
        editText rest linesBefore linesAfter := by
  have htake : (content ++ (term ++ rest)).take (min before.length content.length) =
      content.take before.length := by
    rw [take_append_of_le_length (min_le_right _ _), ← take_eq_take_min]
  have hdrop : (content ++ term).drop (min before.length content.length) =
      content.drop before.length ++ term := by
    rw [drop_append_of_le_length (min_le_right _ _)]
    rcases Nat.le_total before.length content.length with hle | hle
    · rw [min_eq_left hle]
    · rw [min_eq_right hle, drop_length, drop_eq_nil_of_le hle]
  simp only [Lsp.editText, h.width, h.lineLength, htake]
  rw [← append_assoc content term, take_left, drop_left, hdrop]
  split
  · simp
  · rw [← append_assoc, take_append_drop]

/-- A row in front of a text moves its positions down. -/
theorem Row.offset_succ (h : Row content term rest) (character i : ℕ) :
    offset character (i + 1) (content ++ (term ++ rest)) =
      (content ++ term).length + offset character i rest := by
  rw [offset, h.lineWidth]
  obtain ⟨rfl, rfl⟩ | hends := h.ends
  · have hnil : offset character i [] = 0 := by
      cases i <;> simp [offset, Lsp.lineLength, Lsp.lineWidth]
    simp [hnil]
  · rw [if_neg]
    · simp [← append_assoc, drop_left']
    · rintro rfl
      simp at hends

/-- Behind rows that are done, the edits are made row by row. -/
theorem applyEdits_eq_editText {front : Bytes} {i : ℕ}
    (hfront : ∀ character k, offset character (i + k) (front ++ text) =
      front.length + offset character k text) :
    applyEdits (front ++ text) (edits i linesBefore linesAfter) =
      front ++ editText text linesBefore linesAfter := by
  induction linesAfter generalizing front text i linesBefore with
  | nil => simp [edits, applyEdits, editText]
  | cons line linesAfter ih =>
    have hstart : offset 0 i (front ++ text) = front.length := by
      simpa [offset] using hfront 0 0
    cases linesBefore with
    | nil => simp [edits, applyEdits, applyEdit, editText, hstart]
    | cons before linesBefore =>
      obtain ⟨content, term, rest, rfl, hrow⟩ := exists_row text
      have hrest : applyEdits (front ++ (content ++ term) ++ rest)
          (edits (i + 1) linesBefore linesAfter) =
          front ++ (content ++ term) ++ editText rest linesBefore linesAfter :=
            ih fun character k => by
        have h := hfront character (k + 1)
        rw [hrow.offset_succ, ← Nat.add_assoc, Nat.add_right_comm] at h
        simpa [Nat.add_assoc] using h
      have hstop : offset before.length i (front ++ (content ++ (term ++ rest))) =
          front.length + (content.take before.length).length := by
        have h := hfront before.length 0
        rwa [Nat.add_zero, offset, hrow.lineLength, ← length_take] at h
      have hwhole (s : Bytes) :
          content.take before.length ++ (content.drop before.length ++ s) = content ++ s := by
        rw [← append_assoc, take_append_drop]
      rw [hrow.editText]
      have hes : applyEdits (front ++ (content ++ (term ++ rest)))
          (edits (i + 1) linesBefore linesAfter) = front ++ content.take before.length ++
            (content.drop before.length ++ term ++ editText rest linesBefore linesAfter) := by
        rw [← append_assoc content, ← append_assoc front, hrest]
        simp [hwhole]
      rw [edits]
      by_cases heq : line = before
      · rw [if_neg (not_not.mpr heq), hes]
        simp [heq, hwhole]
      · rw [if_pos heq, applyEdits, foldr_cons, ← applyEdits, hes, applyEdit]
        simp [hstart, hstop, heq]

/-! ## Lines -/

theorem join_cons {lines : List Bytes} (h : lines ≠ []) :
    join (line :: lines) = line ++ newline :: join lines := by
  obtain ⟨l, lines, rfl⟩ := exists_cons_of_ne_nil h
  simp [join, intercalate_cons_cons]

theorem join_singleton : join [line] = line := by simp [join]

theorem join_splitOn (text : Bytes) : join (text.splitOn newline) = text :=
  intercalate_splitOn newline

theorem newline_notMem_of_mem_splitOn (text : Bytes) :
    ∀ line ∈ text.splitOn newline, newline ∉ line := by
  induction text with
  | nil => simp [splitOn]
  | cons b text ih =>
    simp only [splitOn, splitOnP_cons_eq_if_modifyHead] at ih ⊢
    split
    · simpa using ih
    · rename_i hb
      obtain ⟨l, lines, hl⟩ := exists_cons_of_ne_nil (splitOnP_ne_nil (· == newline) text)
      rw [hl] at ih ⊢
      simp only [modifyHead_cons, mem_cons, forall_eq_or_imp, not_or] at ih ⊢
      exact ⟨⟨fun h => hb (by simp [h]), ih.1⟩, ih.2⟩

theorem count_join {lines : List Bytes} (hlines : ∀ l ∈ lines, newline ∉ l) (hne : lines ≠ []) :
    (join lines).count newline + 1 = lines.length := by
  induction lines with
  | nil => exact absurd rfl hne
  | cons l lines ih =>
    obtain ⟨hl, hrest⟩ := forall_mem_cons.mp hlines
    by_cases hnil : lines = []
    · subst hnil
      rw [join_singleton, count_eq_zero.mpr hl]
      rfl
    · rw [join_cons hnil, count_append, count_eq_zero.mpr hl, count_cons_self, length_cons,
        ← ih hrest hnil]
      omega

/-- An edit neither adds nor removes a line feed, and the lines at the end bring their own. -/
theorem count_editText (hafter : ∀ l ∈ linesAfter, newline ∉ l) (text : Bytes)
    (linesBefore : List Bytes) : (editText text linesBefore linesAfter).count newline =
      text.count newline + (linesAfter.length - linesBefore.length - 1) := by
  induction linesAfter generalizing text linesBefore with
  | nil => simp [editText]
  | cons line linesAfter ih =>
    cases linesBefore with
    | nil =>
      have hjoin := count_join hafter (cons_ne_nil line linesAfter)
      rw [editText, count_append]
      simp only [length_cons, length_nil] at hjoin ⊢
      omega
    | cons before linesBefore =>
      obtain ⟨hline, hrest⟩ := forall_mem_cons.mp hafter
      obtain ⟨content, term, rest, rfl, hrow⟩ := exists_row text
      have hdrop : newline ∉ content.drop before.length := fun h =>
        hrow.noNewline (mem_of_mem_drop h)
      rw [hrow.editText, count_append, count_append, ih hrest]
      have hnone : (if line ≠ before then line ++ content.drop before.length else content).count
          newline = 0 := by
        split
        · rw [count_append, count_eq_zero.mpr hline, count_eq_zero.mpr hdrop]
        · exact count_eq_zero.mpr hrow.noNewline
      simp only [hnone, count_append, count_eq_zero.mpr hrow.noNewline, length_cons]
      omega

theorem editText_self (text : Bytes) (lines : List Bytes) : editText text lines lines = text := by
  induction lines generalizing text with
  | nil => rfl
  | cons l lines ih =>
    obtain ⟨content, term, rest, rfl, hrow⟩ := exists_row text
    rw [hrow.editText, ih]
    simp

theorem append_newline_inj {x y s t : Bytes} (hx : newline ∉ x) (hy : newline ∉ y) :
    x ++ newline :: s = y ++ newline :: t ↔ x = y ∧ s = t := by
  induction x generalizing y with
  | nil =>
    cases y with
    | nil => simp
    | cons c y =>
      simp only [mem_cons, not_or] at hy
      simp [hy.1]
  | cons b x ih =>
    simp only [mem_cons, not_or] at hx
    cases y with
    | nil => simp [Ne.symm hx.1]
    | cons c y =>
      simp only [mem_cons, not_or] at hy
      simp [ih hx.2 hy.2, and_assoc]

/-- The last lines of two equal texts are equal. -/
theorem last_line_inj {u w x y : Bytes} (hx : newline ∉ x) (hy : newline ∉ y)
    (h : u ++ newline :: x = w ++ newline :: y) : x = y := by
  have hreverse := congrArg reverse h
  simp only [reverse_append, reverse_cons, append_assoc, singleton_append] at hreverse
  exact reverse_injective ((append_newline_inj (by simpa) (by simpa)).mp hreverse).1

/-! ## Carriage returns -/

/-- The first row of a text ends with the line feed `lag` is followed by, or before. -/
theorem exists_row_behind (lag t : Bytes) : ∃ content term lag' z,
    lag ++ newline :: t = content ++ (term ++ (lag' ++ t)) ∧ Row content term (lag' ++ t) ∧
      term ++ lag' = z ++ [newline] := by
  induction lag with
  | nil => exact ⟨[], [newline], [], [], rfl, ⟨by simp, by simp, by simp⟩, rfl⟩
  | cons b lag ih =>
    by_cases hnl : b = newline
    · exact ⟨[], [newline], lag ++ [newline], newline :: lag, by simp [hnl],
        ⟨by simp, by simp, by simp⟩, rfl⟩
    by_cases hcr : b = carriageReturn
    · cases lag with
      | nil => exact ⟨[], [carriageReturn, newline], [], [carriageReturn], by simp [hcr],
          ⟨by simp, by simp, by simp⟩, rfl⟩
      | cons c lag =>
        by_cases hc : c = newline
        · exact ⟨[], [carriageReturn, newline], lag ++ [newline], carriageReturn :: newline :: lag,
            by simp [hcr, hc], ⟨by simp, by simp, by simp⟩, rfl⟩
        · exact ⟨[], [carriageReturn], c :: lag ++ [newline], carriageReturn :: c :: lag,
            by simp [hcr], ⟨by simp, by simp, by simp [hc]⟩, rfl⟩
    · obtain ⟨content, term, lag', z, heq, hrow, hz⟩ := ih
      exact ⟨b :: content, term, lag', z, by simp [heq], ⟨by simp [Ne.symm hnl, hrow.noNewline],
        by simp [Ne.symm hcr, hrow.noReturn], hrow.ends⟩, hz⟩

/-- If a row ends before the lines that are left begin, a text that ends as the formatted one does
has not been edited. -/
theorem eq_of_behind {lag w : Bytes} (hne : linesBefore ≠ [])
    (hlen : linesBefore.length = linesAfter.length) (hbefore : ∀ l ∈ linesBefore, newline ∉ l)
    (hafter : ∀ l ∈ linesAfter, newline ∉ l)
    (h : editText (lag ++ newline :: join linesBefore) linesBefore linesAfter =
      w ++ newline :: join linesAfter) : linesAfter = linesBefore := by
  induction linesBefore generalizing lag w linesAfter with
  | nil => exact absurd rfl hne
  | cons before linesBefore ih =>
    obtain ⟨line, linesAfter, rfl⟩ := exists_cons_of_length_eq_add_one hlen.symm
    obtain ⟨hb, hbefore⟩ := forall_mem_cons.mp hbefore
    obtain ⟨hl, hafter⟩ := forall_mem_cons.mp hafter
    have hlen : linesBefore.length = linesAfter.length := by simpa using hlen
    obtain ⟨content, term, lag', z, heq, hrow, hz⟩ :=
      exists_row_behind lag (join (before :: linesBefore))
    rw [heq, hrow.editText, append_assoc] at h
    generalize (if line ≠ before then line ++ content.drop before.length else content) = x at h
    have hlast (e : Bytes) (h : x ++ (term ++ (lag' ++ before) ++ e) = w ++ newline :: line ++ e) :
        before = line := by
      rw [← append_assoc, append_left_inj, ← append_assoc term, hz] at h
      exact last_line_inj (u := x ++ z) hb hl (by simpa using h)
    by_cases hnil : linesBefore = []
    · subst hnil
      obtain rfl := length_eq_zero_iff.mp hlen.symm
      rw [join_singleton, join_singleton, editText] at h
      rw [hlast [] (by simpa using h)]
    have hnil' : linesAfter ≠ [] := by
      rintro rfl
      exact hnil (length_eq_zero_iff.mp hlen)
    rw [join_cons hnil, join_cons hnil', ← append_assoc lag'] at h
    have hcount := count_editText hafter (lag' ++ before ++ newline :: join linesBefore) linesBefore
    have hjoin := count_join hbefore hnil
    have hjoin' := count_join hafter hnil'
    -- the line feeds of the lines that are left are behind the first row
    obtain ⟨w', hw'⟩ : ∃ w', editText (lag' ++ before ++ newline :: join linesBefore) linesBefore
        linesAfter = w' ++ newline :: join linesAfter := by
      have h' : (x ++ term) ++ editText (lag' ++ before ++ newline :: join linesBefore) linesBefore
          linesAfter = (w ++ newline :: line) ++ newline :: join linesAfter := by
        simpa using h
      obtain ⟨m, -, hm⟩ | ⟨m, -, hm⟩ := append_eq_append_iff.mp h'
      · exact ⟨m, hm⟩
      · cases m with
        | nil => exact ⟨[], hm.symm⟩
        | cons b m =>
          obtain ⟨rfl, hm⟩ := cons_eq_cons.mp hm
          have hm := congrArg (count newline) hm
          simp only [count_append, count_cons_self] at hm hcount
          omega
    obtain rfl := ih hnil hlen hbefore hafter hw'
    rw [editText_self] at h
    rw [hlast (newline :: join linesAfter) (by simpa using h)]

/-- An edited line has no carriage return, and behind a line with one before its end nothing is
edited. -/
def Aligned : (linesBefore linesAfter : List Bytes) → Prop
  | before :: linesBefore, line :: linesAfter =>
    (line = before ∨ carriageReturn ∉ before) ∧
      (carriageReturn ∈ before.dropLast → linesAfter = linesBefore) ∧ Aligned linesBefore linesAfter
  | _, _ => True

theorem aligned_self (lines : List Bytes) : Aligned lines lines := by
  induction lines with
  | nil => trivial
  | cons l lines ih => exact ⟨.inl rfl, fun _ => rfl, ih⟩

theorem editText_last (hb : newline ∉ before) :
    editText before [before] [line] = line ↔ line = before ∨ carriageReturn ∉ before := by
  obtain ⟨content, term, rest, heq, hrow⟩ := exists_row before
  by_cases hline : line = before
  · rw [hline, editText_self]
    simp
  have hdrop : content.drop before.length = [] := by
    rw [drop_eq_nil_iff, heq]
    simp
  have hedit : editText before [before] [line] = line ++ (term ++ rest) := by
    rw [heq, hrow.editText, ← heq, if_pos hline, hdrop, editText]
    simp
  rw [hedit, or_iff_right hline]
  refine ⟨fun h => ?_, fun hcr => ?_⟩
  · rw [heq, append_right_eq_self.mp h, append_nil]
    exact hrow.noReturn
  · obtain ⟨rfl, rfl⟩ | rfl | rfl | ⟨rfl, -⟩ := hrow.ends
    · simp
    all_goals simp [heq] at hb hcr

/-- A line that the rows follow. -/
theorem editText_aligned {t : Bytes} (hb : newline ∉ before) (hl : newline ∉ line)
    (hcr : carriageReturn ∉ before.dropLast) (linesBefore linesAfter : List Bytes) (s : Bytes) :
    editText (before ++ newline :: t) (before :: linesBefore) (line :: linesAfter) =
        line ++ newline :: s ↔
      (line = before ∨ carriageReturn ∉ before) ∧ editText t linesBefore linesAfter = s := by
  by_cases hmem : carriageReturn ∈ before
  · obtain ⟨core, hcore⟩ : ∃ core, before = core ++ [carriageReturn] := by
      refine ⟨before.dropLast, ?_⟩
      have hne := ne_nil_of_mem hmem
      have hlast := dropLast_append_getLast hne
      rw [← hlast, mem_append, or_iff_right hcr, mem_singleton] at hmem
      rw [hmem, hlast]
    have hcr : carriageReturn ∉ core := by simpa [hcore] using hcr
    have hb : newline ∉ core := fun h => hb (by simp [hcore, h])
    have hrow : Row core [carriageReturn, newline] t := ⟨hb, hcr, by simp⟩
    have htext : before ++ newline :: t = core ++ ([carriageReturn, newline] ++ t) := by
      simp [hcore]
    have hdrop : core.drop before.length = [] := by simp [hcore]
    rw [htext, hrow.editText, hdrop]
    by_cases hline : line = before
    · rw [if_neg (by simpa using hline), or_iff_left (by simpa), hline, hcore]
      simp
    · rw [if_pos hline, or_iff_right hline]
      have hne : line ++ [carriageReturn] ≠ line := by simp
      refine iff_of_false (fun h => hne ?_) (by simp [hmem])
      have hl' : newline ∉ line ++ [carriageReturn] := by simpa [newline, carriageReturn] using hl
      exact ((append_newline_inj hl' hl).mp (by simpa using h)).1
  · have hrow : Row before [newline] t := ⟨hb, hmem, by simp⟩
    have hx : (if line ≠ before then line ++ before.drop before.length else before) = line := by
      split
      · simp
      · rename_i h
        exact (not_not.mp h).symm
    rw [← singleton_append, hrow.editText, hx]
    simp [hmem]

/-- A line with a carriage return before its end. -/
theorem editText_behind (hb : newline ∉ before) (hl : newline ∉ line)
    (hbefore : ∀ l ∈ linesBefore, newline ∉ l) (hafter : ∀ l ∈ linesAfter, newline ∉ l)
    (hne : linesBefore ≠ []) (hlen : linesBefore.length = linesAfter.length)
    (hcr : carriageReturn ∈ before.dropLast)
    (h : editText (before ++ newline :: join linesBefore) (before :: linesBefore)
      (line :: linesAfter) = line ++ newline :: join linesAfter) :
    line = before ∧ linesAfter = linesBefore := by
  obtain ⟨x, y, hbefore', hx⟩ := eq_append_cons_of_mem ((dropLast_subset before) hcr)
  have hy : y.head? ≠ some newline ∧ y ≠ [] := by
    refine ⟨fun hhead => hb ?_, ?_⟩
    · rw [hbefore']
      exact mem_append_right _ (mem_cons_of_mem _ (mem_of_mem_head? hhead))
    · rintro rfl
      rw [hbefore', dropLast_concat] at hcr
      exact hx hcr
  have hrow : Row x [carriageReturn] (y ++ newline :: join linesBefore) := by
    refine ⟨fun h => hb (by simp [hbefore', h]), hx, .inr (.inr (.inr ⟨rfl, ?_⟩))⟩
    rw [head?_append_of_ne_nil _ hy.2]
    exact hy.1
  have htext : before ++ newline :: join linesBefore =
      x ++ ([carriageReturn] ++ (y ++ newline :: join linesBefore)) := by
    simp [hbefore']
  have hdrop : x.drop before.length = [] := by simp [hbefore']
  rw [htext, hrow.editText, hdrop, append_nil] at h
  have hfirst : newline ∉ (if line ≠ before then line else x) ++ [carriageReturn] := by
    rw [mem_append, not_or]
    refine ⟨?_, by decide⟩
    split
    · exact hl
    · exact hrow.noNewline
  obtain ⟨m, hm, hrest⟩ : ∃ m, line = (if line ≠ before then line else x) ++ [carriageReturn] ++ m ∧
      editText (y ++ newline :: join linesBefore) linesBefore linesAfter =
        m ++ newline :: join linesAfter := by
    obtain h | ⟨m, hm, hrest⟩ := append_eq_append_iff.mp h
    · exact h
    · cases m with
      | nil => exact ⟨[], by simpa using hm.symm, hrest.symm⟩
      | cons c m =>
        obtain ⟨rfl, -⟩ := cons_eq_cons.mp hrest
        exact absurd (hm ▸ mem_append_right _ mem_cons_self) hfirst
  obtain rfl := eq_of_behind hne hlen hbefore hafter hrest
  refine ⟨?_, rfl⟩
  by_contra hline
  rw [if_pos hline] at hm
  have := congrArg length hm
  simp at this

theorem editText_eq_join_iff (hne : linesBefore ≠ [])
    (hlen : linesBefore.length = linesAfter.length) (hbefore : ∀ l ∈ linesBefore, newline ∉ l)
    (hafter : ∀ l ∈ linesAfter, newline ∉ l) :
    editText (join linesBefore) linesBefore linesAfter = join linesAfter ↔
      Aligned linesBefore linesAfter := by
  induction linesBefore generalizing linesAfter with
  | nil => exact absurd rfl hne
  | cons before linesBefore ih =>
    obtain ⟨line, linesAfter, rfl⟩ := exists_cons_of_length_eq_add_one hlen.symm
    obtain ⟨hb, hbefore⟩ := forall_mem_cons.mp hbefore
    obtain ⟨hl, hafter⟩ := forall_mem_cons.mp hafter
    have hlen : linesBefore.length = linesAfter.length := by simpa using hlen
    by_cases hnil : linesBefore = []
    · subst hnil
      obtain rfl := length_eq_zero_iff.mp hlen.symm
      rw [join_singleton, join_singleton, editText_last hb, Aligned]
      simp [Aligned]
    have hnil' : linesAfter ≠ [] := by
      rintro rfl
      exact hnil (length_eq_zero_iff.mp hlen)
    rw [join_cons hnil, join_cons hnil', Aligned]
    by_cases hcr : carriageReturn ∈ before.dropLast
    · refine ⟨fun h => ?_, fun h => ?_⟩
      · obtain ⟨rfl, rfl⟩ := editText_behind hb hl hbefore hafter hnil hlen hcr h
        exact ⟨.inl rfl, fun _ => rfl, aligned_self _⟩
      · obtain rfl := h.1.resolve_right (not_not.mpr ((dropLast_subset before) hcr))
        rw [h.2.1 hcr, editText_self]
    · rw [editText_aligned hb hl hcr, ih hnil hlen hbefore hafter]
      simp [hcr]

/-- The edits yield the formatted text exactly if it has as many lines as the document, an edited
line has no carriage return, and behind a line with one before its end nothing is edited. -/
theorem formatting_correct_iff (before after : Bytes) :
    applyEdits before (formatting (Doc.setText before) after).1 = after ↔
      (before.splitOn newline).length = (after.splitOn newline).length ∧
        Aligned (before.splitOn newline) (after.splitOn newline) := by
  rw [formatting, Doc.text, Doc.setText, join_splitOn]
  by_cases heq : before = after
  · rw [if_pos heq, heq]
    simp [applyEdits, aligned_self]
  have hedit : applyEdits ([] ++ before)
      (edits 0 (before.splitOn newline) (after.splitOn newline)) =
      [] ++ editText before (before.splitOn newline) (after.splitOn newline) :=
    applyEdits_eq_editText (by simp)
  rw [nil_append, nil_append] at hedit
  rw [if_neg heq, Doc.setText, hedit]
  have hbefore := newline_notMem_of_mem_splitOn before
  have hafter := newline_notMem_of_mem_splitOn after
  have hne := splitOn_ne_nil newline before
  by_cases hlen : (before.splitOn newline).length = (after.splitOn newline).length
  · have h := editText_eq_join_iff hne hlen hbefore hafter
    rw [join_splitOn, join_splitOn] at h
    rw [h]
    exact (and_iff_right hlen).symm
  · -- a line feed is missing, or one is left over
    refine iff_of_false (fun h => hlen ?_) fun h => hlen h.1
    have hcount := congrArg (count newline) h
    have hjoin := count_join hbefore hne
    have hjoin' := count_join hafter (splitOn_ne_nil newline after)
    rw [count_editText hafter] at hcount
    rw [join_splitOn] at hjoin hjoin'
    omega

/-- The document is one line without a line end, and formatting adds the line end: the edits leave
the document as it is. -/
theorem line_end_not_added :
    applyEdits (utf8 "x = 1") (formatting (Doc.setText (utf8 "x = 1")) (utf8 "x = 1\n")).1 ≠
      utf8 "x = 1\n" := by
  decide

end Please.Lsp
