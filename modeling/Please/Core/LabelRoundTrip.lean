import Please.Core.LabelSyntax

/-!
# Printing a label and parsing it again

The law of `FuzzParseBuildLabel` (`src/core/build_label_fuzz_test.go`, lines 12–28): a label
that `TryParseBuildLabel` accepts is printed by `String` as a text that parses to the same
label.

`String` prints a label in its canonical form, `//pkg:name` or `//pkg/...` behind the subrepo
(`text_canonical`), so the law holds exactly where that form is well formed. It need not be:

* the name taken from `//pkg` or `@subrepo` is not checked, and `//pkg:name` checks it again;
* the subrepo of `@subrepo/:name` ends in a slash, which is lost before the two slashes;
* the label `OriginalTarget` is not printed as a label at all.

`tryParseBuildLabel_string_iff` states that there are no others.
-/

namespace Please.Core

open Please.Lib Please.Build Form Label
open Please.Fs (Bytes)
open List

/-! ## What is known of an accepted label -/

namespace Form

variable {f : Form} {currentPath : Bytes}

theorem validatePackageName_label (h : f.WF) (hcp : validatePackageName currentPath) :
    validatePackageName (f.label currentPath).packageName := by
  induction f with
  | here => exact hcp
  | target pkg name | package pkg => exact h.1
  | all => exact h
  | subrepoOnly => rfl
  | inSubrepo _ _ _ ih => exact ih h.2.1

theorem subrepo_label (h : f.WF) :
    colon ∉ (f.label currentPath).subrepo ∧ NoPair slash (f.label currentPath).subrepo := by
  cases f with
  | here | target | package | all => exact ⟨not_mem_nil, isChain_nil⟩
  | subrepoOnly => exact ⟨h.2.1, h.2.2.left⟩
  | inSubrepo =>
    obtain ⟨hcolon, -, ⟨-, hpair⟩ | ⟨-, hpair⟩⟩ := h
    · exact ⟨hcolon, hpair⟩
    · exact ⟨hcolon, hpair.left⟩

/-- A name that stands after a colon has been checked. -/
theorem validateTargetName_label_of_colon (h : f.WF) (hcolon : colon ∈ f.text) :
    validateTargetName (f.label currentPath).name := by
  induction f with
  | here => exact h
  | target => exact h.2.1
  | package =>
    have hpkg := colon_notMem_of_validatePackageName h.1
    exact absurd hcolon (by simp [text, hpkg])
  | all => rfl
  | subrepoOnly marker =>
    have hmarker : colon ∉ marker.text := by cases marker <;> decide
    exact absurd hcolon (by simp [text, hmarker, h.2.1])
  | inSubrepo marker _ _ ih =>
    have hmarker : colon ∉ marker.text := by cases marker <;> decide
    exact ih h.2.1 (by simpa [text, hmarker, h.1] using hcolon)

/-- A subrepo that ends in a slash stands before a colon. -/
theorem exists_of_getLast?_subrepo (h : f.WF)
    (hlast : (f.label currentPath).subrepo.getLast? = some slash) :
    ∃ marker name, f = inSubrepo marker (f.label currentPath).subrepo (here name) := by
  cases f with
  | here | target | package | all => exact absurd hlast (by simp [label])
  | subrepoOnly => exact absurd hlast (noPair_append_singleton_iff.mp h.2.2).2
  | inSubrepo marker =>
    obtain ⟨-, -, ⟨⟨name, rfl⟩, -⟩ | ⟨-, hpair⟩⟩ := h
    · exact ⟨marker, name, rfl⟩
    · exact absurd hlast (noPair_append_singleton_iff.mp hpair).2

end Form

/-! ## The canonical form -/

namespace Label

/-- The form in which `String` prints a label. -/
def canonical (label : Label) : Form :=
  let form := if label.name = dots then .all label.packageName
    else .target label.packageName label.name
  if label.subrepo = [] then form else .inSubrepo .slashes label.subrepo form

variable {label : Label}

theorem text_canonical (hname : label.name ≠ []) (horiginal : label ≠ originalTarget) :
    label.canonical.text = label.string := by
  have hzero : label ≠ ⟨[], [], []⟩ := fun h => hname (by rw [h])
  unfold canonical string
  rw [if_neg hzero, if_neg horiginal]
  by_cases hsubrepo : label.subrepo = [] <;> by_cases hdots : label.name = dots <;>
    by_cases hpkg : label.packageName = [] <;>
    simp [hsubrepo, hdots, hpkg, Form.text, Marker.text]

theorem label_canonical (currentPath : Bytes) : label.canonical.label currentPath = label := by
  unfold canonical
  by_cases hsubrepo : label.subrepo = [] <;> by_cases hdots : label.name = dots <;>
    simp [hsubrepo, hdots, Form.label, Label.ext_iff]

theorem wf_canonical_iff :
    label.canonical.WF ↔ validatePackageName label.packageName ∧ validateTargetName label.name ∧
      colon ∉ label.subrepo ∧ NoPair slash (label.subrepo ++ [slash]) := by
  have hdotsValid : validateTargetName dots := by decide
  have hnil : NoPair slash [slash] := isChain_singleton _
  have hslashes : ∀ t : Bytes, [slash, slash] <+: slash :: slash :: t := fun t => ⟨t, rfl⟩
  unfold canonical
  by_cases hsubrepo : label.subrepo = [] <;> by_cases hdots : label.name = dots <;>
    simp [hsubrepo, hdots, hdotsValid, hnil, hslashes, WF, text]
  all_goals grind

end Label

/-- A label is read back exactly if its canonical form is well formed. -/
theorem tryParseBuildLabel_string_iff_canonical {currentPath : Bytes} {label : Label}
    (hcp : validatePackageName currentPath) (hname : label.name ≠ [])
    (horiginal : label ≠ .originalTarget) :
    tryParseBuildLabel label.string currentPath = some label ↔ label.canonical.WF := by
  rw [tryParseBuildLabel_eq_some_iff, ← text_canonical hname horiginal]
  refine ⟨?_, fun h => ⟨_, h, rfl, label_canonical currentPath⟩⟩
  rintro ⟨f, hf, htext, hlabel⟩
  have hsubrepo := @subrepo_label f currentPath hf
  have hpkg := validatePackageName_label hf hcp
  rw [hlabel] at hsubrepo hpkg
  refine wf_canonical_iff.mpr ⟨hpkg, ?_, hsubrepo.1, ?_⟩
  · by_cases hdots : label.name = dots
    · rw [hdots]
      rfl
    -- the canonical form of any other name has a colon
    · have hcolon : colon ∈ label.canonical.text := by
        unfold canonical
        by_cases hnil : label.subrepo = [] <;> simp [hnil, hdots, text]
      rw [← hlabel]
      exact validateTargetName_label_of_colon hf (htext ▸ hcolon)
  · refine noPair_append_singleton_iff.mpr ⟨hsubrepo.2, fun hlast => ?_⟩
    -- the text read has a colon after the subrepo, the text printed a slash
    obtain ⟨marker, name, hform⟩ := exists_of_getLast?_subrepo hf (by rw [hlabel]; exact hlast)
    rw [hlabel] at hform
    have hnil : label.subrepo ≠ [] := by
      intro hnil
      rw [hnil] at hlast
      cases hlast
    rw [hform] at htext
    cases marker with
    | atSign =>
      exact absurd (congrArg head? htext) (by
        simp [canonical, hnil, text, Marker.text]
        decide)
    | slashes =>
      by_cases hdots : label.name = dots <;>
        simp [canonical, hnil, hdots, text, Marker.text] at htext

/-! ## The texts that are read back -/

/-- What follows the last colon or slash. -/
def lastPart (t : Bytes) : Bytes := t.rtakeWhile fun b => b ≠ colon && b ≠ slash

/-- What follows the last colon or slash of a text, the mark `@` apart. -/
def finalPart (t : Bytes) : Bytes :=
  lastPart (if t.head? = some commercialAt then t.tail else t)

/-- The text names a subrepo that ends in a slash: `@subrepo/:name`. -/
def SlashSubrepo (t : Bytes) : Prop :=
  ∃ (marker : Marker) (subrepo name : Bytes),
    colon ∉ subrepo ∧ NoPair slash (subrepo ++ [slash]) ∧ validateTargetName name ∧
      t = marker.text ++ (subrepo ++ slash :: colon :: name)

/-- The form names a target `_ORIGINAL` of a root package. -/
def Form.NamesOriginal (currentPath : Bytes) : Form → Prop
  | here name => currentPath = [] ∧ name = utf8 "_ORIGINAL"
  | target pkg name => pkg = [] ∧ name = utf8 "_ORIGINAL"
  | package _ => False
  | all _ => False
  | subrepoOnly _ subrepo => base subrepo = utf8 "_ORIGINAL"
  | inSubrepo _ _ rest => rest.NamesOriginal currentPath

/-- The form names no subrepo, or an empty one. -/
def Form.NoSubrepo : Form → Prop
  | subrepoOnly _ _ => False
  | inSubrepo _ subrepo _ => subrepo = []
  | _ => True

/-- The text is a spelling of `//:_ORIGINAL`. -/
def SpellsOriginal (currentPath t : Bytes) : Prop :=
  ∃ f : Form, f.WF ∧ f.text = t ∧ f.NoSubrepo ∧ f.NamesOriginal currentPath

/-- The texts whose labels are read back. -/
structure ReadsBack (currentPath t : Bytes) : Prop where
  name : validateTargetName (finalPart t)
  subrepo : ¬ SlashSubrepo t
  original : ¬ SpellsOriginal currentPath t

theorem lastPart_append_cons {u v : Bytes} {c : UInt8} (hc : c = colon ∨ c = slash)
    (hcolon : colon ∉ v) (hslash : slash ∉ v) : lastPart (u ++ c :: v) = v := by
  refine rtakeWhile_append_cons ?_ fun b hb => ?_
  · rcases hc with rfl | rfl <;> decide
  · have hb₁ : b ≠ colon := fun h => hcolon (h ▸ hb)
    have hb₂ : b ≠ slash := fun h => hslash (h ▸ hb)
    simp [hb₁, hb₂]

/-- Nothing before a separator counts. -/
theorem lastPart_append {c : UInt8} (hc : c = colon ∨ c = slash) (u v : Bytes) :
    lastPart (u ++ c :: v) = lastPart (c :: v) := by
  have hkeep : ¬ (decide (c ≠ colon) && decide (c ≠ slash)) = true := by
    rcases hc with rfl | rfl <;> decide
  unfold lastPart
  induction v using reverseRecOn with
  | nil => rw [rtakeWhile_concat, if_neg hkeep, ← nil_append [c], rtakeWhile_concat, if_neg hkeep]
  | append_singleton v b ih =>
    rw [← cons_append, ← append_assoc, rtakeWhile_concat, rtakeWhile_concat, ih]

/-- Without a colon, only the slashes count. -/
theorem lastPart_of_notMem {t : Bytes} (h : colon ∉ t) : lastPart t = base t := by
  induction t using reverseRecOn with
  | nil => rfl
  | append_singleton t b ih =>
    rw [mem_append, not_or, mem_singleton] at h
    unfold lastPart base at ih ⊢
    rw [rtakeWhile_concat, rtakeWhile_concat, ih h.1]
    simp [Ne.symm h.2]

namespace Form

variable {f : Form} {currentPath : Bytes}

theorem colon_notMem_text_all {pkg : Bytes} (h : (all pkg).WF) : colon ∉ (all pkg).text := by
  have hpkg := colon_notMem_of_validatePackageName h
  have hdots : colon ∉ dots := by decide
  unfold text
  split_ifs <;> simp [hpkg, hdots]

theorem base_text_all (pkg : Bytes) : base (all pkg).text = dots := by
  unfold text
  split_ifs
  · rfl
  · exact base_append_cons (u := slash :: slash :: pkg) (by decide)

/-- The name of a label is the final part of its text. -/
theorem finalPart_text (h : f.WF) : finalPart f.text = (f.label currentPath).name := by
  have hslash : ¬ some slash = some commercialAt := by decide
  have hcolon : ¬ some colon = some commercialAt := by decide
  induction f with
  | here =>
    have hname := colon_notMem_of_validateTargetName h
    exact lastPart_append_cons (u := []) (.inl rfl) hname (slash_notMem_of_validateTargetName h)
  | target pkg =>
    have hname := colon_notMem_of_validateTargetName h.2.1
    exact lastPart_append_cons (u := slash :: slash :: pkg) (.inl rfl) hname
      (slash_notMem_of_validateTargetName h.2.1)
  | package =>
    have hpkg := colon_notMem_of_validatePackageName h.1
    rw [finalPart, text, head?_cons, if_neg hslash, lastPart_of_notMem (by simp [hpkg]),
      base_slash_cons, base_slash_cons, label]
  | all pkg =>
    have hhead : (all pkg).text.head? = some slash := rfl
    rw [finalPart, hhead, if_neg hslash, lastPart_of_notMem (colon_notMem_text_all h),
      base_text_all, label]
  | subrepoOnly marker subrepo =>
    cases marker with
    | atSign => exact lastPart_of_notMem h.2.1
    | slashes =>
      have hnot : colon ∉ slash :: slash :: slash :: subrepo := by simp [h.2.1]
      calc finalPart (slash :: slash :: slash :: subrepo)
          = base (slash :: slash :: slash :: subrepo) := lastPart_of_notMem hnot
        _ = base subrepo := by rw [base_slash_cons, base_slash_cons, base_slash_cons]
  | inSubrepo marker subrepo rest ih =>
    obtain ⟨-, hrest, hcut⟩ := h
    -- the rest begins with a separator
    obtain ⟨c, t, hc, ht⟩ : ∃ c t, (c = colon ∨ c = slash) ∧ rest.text = c :: t := by
      obtain ⟨⟨name, rfl⟩, -⟩ | ⟨⟨t, ht⟩, -⟩ := hcut
      · exact ⟨colon, name, .inl rfl, rfl⟩
      · exact ⟨slash, slash :: t, .inr rfl, ht.symm⟩
    have hhead : ¬ some c = some commercialAt := by
      rcases hc with rfl | rfl
      · exact hcolon
      · exact hslash
    have hfinal : finalPart rest.text = lastPart (c :: t) := by
      rw [finalPart, ht, head?_cons, if_neg hhead]
    rw [label, ← ih hrest, hfinal, text, ht]
    cases marker with
    | atSign => exact lastPart_append hc subrepo t
    | slashes => exact lastPart_append hc (slash :: slash :: slash :: subrepo) t

theorem namesOriginal_iff (h : f.WF) :
    f.NamesOriginal currentPath ↔
      (f.label currentPath).packageName = [] ∧ (f.label currentPath).name = utf8 "_ORIGINAL" := by
  have hdots : dots ≠ utf8 "_ORIGINAL" := by decide
  induction f with
  | here | target => rfl
  | package => simp [NamesOriginal, label, h.2.1]
  | all => simp [NamesOriginal, label, hdots]
  | subrepoOnly => simp [NamesOriginal, label]
  | inSubrepo _ _ _ ih => exact ih h.2.1

theorem noSubrepo_iff (h : f.WF) : f.NoSubrepo ↔ (f.label currentPath).subrepo = [] := by
  cases f with
  | here | target | package | all => simp [NoSubrepo, label]
  | subrepoOnly => simp [NoSubrepo, label, h.1]
  | inSubrepo => rfl

end Form

section accepted

variable {t currentPath : Bytes} {label : Label}

theorem spellsOriginal_iff (h : tryParseBuildLabel t currentPath = some label) :
    SpellsOriginal currentPath t ↔ label = .originalTarget := by
  constructor
  · rintro ⟨f, hf, rfl, hsubrepo, hname⟩
    rw [tryParseBuildLabel_eq_some_iff.mpr ⟨f, hf, rfl, rfl⟩, Option.some.injEq] at h
    obtain ⟨hpkg, hname⟩ := (namesOriginal_iff hf).mp hname
    rw [@noSubrepo_iff f currentPath hf] at hsubrepo
    rw [← h]
    exact Label.ext hpkg hname hsubrepo
  · rintro rfl
    obtain ⟨f, hf, htext, hlabel⟩ := tryParseBuildLabel_eq_some_iff.mp h
    refine ⟨f, hf, htext, ?_, ?_⟩
    · rw [noSubrepo_iff hf, hlabel]
      rfl
    · rw [namesOriginal_iff hf, hlabel]
      exact ⟨rfl, rfl⟩

theorem slashSubrepo_iff (h : tryParseBuildLabel t currentPath = some label) :
    SlashSubrepo t ↔ label.subrepo.getLast? = some slash := by
  constructor
  · rintro ⟨marker, subrepo, name, hcolon, hpair, hname, rfl⟩
    -- the text has the form of a subrepo before a colon
    have hf : (inSubrepo marker (subrepo ++ [slash]) (.here name)).WF :=
      ⟨by simp [hcolon], hname, .inl ⟨⟨name, rfl⟩, hpair⟩⟩
    have htext : (inSubrepo marker (subrepo ++ [slash]) (.here name)).text =
        marker.text ++ (subrepo ++ slash :: colon :: name) := by
      simp [text]
    rw [tryParseBuildLabel_eq_some_iff.mpr ⟨_, hf, htext, rfl⟩, Option.some.injEq] at h
    rw [← h, Form.label]
    simp
  · intro hlast
    obtain ⟨f, hf, rfl, rfl⟩ := tryParseBuildLabel_eq_some_iff.mp h
    obtain ⟨marker, name, hform⟩ := exists_of_getLast?_subrepo hf hlast
    have hsubrepo := @subrepo_label f currentPath hf
    obtain ⟨subrepo, hcut⟩ := getLast?_eq_some_iff.mp hlast
    rw [hcut] at hform hsubrepo
    rw [hform] at hf ⊢
    exact ⟨marker, subrepo, name, fun hmem => hsubrepo.1 (mem_append_left _ hmem),
      hsubrepo.2, hf.2.1, by simp [text]⟩

end accepted

/-- A label that has been parsed is printed as a text that parses to the same label exactly if
the final part of the text is a valid target name, the text has no subrepo that ends in a
slash, and it does not spell `OriginalTarget`. -/
theorem tryParseBuildLabel_string_iff {t currentPath : Bytes} {label : Label}
    (hcp : validatePackageName currentPath)
    (h : tryParseBuildLabel t currentPath = some label) :
    tryParseBuildLabel label.string currentPath = some label ↔ ReadsBack currentPath t := by
  obtain ⟨f, hf, htext, hlabel⟩ := tryParseBuildLabel_eq_some_iff.mp h
  have hname : finalPart t = label.name := by rw [← htext, ← hlabel, finalPart_text hf]
  have hreads : ReadsBack currentPath t ↔ validateTargetName label.name ∧
      label.subrepo.getLast? ≠ some slash ∧ label ≠ .originalTarget := by
    rw [← hname, Ne, Ne, ← slashSubrepo_iff h, ← spellsOriginal_iff h]
    exact ⟨fun r => ⟨r.name, r.subrepo, r.original⟩, fun r => ⟨r.1, r.2.1, r.2.2⟩⟩
  rw [hreads]
  by_cases horiginal : label = .originalTarget
  · -- "command-line targets" is no label
    have hnone : tryParseBuildLabel (string .originalTarget) currentPath = none := by rfl
    simp [horiginal, hnone]
  · have hne : label.name ≠ [] := by
      rw [← hlabel]
      exact label_name_ne_nil hf currentPath
    have hsubrepo := @subrepo_label f currentPath hf
    have hpkg := validatePackageName_label hf hcp
    rw [hlabel] at hsubrepo hpkg
    rw [tryParseBuildLabel_string_iff_canonical hcp hne horiginal, wf_canonical_iff,
      noPair_append_singleton_iff]
    simp [hpkg, hsubrepo, horiginal]

theorem tryParseBuildLabel_string_core :
    validatePackageName (utf8 "src/core") ∧
      tryParseBuildLabel (utf8 ":core") (utf8 "src/core") =
        some ⟨utf8 "src/core", utf8 "core", []⟩ ∧
      (tryParseBuildLabel (string ⟨utf8 "src/core", utf8 "core", []⟩) (utf8 "src/core") =
          some ⟨utf8 "src/core", utf8 "core", []⟩ ↔
        ReadsBack (utf8 "src/core") (utf8 ":core")) :=
  ⟨by decide, by decide, tryParseBuildLabel_string_iff (by decide) (by decide)⟩

/-- A package, a subrepo with a slash and the original target that are not read back. -/
theorem tryParseBuildLabel_string_not_read_back :
    (∃ label, tryParseBuildLabel (utf8 "//a/.b") (utf8 "src/core") = some label ∧
      tryParseBuildLabel label.string (utf8 "src/core") ≠ some label) ∧
    (∃ label, tryParseBuildLabel (utf8 "@a/:b") (utf8 "src/core") = some label ∧
      tryParseBuildLabel label.string (utf8 "src/core") ≠ some label) ∧
    ∃ label, tryParseBuildLabel (utf8 "//:_ORIGINAL") (utf8 "src/core") = some label ∧
      tryParseBuildLabel label.string (utf8 "src/core") ≠ some label := by
  refine ⟨?_, ?_, ?_⟩
  · exact ⟨⟨utf8 "a/.b", utf8 ".b", []⟩, by decide, by decide⟩
  · exact ⟨⟨utf8 "src/core", utf8 "b", utf8 "a/"⟩, by decide, by decide⟩
  · exact ⟨⟨[], utf8 "_ORIGINAL", []⟩, by decide, by decide⟩

end Please.Core
