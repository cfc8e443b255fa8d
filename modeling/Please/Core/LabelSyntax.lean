import Please.Lib.Search
import Please.Build.RuleHash

/-!
# The syntax of build labels

Model of `ParseBuildLabelParts`, `parseBuildLabelSubrepo` and `TryParseBuildLabel`
(`src/core/build_label.go`, lines 151–236), of the two checks of names (123–133) and of
`BuildLabel.String` (45–64), on byte strings.

A label has six surface forms, `Form`: `:name`, `//pkg:name`, `//pkg`, `//pkg/...`, a subrepo
alone, and a subrepo before another form. A subrepo is marked by `@` or `///`.

* `parse_text`, `exists_form`: the parser accepts the texts of the well-formed forms, and no
  others, and returns their labels.
-/

namespace Please.Core

open Please.Lib Please.Build BuildLabel
open Please.Fs (Bytes)
open List

/-! ## Labels and names -/

/-- `BuildLabel`, on bytes. -/
@[ext]
structure Label where
  packageName : Bytes
  name : Bytes
  subrepo : Bytes
  deriving DecidableEq

def slash : UInt8 := 47

def colon : UInt8 := 58

def dot : UInt8 := 46

/-- The character `@`. -/
def commercialAt : UInt8 := 64

/-- The name `...`. -/
def dots : Bytes := [dot, dot, dot]

/-- The characters that names must not have: `|$*?[]` `:()&\` and braces. -/
def reserved : Bytes := [124, 36, 42, 63, 91, 93, 123, 125, colon, 40, 41, 38, 92]

/-- `strings.ContainsAny`. -/
def containsAny (s chars : Bytes) : Bool := s.any chars.contains

/-- `._build`. -/
def buildDirSuffix : Bytes := [46, 95, 98, 117, 105, 108, 100]

/-- `._test`. -/
def testDirSuffix : Bytes := [46, 95, 116, 101, 115, 116]

/-- `validatePackageName`. -/
def validatePackageName (name : Bytes) : Bool :=
  name.isEmpty || (name.head? ≠ some slash && name.getLast? ≠ some slash &&
    !containsAny name reserved && (index [slash, slash] name).isNone)

/-- `validateTargetName`. -/
def validateTargetName (name : Bytes) : Bool :=
  !name.isEmpty && !containsAny name (slash :: reserved) &&
    (name.head? ≠ some dot || name = dots) &&
    !buildDirSuffix.isSuffixOf name && !testDirSuffix.isSuffixOf name

namespace Label

/-- `OriginalTarget`. -/
def originalTarget : Label := ⟨[], utf8 "_ORIGINAL", []⟩

/-- `BuildLabel.String`. -/
def string (label : Label) : Bytes :=
  if label = ⟨[], [], []⟩ then []
  else if label = originalTarget then utf8 "command-line targets"
  else
    let s := slash :: slash :: label.packageName
    let s := if label.subrepo ≠ [] then slash :: slash :: slash :: label.subrepo ++ s else s
    if label.name = dots then
      if label.packageName = [] then s ++ dots else s ++ slash :: dots
    else s ++ colon :: label.name

/-- What the parser returns for a text that is no label. -/
def fail : Label := ⟨[], [], []⟩

end Label

/-! ## The parser -/

/-- `parseBuildLabelSubrepo`; `parse` is `ParseBuildLabelParts`. -/
def parseBuildLabelSubrepo (parse : Bytes → Bytes → Bytes → Label) (target currentPath : Bytes) :
    Label :=
  let parseAt (idx : ℕ) : Label :=
    if (target.take idx).contains colon then .fail
    else
      let label := parse (target.drop idx) currentPath []
      ⟨label.packageName, label.name, target.take idx⟩
  match index [slash, slash] target with
  | some idx => parseAt idx
  | none =>
    match indexByte colon target with
    | some idx => parseAt idx
    | none =>
      -- if subrepo and target are the same name, then @subrepo syntax will also suffice
      match lastIndexByte slash target with
      | some idx => ⟨[], target.drop (idx + 1), target⟩
      | none => ⟨[], target, target⟩

/-- The last branches of `ParseBuildLabelParts` (lines 199–217), for a target that begins with
two slashes. -/
def parseAbsolute (target subrepo : Bytes) : Label :=
  match indexByte colon target with
  | some idx =>
    let pkg := (target.take idx).drop 2
    let name := target.drop (idx + 1)
    -- Check ... explicitly to prevent :... which isn't allowed.
    if !validatePackageName pkg || !validateTargetName name || name = dots then .fail
    else ⟨pkg, name, subrepo⟩
  | none =>
    if !validatePackageName (target.drop 2) then .fail
    -- Must be the abbreviated form (//pkg) or subtargets (//pkg/...), there's no : in it.
    else if (slash :: dots).isSuffixOf target then
      ⟨((target.take (target.length - 3)).drop 2).rdropWhile (· = slash), dots, []⟩
    else
      match lastIndexByte slash target with
      | some idx => ⟨target.drop 2, target.drop (idx + 1), subrepo⟩
      | none => ⟨target.drop 2, target.drop 2, subrepo⟩

/-- `ParseBuildLabelParts`. Every recursive call is on a shorter text; `fuel` bounds their
depth. -/
def parseBuildLabelParts : (fuel : ℕ) → (target currentPath subrepo : Bytes) → Label
  | 0, _, _, _ => .fail
  | fuel + 1, target, currentPath, subrepo =>
    if target.length < 2 then .fail
    else if target.head? = some colon then
      if !validateTargetName target.tail then .fail else ⟨currentPath, target.tail, []⟩
    else if target.head? = some commercialAt then
      parseBuildLabelSubrepo (parseBuildLabelParts fuel) target.tail currentPath
    else if [slash, slash, slash].isPrefixOf target then
      parseBuildLabelSubrepo (parseBuildLabelParts fuel) (target.drop 3) currentPath
    else if !([slash, slash].isPrefixOf target) then .fail
    else parseAbsolute target subrepo

/-- `TryParseBuildLabel` with an empty subrepo. -/
def tryParseBuildLabel (target currentPath : Bytes) : Option Label :=
  let label := parseBuildLabelParts (target.length + 1) target currentPath []
  if label.name ≠ [] then some label else none

/-! ## Valid names -/

theorem containsAny_eq_false_iff {s chars : Bytes} :
    containsAny s chars = false ↔ ∀ b ∈ chars, b ∉ s := by
  simp only [containsAny, any_eq_false, contains_iff_mem]
  exact ⟨fun h b hb hs => h b hs hb, fun h b hs hb => h b hb hs⟩

theorem validatePackageName_iff {name : Bytes} :
    validatePackageName name ↔ name.head? ≠ some slash ∧ name.getLast? ≠ some slash ∧
      (∀ b ∈ reserved, b ∉ name) ∧ NoPair slash name := by
  rcases eq_or_ne name [] with rfl | hne
  · simp [validatePackageName, NoPair]
  · rw [← index_pair_eq_none_iff, ← containsAny_eq_false_iff]
    simp [validatePackageName, hne, and_assoc]

theorem validateTargetName_iff {name : Bytes} :
    validateTargetName name ↔ name ≠ [] ∧ slash ∉ name ∧ (∀ b ∈ reserved, b ∉ name) ∧
      (name.head? ≠ some dot ∨ name = dots) ∧
      ¬ buildDirSuffix <:+ name ∧ ¬ testDirSuffix <:+ name := by
  have hchars : containsAny name (slash :: reserved) = false ↔
      slash ∉ name ∧ ∀ b ∈ reserved, b ∉ name := by
    rw [containsAny_eq_false_iff, forall_mem_cons]
  unfold validateTargetName
  simp only [Bool.and_eq_true, Bool.not_eq_true', hchars, Bool.or_eq_true, decide_eq_true_eq,
    isEmpty_eq_false_iff, ← isSuffixOf_iff_suffix, Bool.not_eq_true, and_assoc]

theorem colon_mem_reserved : colon ∈ reserved := by decide

section names

variable {pkg name : Bytes}

theorem colon_notMem_of_validatePackageName (h : validatePackageName pkg) : colon ∉ pkg :=
  (validatePackageName_iff.mp h).2.2.1 colon colon_mem_reserved

theorem colon_notMem_of_validateTargetName (h : validateTargetName name) : colon ∉ name :=
  (validateTargetName_iff.mp h).2.2.1 colon colon_mem_reserved

theorem slash_notMem_of_validateTargetName (h : validateTargetName name) : slash ∉ name :=
  (validateTargetName_iff.mp h).2.1

theorem ne_nil_of_validateTargetName (h : validateTargetName name) : name ≠ [] :=
  (validateTargetName_iff.mp h).1

end names

@[simp]
theorem colon_ne_slash : colon ≠ slash := by decide

theorem validatePackageName_append_dots {pkg : Bytes} (hne : pkg ≠ []) :
    validatePackageName (pkg ++ slash :: dots) ↔ validatePackageName pkg := by
  have hhead : (pkg ++ slash :: dots).head? = pkg.head? := by rw [head?_append_of_ne_nil _ hne]
  have hlast : (pkg ++ slash :: dots).getLast? = some dot := by simp [dots]
  have hreserved : ∀ b ∈ reserved, b ∉ slash :: dots := containsAny_eq_false_iff.mp (by decide)
  have hdots : NoPair slash dots := by
    unfold NoPair
    decide
  simp only [validatePackageName_iff, hhead, hlast]
  constructor
  · rintro ⟨hfirst, -, hchars, hpair⟩
    have hend : NoPair slash (pkg ++ [slash]) := by
      rw [show pkg ++ slash :: dots = (pkg ++ [slash]) ++ dots by simp] at hpair
      exact hpair.left
    exact ⟨hfirst, (noPair_append_singleton_iff.mp hend).2,
      fun b hb hmem => hchars b hb (mem_append_left _ hmem), hpair.left⟩
  · rintro ⟨hfirst, hend, hchars, hpair⟩
    refine ⟨hfirst, by decide, fun b hb hmem => ?_, ?_⟩
    · exact (mem_append.mp hmem).elim (hchars b hb) (hreserved b hb)
    · rw [show pkg ++ slash :: dots = (pkg ++ [slash]) ++ dots by simp]
      refine isChain_append.mpr
        ⟨noPair_append_singleton_iff.mpr ⟨hpair, hend⟩, hdots, ?_⟩
      rintro a - b hb ⟨-, rfl⟩
      exact absurd hb (by decide)

/-! ## The last part of a path -/

/-- The part of a path after its last slash. -/
def base (path : Bytes) : Bytes := path.rtakeWhile (· ≠ slash)

theorem base_append_cons {u v : Bytes} (hv : slash ∉ v) : base (u ++ slash :: v) = v :=
  rtakeWhile_append_cons (by simp) fun b hb => by
    simpa using fun h : b = slash => hv (h ▸ hb)

theorem base_of_notMem {v : Bytes} (hv : slash ∉ v) : base v = v :=
  rtakeWhile_eq_self_iff.mpr fun b hb => by simpa using fun h : b = slash => hv (h ▸ hb)

/-- What `strings.LastIndexByte` finds is the place before the last part. -/
theorem lastIndexByte_slash {path : Bytes} {idx : ℕ} (h : lastIndexByte slash path = some idx) :
    slash ∉ base path ∧ path = path.take idx ++ slash :: base path ∧
      path.drop (idx + 1) = base path := by
  obtain ⟨u, v, rfl, hv, rfl⟩ := lastIndexByte_eq_some_iff.mp h
  rw [base_append_cons hv]
  exact ⟨hv, by simp, by simp⟩

theorem base_slash_cons (path : Bytes) : base (slash :: path) = base path := by
  cases h : lastIndexByte slash path with
  | none =>
    have hnot := lastIndexByte_eq_none_iff.mp h
    rw [base_of_notMem hnot]
    exact base_append_cons (u := []) hnot
  | some idx =>
    obtain ⟨hnot, hpath, -⟩ := lastIndexByte_slash h
    calc base (slash :: path)
        = base ((slash :: path.take idx) ++ slash :: base path) := by
          rw [cons_append, ← hpath]
      _ = base path := base_append_cons hnot

/-! ## The grammar of labels -/

/-- The two marks of a subrepo. -/
inductive Marker
  | atSign
  | slashes
  deriving DecidableEq

def Marker.text : Marker → Bytes
  | .atSign => [commercialAt]
  | .slashes => [slash, slash, slash]

/-- The surface forms of a label. -/
inductive Form
  /-- `:name` -/
  | here (name : Bytes)
  /-- `//pkg:name` -/
  | target (pkg name : Bytes)
  /-- `//pkg` -/
  | package (pkg : Bytes)
  /-- `//pkg/...` -/
  | all (pkg : Bytes)
  /-- `@subrepo` -/
  | subrepoOnly (marker : Marker) (subrepo : Bytes)
  /-- `@subrepo//pkg:name`, `@subrepo:name` and the others -/
  | inSubrepo (marker : Marker) (subrepo : Bytes) (rest : Form)

namespace Form

/-- How a form is spelt. -/
def text : Form → Bytes
  | here name => colon :: name
  | target pkg name => slash :: slash :: (pkg ++ colon :: name)
  | package pkg => slash :: slash :: pkg
  | all pkg => slash :: slash :: (if pkg = [] then dots else pkg ++ slash :: dots)
  | subrepoOnly marker subrepo => marker.text ++ subrepo
  | inSubrepo marker subrepo rest => marker.text ++ subrepo ++ rest.text

/-- The label that a form stands for in the package `currentPath`. Only the outermost subrepo
counts. -/
def label (currentPath : Bytes) : Form → Label
  | here name => ⟨currentPath, name, []⟩
  | target pkg name => ⟨pkg, name, []⟩
  | package pkg => ⟨pkg, base pkg, []⟩
  | all pkg => ⟨pkg, dots, []⟩
  | subrepoOnly _ subrepo => ⟨[], base subrepo, subrepo⟩
  | inSubrepo _ subrepo rest =>
    ⟨(rest.label currentPath).packageName, (rest.label currentPath).name, subrepo⟩

/-- The rules on the parts of a form. The subrepo ends at the first two slashes, or at the
colon if there are none. -/
def WF : Form → Prop
  | here name => validateTargetName name
  | target pkg name => validatePackageName pkg ∧ validateTargetName name ∧ name ≠ dots
  | package pkg => validatePackageName pkg ∧ pkg ≠ [] ∧ base pkg ≠ dots
  | all pkg => validatePackageName pkg
  | subrepoOnly _ subrepo => subrepo ≠ [] ∧ colon ∉ subrepo ∧ NoPair slash (subrepo ++ [slash])
  | inSubrepo _ subrepo rest =>
    colon ∉ subrepo ∧ rest.WF ∧
      ((∃ name, rest = here name) ∧ NoPair slash subrepo ∨
        [slash, slash] <+: rest.text ∧ NoPair slash (subrepo ++ [slash]))

end Form

/-! ## Absolute labels -/

section absolute

variable {pkg name path subrepo : Bytes}

theorem parseAbsolute_of_colon (h : colon ∉ pkg) :
    parseAbsolute (slash :: slash :: (pkg ++ colon :: name)) subrepo =
      if !validatePackageName pkg || !validateTargetName name || name = dots then .fail
      else ⟨pkg, name, subrepo⟩ := by
  have hcolon : indexByte colon (slash :: slash :: (pkg ++ colon :: name)) =
      some (pkg.length + 2) :=
    indexByte_append_cons (slash :: slash :: pkg) name (by simp [h])
  unfold parseAbsolute
  simp [hcolon]

/-- Without a colon, the last part of the path decides. -/
theorem parseAbsolute_of_notMem (h : colon ∉ path) :
    parseAbsolute (slash :: slash :: path) subrepo =
      if !validatePackageName path then .fail
      else if base path = dots then
        ⟨((slash :: slash :: path).take (path.length - 1)).drop 2 |>.rdropWhile (· = slash), dots,
          []⟩
      else ⟨path, base path, subrepo⟩ := by
  have hcolon : indexByte colon (slash :: slash :: path) = none :=
    indexByte_eq_none_iff.mpr (by simp [h])
  obtain ⟨idx, hidx⟩ : ∃ idx, lastIndexByte slash (slash :: slash :: path) = some idx := by
    rw [← Option.ne_none_iff_exists', Ne, lastIndexByte_eq_none_iff]
    simp
  obtain ⟨-, hpath, hdrop⟩ := lastIndexByte_slash hidx
  rw [base_slash_cons, base_slash_cons] at hpath hdrop
  have hsuffix : (slash :: dots).isSuffixOf (slash :: slash :: path) = true ↔ base path = dots := by
    rw [isSuffixOf_iff_suffix]
    constructor
    · rintro ⟨u, hu⟩
      rw [← base_slash_cons path, ← base_slash_cons (slash :: path), ← hu]
      exact base_append_cons (by decide)
    · intro hbase
      rw [hbase] at hpath
      exact ⟨_, hpath.symm⟩
  unfold parseAbsolute
  simp only [hcolon, hsuffix, hidx, hdrop]
  simp

theorem rdropWhile_slash (h : validatePackageName pkg) :
    (pkg ++ [slash]).rdropWhile (· = slash) = pkg := by
  rw [rdropWhile_concat_pos _ _ _ (by simp), rdropWhile_eq_self_iff]
  intro hne
  have hlast := (validatePackageName_iff.mp h).2.1
  rw [getLast?_eq_some_getLast hne] at hlast
  simpa using hlast

theorem parseAbsolute_all (h : validatePackageName pkg) :
    parseAbsolute (Form.all pkg).text subrepo = ⟨pkg, dots, []⟩ := by
  rcases eq_or_ne pkg [] with rfl | hne
  · rfl
  · have hvalid := (validatePackageName_append_dots hne).mpr h
    have hbase : base (pkg ++ slash :: dots) = dots := base_append_cons (by decide)
    have htake : ((slash :: slash :: (pkg ++ slash :: dots)).take
        ((pkg ++ slash :: dots).length - 1)).drop 2 = pkg ++ [slash] := by
      rw [show (pkg ++ slash :: dots).length - 1 = pkg.length + 1 + 1 + 1 by simp [dots]]
      rw [take_succ_cons, take_succ_cons, take_length_add_append]
      rfl
    rw [Form.text, if_neg hne,
      parseAbsolute_of_notMem (colon_notMem_of_validatePackageName hvalid), hbase, htake,
      rdropWhile_slash h]
    simp [hvalid]

/-- Every absolute label that the parser accepts has one of the three forms. -/
theorem exists_form_of_parseAbsolute
    (h : (parseAbsolute (slash :: slash :: path) []).name ≠ []) :
    ∃ f : Form, f.WF ∧ f.text = slash :: slash :: path ∧
      ∀ currentPath, f.label currentPath = parseAbsolute (slash :: slash :: path) [] := by
  by_cases hcolon : colon ∈ path
  · obtain ⟨pkg, name, rfl, hpkg⟩ := eq_append_cons_of_mem hcolon
    rw [parseAbsolute_of_colon hpkg] at h ⊢
    split_ifs at h ⊢ with hbad
    · exact absurd rfl h
    · refine ⟨.target pkg name, ?_, rfl, fun _ => rfl⟩
      simpa [Form.WF, and_assoc] using hbad
  · rw [parseAbsolute_of_notMem hcolon] at h
    split_ifs at h with hbad hbase
    · exact absurd rfl h
    · have hvalid : validatePackageName path := by simpa using hbad
      obtain ⟨pkg, hpkg, hpath⟩ : ∃ pkg, validatePackageName pkg ∧
          path = if pkg = [] then dots else pkg ++ slash :: dots := by
        cases hidx : lastIndexByte slash path with
        | none =>
          refine ⟨[], rfl, ?_⟩
          rw [if_pos rfl, ← hbase, base_of_notMem (lastIndexByte_eq_none_iff.mp hidx)]
        | some idx =>
          obtain ⟨-, hcut, -⟩ := lastIndexByte_slash hidx
          rw [hbase] at hcut
          -- a package name does not begin with a slash
          have hne : path.take idx ≠ [] := by
            intro hnil
            rw [hnil] at hcut
            exact (validatePackageName_iff.mp hvalid).1 (by rw [hcut]; rfl)
          refine ⟨path.take idx, ?_, by rwa [if_neg hne]⟩
          rwa [← validatePackageName_append_dots hne, ← hcut]
      have htext : (Form.all pkg).text = slash :: slash :: path := by rw [Form.text, ← hpath]
      refine ⟨.all pkg, hpkg, htext, fun _ => ?_⟩
      rw [← htext, parseAbsolute_all hpkg]
      rfl
    · have hvalid : validatePackageName path := by simpa using hbad
      refine ⟨.package path, ⟨hvalid, ?_, hbase⟩, rfl, fun _ => ?_⟩
      · rintro rfl
        exact h rfl
      · rw [parseAbsolute_of_notMem hcolon]
        simp [hvalid, hbase, Form.label]

end absolute

/-! ## The parser and the grammar -/

namespace Form

/-- No label has fewer than two characters. -/
theorem two_le_length_text {f : Form} (h : f.WF) : 2 ≤ f.text.length := by
  induction f with
  | here =>
    have := length_pos_iff.mpr (ne_nil_of_validateTargetName h)
    simp only [text, length_cons]
    omega
  | target | package | all => simp [text]
  | subrepoOnly marker =>
    have := length_pos_iff.mpr h.1
    cases marker <;> simp only [text, Marker.text, length_append, length_cons] <;> omega
  | inSubrepo _ _ _ ih =>
    have := ih h.2.1
    simp only [text, length_append]
    omega

/-- Only one form begins with a colon. -/
theorem exists_here_of_head {f : Form} (h : f.text.head? = some colon) : ∃ name, f = here name := by
  cases f with
  | here name => exact ⟨name, rfl⟩
  | target | package | all => exact absurd h (by simp [text, eq_comm])
  | subrepoOnly marker | inSubrepo marker =>
    cases marker <;> exact absurd h (by simp [text, Marker.text]; decide)

end Form

/-- A label that begins with two slashes and no third. -/
theorem parseBuildLabelParts_absolute {path currentPath subrepo : Bytes} (fuel : ℕ)
    (h : path.head? ≠ some slash) :
    parseBuildLabelParts (fuel + 1) (slash :: slash :: path) currentPath subrepo =
      parseAbsolute (slash :: slash :: path) subrepo := by
  have hthree : [slash, slash, slash].isPrefixOf (slash :: slash :: path) = false := by
    cases path with
    | nil => rfl
    | cons b =>
      have hb : slash ≠ b := fun hb => h (by rw [hb]; rfl)
      simp [isPrefixOf, hb]
  have hcolon : ¬ some slash = some colon := by decide
  have hat : ¬ some slash = some commercialAt := by decide
  simp [parseBuildLabelParts, hthree, hcolon, hat]

/-- After its mark, a subrepo is parsed by `parseBuildLabelSubrepo`. -/
theorem parseBuildLabelParts_marker {target currentPath subrepo : Bytes} (fuel : ℕ)
    (marker : Marker) (h : 2 ≤ (marker.text ++ target).length) :
    parseBuildLabelParts (fuel + 1) (marker.text ++ target) currentPath subrepo =
      parseBuildLabelSubrepo (parseBuildLabelParts fuel) target currentPath := by
  have hcolon : ¬ some commercialAt = some colon := by decide
  have hcolon' : ¬ some slash = some colon := by decide
  have hat : ¬ some slash = some commercialAt := by decide
  cases marker with
  | atSign =>
    have hlen : ¬ (commercialAt :: target).length < 2 := not_lt.mpr h
    simp only [Marker.text, cons_append, nil_append, parseBuildLabelParts, hlen, if_false,
      head?_cons, hcolon, if_true, tail_cons]
  | slashes => simp [Marker.text, parseBuildLabelParts, hcolon', hat]

section subrepo

variable {parse : Bytes → Bytes → Bytes → Label} {subrepo rest currentPath target : Bytes}

theorem parseBuildLabelSubrepo_only (hcolon : colon ∉ subrepo)
    (hpair : NoPair slash subrepo) :
    parseBuildLabelSubrepo parse subrepo currentPath = ⟨[], base subrepo, subrepo⟩ := by
  unfold parseBuildLabelSubrepo
  rw [index_pair_eq_none_iff.mpr hpair, indexByte_eq_none_iff.mpr hcolon]
  cases hidx : lastIndexByte slash subrepo with
  | none => simp [base_of_notMem (lastIndexByte_eq_none_iff.mp hidx)]
  | some => simp [(lastIndexByte_slash hidx).2.2]

theorem parseBuildLabelSubrepo_slashes (hpair : NoPair slash (subrepo ++ [slash])) :
    parseBuildLabelSubrepo parse (subrepo ++ slash :: slash :: rest) currentPath =
      if colon ∈ subrepo then .fail
      else
        ⟨(parse (slash :: slash :: rest) currentPath []).packageName,
          (parse (slash :: slash :: rest) currentPath []).name, subrepo⟩ := by
  unfold parseBuildLabelSubrepo
  rw [index_pair_append _ _ hpair]
  simp

theorem parseBuildLabelSubrepo_colon (hcolon : colon ∉ subrepo)
    (hpair : NoPair slash (subrepo ++ colon :: rest)) :
    parseBuildLabelSubrepo parse (subrepo ++ colon :: rest) currentPath =
      ⟨(parse (colon :: rest) currentPath []).packageName,
        (parse (colon :: rest) currentPath []).name, subrepo⟩ := by
  unfold parseBuildLabelSubrepo
  rw [index_pair_eq_none_iff.mpr hpair, indexByte_append_cons _ _ hcolon]
  simp [hcolon]

end subrepo

/-- The parser accepts every well-formed text, and gives the label that it stands for. -/
theorem parse_text {f : Form} (h : f.WF) (currentPath : Bytes) {fuel : ℕ}
    (hfuel : f.text.length ≤ fuel) :
    parseBuildLabelParts (fuel + 1) f.text currentPath [] = f.label currentPath := by
  induction f generalizing fuel with
  | here name =>
    have hlen : ¬ (colon :: name).length < 2 := not_lt.mpr (Form.two_le_length_text h)
    simp only [Form.text, parseBuildLabelParts, hlen, if_false, head?_cons, if_true, tail_cons]
    simp [show validateTargetName name from h, Form.label]
  | target pkg name =>
    obtain ⟨hpkg, hname, hdots⟩ := h
    have hhead : (pkg ++ colon :: name).head? ≠ some slash := by
      cases pkg with
      | nil => simp
      | cons => exact (validatePackageName_iff.mp hpkg).1
    rw [Form.text, parseBuildLabelParts_absolute _ hhead,
      parseAbsolute_of_colon (colon_notMem_of_validatePackageName hpkg)]
    simp [hpkg, hname, hdots, Form.label]
  | package =>
    obtain ⟨hpkg, -, hdots⟩ := h
    rw [Form.text, parseBuildLabelParts_absolute _ (validatePackageName_iff.mp hpkg).1,
      parseAbsolute_of_notMem (colon_notMem_of_validatePackageName hpkg)]
    simp [hpkg, hdots, Form.label]
  | all pkg =>
    have hhead : (if pkg = [] then dots else pkg ++ slash :: dots).head? ≠ some slash := by
      cases pkg with
      | nil => decide
      | cons => exact (validatePackageName_iff.mp h).1
    rw [Form.label, ← @parseAbsolute_all pkg [] h, Form.text, parseBuildLabelParts_absolute _ hhead]
  | subrepoOnly marker =>
    rw [Form.text, parseBuildLabelParts_marker fuel marker (Form.two_le_length_text h),
      parseBuildLabelSubrepo_only h.2.1 h.2.2.left, Form.label]
  | inSubrepo marker _ _ ih =>
    have hlen := Form.two_le_length_text h
    obtain ⟨hcolon, hrest, hcut⟩ := h
    have hmarker : 0 < marker.text.length := by cases marker <;> decide
    simp only [Form.text, append_assoc] at hfuel hlen ⊢
    rw [length_append, length_append] at hfuel
    obtain ⟨fuel, rfl⟩ : ∃ n, fuel = n + 1 := ⟨fuel - 1, by omega⟩
    have hlabel := @ih hrest fuel (by omega)
    rw [parseBuildLabelParts_marker _ marker hlen]
    rcases hcut with ⟨⟨name, rfl⟩, hpair⟩ | ⟨⟨path, hpath⟩, hpair⟩
    · have hname := noPair_of_notMem (slash_notMem_of_validateTargetName hrest)
      rw [Form.text] at hlabel ⊢
      rw [parseBuildLabelSubrepo_colon hcolon (hpair.append_cons colon_ne_slash hname), hlabel]
      rfl
    · rw [← hpath, cons_append, singleton_append] at hlabel ⊢
      rw [parseBuildLabelSubrepo_slashes hpair, hlabel, if_neg hcolon]
      rfl

/-- What follows the mark of a subrepo, when it is accepted, is a subrepo alone or a subrepo
before a label. -/
theorem exists_form_of_subrepo {parse : Bytes → Bytes → Bytes → Label}
    {target currentPath : Bytes} (marker : Marker)
    (hparse : ∀ t, (parse t currentPath []).name ≠ [] →
      ∃ f : Form, f.WF ∧ f.text = t ∧ f.label currentPath = parse t currentPath [])
    (h : (parseBuildLabelSubrepo parse target currentPath).name ≠ []) :
    ∃ f : Form, f.WF ∧ f.text = marker.text ++ target ∧
      f.label currentPath = parseBuildLabelSubrepo parse target currentPath := by
  cases hidx : index [slash, slash] target with
  | some =>
    obtain ⟨subrepo, path, rfl, hpair, -⟩ := index_pair_eq_some_iff.mp hidx
    rw [parseBuildLabelSubrepo_slashes hpair] at h ⊢
    split_ifs at h ⊢ with hcolon
    · exact absurd rfl h
    · obtain ⟨rest, hrest, htext, hlabel⟩ := hparse _ h
      refine ⟨.inSubrepo marker subrepo rest, ⟨hcolon, hrest, .inr ⟨?_, hpair⟩⟩, ?_, ?_⟩
      · exact ⟨path, htext.symm⟩
      · rw [Form.text, htext, append_assoc]
      · rw [Form.label, hlabel]
  | none =>
    have hpair := index_pair_eq_none_iff.mp hidx
    by_cases hmem : colon ∈ target
    · obtain ⟨subrepo, name, rfl, hcolon⟩ := eq_append_cons_of_mem hmem
      rw [parseBuildLabelSubrepo_colon hcolon hpair] at h ⊢
      obtain ⟨rest, hrest, htext, hlabel⟩ := hparse _ h
      have hhere := Form.exists_here_of_head (f := rest) (by rw [htext]; rfl)
      refine ⟨.inSubrepo marker subrepo rest, ⟨hcolon, hrest, .inl ⟨hhere, hpair.left⟩⟩, ?_, ?_⟩
      · rw [Form.text, htext, append_assoc]
      · rw [Form.label, hlabel]
    · rw [parseBuildLabelSubrepo_only hmem hpair] at h ⊢
      have hlast : target.getLast? ≠ some slash := by
        intro hlast
        obtain ⟨u, rfl⟩ := getLast?_eq_some_iff.mp hlast
        exact h (base_append_cons (by simp))
      refine ⟨.subrepoOnly marker target, ⟨?_, hmem, ?_⟩, rfl, rfl⟩
      · rintro rfl
        exact h rfl
      · exact noPair_append_singleton_iff.mpr ⟨hpair, hlast⟩

/-- The parser accepts nothing else. -/
theorem exists_form (fuel : ℕ) {target currentPath : Bytes}
    (h : (parseBuildLabelParts fuel target currentPath []).name ≠ []) :
    ∃ f : Form, f.WF ∧ f.text = target ∧
      f.label currentPath = parseBuildLabelParts fuel target currentPath [] := by
  induction fuel generalizing target with
  | zero => exact absurd rfl h
  | succ fuel ih =>
    by_cases hlen : target.length < 2
    · exact absurd (by simp [parseBuildLabelParts, hlen, Label.fail]) h
    have hparse : ∀ t, (parseBuildLabelParts fuel t currentPath []).name ≠ [] →
        ∃ f : Form, f.WF ∧ f.text = t ∧
          f.label currentPath = parseBuildLabelParts fuel t currentPath [] := fun t => ih
    -- the five ways in which a label can begin
    by_cases hcolon : target.head? = some colon
    · obtain ⟨name, rfl⟩ := head?_eq_some_iff.mp hcolon
      rw [parseBuildLabelParts, if_neg hlen, if_pos hcolon, tail_cons] at h ⊢
      split_ifs at h ⊢ with hname
      · exact absurd rfl h
      · exact ⟨.here name, by simpa [Form.WF] using hname, rfl, rfl⟩
    by_cases hat : target.head? = some commercialAt
    · obtain ⟨target, rfl⟩ := head?_eq_some_iff.mp hat
      have hmarker := @parseBuildLabelParts_marker target currentPath [] fuel .atSign
        (not_lt.mp hlen)
      rw [Marker.text, singleton_append] at hmarker
      rw [hmarker] at h ⊢
      exact exists_form_of_subrepo .atSign hparse h
    by_cases hthree : [slash, slash, slash].isPrefixOf target
    · obtain ⟨target, rfl⟩ := isPrefixOf_iff_prefix.mp hthree
      have hmarker := @parseBuildLabelParts_marker target currentPath [] fuel .slashes
        (not_lt.mp hlen)
      rw [Marker.text] at hmarker
      exact exists_form_of_subrepo .slashes hparse h
    rw [parseBuildLabelParts, if_neg hlen, if_neg hcolon, if_neg hat, if_neg hthree] at h ⊢
    split_ifs at h ⊢ with htwo
    · exact absurd rfl h
    · obtain ⟨path, rfl⟩ : [slash, slash] <+: target := by simpa using htwo
      obtain ⟨f, hf, htext, hlabel⟩ := exists_form_of_parseAbsolute h
      exact ⟨f, hf, htext, hlabel currentPath⟩

theorem base_ne_nil {path : Bytes} (hne : path ≠ []) (hlast : path.getLast? ≠ some slash) :
    base path ≠ [] := by
  intro h
  rw [getLast?_eq_some_getLast hne] at hlast
  exact rtakeWhile_eq_nil_iff.mp h hne (by simpa using hlast)

theorem Form.label_name_ne_nil {f : Form} (h : f.WF) (currentPath : Bytes) :
    (f.label currentPath).name ≠ [] := by
  induction f with
  | here => exact ne_nil_of_validateTargetName h
  | target => exact ne_nil_of_validateTargetName h.2.1
  | package => exact base_ne_nil h.2.1 (validatePackageName_iff.mp h.1).2.1
  | all => exact cons_ne_nil _ _
  | subrepoOnly => exact base_ne_nil h.1 (noPair_append_singleton_iff.mp h.2.2).2
  | inSubrepo _ _ _ ih => exact ih h.2.1

theorem tryParseBuildLabel_eq_some_iff {target currentPath : Bytes} {label : Label} :
    tryParseBuildLabel target currentPath = some label ↔
      ∃ f : Form, f.WF ∧ f.text = target ∧ f.label currentPath = label := by
  unfold tryParseBuildLabel
  constructor
  · intro h
    dsimp only at h
    split_ifs at h with hname
    obtain ⟨f, hf, htext, hlabel⟩ := exists_form _ hname
    exact ⟨f, hf, htext, hlabel.trans (Option.some.inj h)⟩
  · rintro ⟨f, hf, rfl, rfl⟩
    simp only [parse_text hf currentPath le_rfl]
    rw [if_pos (Form.label_name_ne_nil hf currentPath)]

/-- A form stands for one label everywhere, or for one of the package it is read in. -/
theorem Form.label_cases (f : Form) :
    (∀ p q, f.label p = f.label q) ∨ ∃ name subrepo, ∀ p, f.label p = ⟨p, name, subrepo⟩ := by
  induction f with
  | here name => exact .inr ⟨name, [], fun _ => rfl⟩
  | inSubrepo _ subrepo rest ih =>
    rcases ih with habs | ⟨name, _, hrel⟩
    · exact .inl fun p q => by rw [label, label, habs p q]
    · exact .inr ⟨name, subrepo, fun p => by rw [label, hrel]⟩
  | _ => exact .inl fun _ _ => rfl

/-- **Absolute and relative labels.** A text is read as the same label in every package, or it is
not read in any, or it names in every package a target of that package. -/
theorem tryParseBuildLabel_absolute_or_relative (target : Bytes) :
    (∀ p q, tryParseBuildLabel target p = tryParseBuildLabel target q) ∨
      ∃ name subrepo, ∀ p, tryParseBuildLabel target p = some ⟨p, name, subrepo⟩ := by
  by_cases h : ∃ f : Form, f.WF ∧ f.text = target
  · obtain ⟨f, hf, rfl⟩ := h
    have hread (p : Bytes) : tryParseBuildLabel f.text p = some (f.label p) :=
      tryParseBuildLabel_eq_some_iff.mpr ⟨f, hf, rfl, rfl⟩
    simpa only [hread, Option.some_inj] using f.label_cases
  · have hnone (p : Bytes) : tryParseBuildLabel target p = none :=
      Option.eq_none_iff_forall_ne_some.mpr fun label hl =>
        h ((tryParseBuildLabel_eq_some_iff.mp hl).imp fun _ hf => ⟨hf.1, hf.2.1⟩)
    exact .inl fun p q => (hnone p).trans (hnone q).symm

end Please.Core
