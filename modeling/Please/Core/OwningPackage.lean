import Please.Core.Target
import Please.Fs.Path
import Mathlib.Data.List.Infix
import Mathlib.Tactic.Tauto

/-!
# The package that owns a file

Model of `FindOwningPackage` (`src/core/package.go`, lines 269–281). It takes one component after
another off the path of the directory until it comes to `.`: from a rooted path it never does, and
from a path that begins with `..` it comes by directories that are not above the file.

* `owner_found_iff`: when the search ends and returns the nearest package above the file.
-/

namespace Please.Core

open Please.Fs List

/-- `fs.IsPackage`. -/
def isPackage (fileExists : CleanPath → Bool) (buildFileNames : List String)
    (f : CleanPath) : Bool :=
  buildFileNames.any fun name => fileExists (joinPath f.text name)

/-- The label for the package in a directory. -/
def packageLabel (f : CleanPath) : BuildLabel := ⟨f.text, "all", ""⟩

/-- The label of the root package. -/
def rootLabel : BuildLabel := ⟨"", "all", ""⟩

/-- The loop. `path.Dir` of a clean path takes off its last component, if it has one. -/
def climb (package : CleanPath → Bool) : ℕ → CleanPath → Option BuildLabel
  | 0, _ => none
  | fuel + 1, f =>
    if f = ⟨false, []⟩ then some rootLabel
    else if package f then some (packageLabel f)
    else climb package fuel { f with path := f.path.dropLast }

/-- `FindOwningPackage`, if it ends. -/
def findOwningPackage (fileExists : CleanPath → Bool) (buildFileNames : List String) (fuel : ℕ)
    (file : String) : Option BuildLabel :=
  climb (isPackage fileExists buildFileNames) fuel (dirOf file)

/-! ## The nearest package -/

/-- The directory above another. -/
def parentDir (f : CleanPath) : CleanPath :=
  if f.rooted ∨ f.path.getLastD "..".toList ≠ "..".toList then { f with path := f.path.dropLast }
  else { f with path := f.path ++ ["..".toList] }

/-- The `n`th directory above is still not the root of the repository. -/
def Outside (f : CleanPath) (n : ℕ) : Prop := ∀ m ≤ n, parentDir^[m] f ≠ ⟨false, []⟩

/-- The label is that of the nearest package among a directory and those above it, up to the root of
the repository, or else that of the root package. -/
def IsOwner (package : CleanPath → Bool) (f : CleanPath) (l : BuildLabel) : Prop :=
  (∃ n, Outside f n ∧ (∀ m < n, package (parentDir^[m] f) = false) ∧
    package (parentDir^[n] f) = true ∧ l = packageLabel (parentDir^[n] f)) ∨
  (∀ n, Outside f n → package (parentDir^[n] f) = false) ∧ l = rootLabel

variable {package : CleanPath → Bool} {f : CleanPath} {l : BuildLabel}

theorem outside_succ (hf : f ≠ ⟨false, []⟩) {n : ℕ} :
    Outside f (n + 1) ↔ Outside (parentDir f) n := by
  constructor
  · exact fun h m hm => h (m + 1) (Nat.succ_le_succ hm)
  · intro h m hm
    cases m with
    | zero => exact hf
    | succ m => exact h m (Nat.le_of_succ_le_succ hm)

theorem isOwner_root : IsOwner package ⟨false, []⟩ l ↔ l = rootLabel := by
  have hout (n : ℕ) : ¬ Outside ⟨false, []⟩ n := fun h => h 0 (Nat.zero_le _) rfl
  simp [IsOwner, hout]

theorem isOwner_of_package (hf : f ≠ ⟨false, []⟩) (h : package f = true) :
    IsOwner package f l ↔ l = packageLabel f := by
  have hzero : Outside f 0 := fun m hm => by simpa [Nat.le_zero.mp hm] using hf
  constructor
  · rintro (⟨n, -, hbefore, -, rfl⟩ | ⟨hnone, -⟩)
    · cases n with
      | zero => rfl
      | succ n =>
        have hfalse := hbefore 0 (Nat.zero_lt_succ n)
        exact absurd (hfalse.symm.trans h) (by decide)
    · exact absurd ((hnone 0 hzero).symm.trans h) (by decide)
  · rintro rfl
    exact .inl ⟨0, hzero, by simp, h, rfl⟩

/-- Past a directory that is no package. -/
theorem isOwner_parent (hf : f ≠ ⟨false, []⟩) (h : package f = false) :
    IsOwner package f l ↔ IsOwner package (parentDir f) l := by
  refine or_congr ⟨?_, ?_⟩ (and_congr_left' ⟨?_, ?_⟩)
  · rintro ⟨n, hout, hbefore, hpkg, rfl⟩
    cases n with
    | zero => exact absurd (h.symm.trans hpkg) (by decide)
    | succ n =>
      exact ⟨n, (outside_succ hf).mp hout, fun m hm =>
        hbefore (m + 1) (Nat.succ_lt_succ hm), hpkg, rfl⟩
  · rintro ⟨n, hout, hbefore, hpkg, rfl⟩
    refine ⟨n + 1, (outside_succ hf).mpr hout, fun m hm => ?_, hpkg, rfl⟩
    cases m with
    | zero => exact h
    | succ m => exact hbefore m (Nat.lt_of_succ_lt_succ hm)
  · exact fun hnone n hout => hnone (n + 1) ((outside_succ hf).mpr hout)
  · intro hnone n hout
    cases n with
    | zero => exact h
    | succ n => exact hnone n ((outside_succ hf).mp hout)

/-! ## The search -/

variable (package) in
/-- The search ends with a label. -/
def Found (f : CleanPath) (l : BuildLabel) : Prop := ∃ fuel, climb package fuel f = some l

theorem found_iff : Found package f l ↔ ∃ fuel, climb package (fuel + 1) f = some l := by
  constructor
  · rintro ⟨_ | fuel, h⟩
    · cases h
    · exact ⟨fuel, h⟩
  · exact fun ⟨fuel, h⟩ => ⟨fuel + 1, h⟩

theorem found_root : Found package ⟨false, []⟩ l ↔ l = rootLabel := by
  simp [found_iff, climb, eq_comm]

theorem found_of_package (hf : f ≠ ⟨false, []⟩) (h : package f = true) :
    Found package f l ↔ l = packageLabel f := by
  simp [found_iff, climb, hf, h, eq_comm]

theorem found_dropLast (hf : f ≠ ⟨false, []⟩) (h : package f = false) :
    Found package f l ↔ Found package { f with path := f.path.dropLast } l := by
  rw [found_iff]
  simp [climb, hf, h, Found]

theorem not_found_root (h : package ⟨true, []⟩ = false) : ¬ Found package ⟨true, []⟩ l := by
  rintro ⟨fuel, hfound⟩
  induction fuel with
  | zero => cases hfound
  | succ fuel ih => exact ih (by simpa [climb, h] using hfound)

/-- The directories on a path, but those that are passed after a `..` is taken off. -/
def above (f : CleanPath) : List CleanPath :=
  (f.path.inits.filter (f.path.count "..".toList ≤ ·.length)).map (CleanPath.mk f.rooted)

/-- `n` times `..`. -/
def ups (n : ℕ) : CleanPath := ⟨false, replicate n "..".toList⟩

variable (package) in
/-- A directory above the file is found to be a package; or the path is relative and, if it begins
with `..`, no directory above the root of the repository is a package. -/
def Findable (f : CleanPath) : Prop :=
  (∃ g ∈ above f, package g = true) ∨ f.rooted = false ∧
    ("..".toList ∈ f.path → ∀ k > 0, package (ups k) = false)

theorem above_concat {rooted : Bool} {path : Path} {c : List Char} (hc : c ≠ "..".toList) :
    above ⟨rooted, path ++ [c]⟩ = above ⟨rooted, path⟩ ++ [⟨rooted, path ++ [c]⟩] := by
  have hcount : (path ++ [c]).count "..".toList = path.count "..".toList := by
    rw [count_append, count_eq_zero.mpr (mt mem_singleton.mp hc.symm), Nat.add_zero]
  have hle : path.count "..".toList ≤ path.length + 1 := count_le_length.trans (Nat.le_succ _)
  have hinits : (path ++ [c]).inits = path.inits ++ [path ++ [c]] := by simp [inits_append]
  rw [above, hcount, hinits, filter_append, map_append, filter_cons_of_pos (by simpa using hle)]
  rfl

theorem findable_concat {rooted : Bool} {path : Path} {c : List Char} (hc : c ≠ "..".toList) :
    Findable package ⟨rooted, path ++ [c]⟩ ↔
      package ⟨rooted, path ++ [c]⟩ = true ∨ Findable package ⟨rooted, path⟩ := by
  have hmem : "..".toList ∈ path ++ [c] ↔ "..".toList ∈ path := by
    rw [mem_append, or_iff_left (mt mem_singleton.mp hc.symm)]
  simp only [Findable, above_concat hc, mem_append, mem_singleton, hmem, or_and_right, exists_or,
    exists_eq_left]
  rw [or_right_comm, or_comm]

/-- It is enough to look at the path without the components that are no `..`. -/
theorem ownerFound_concat {rooted : Bool} {path below : Path} (hbelow : Plain below)
    (h : (∃ l, Found package ⟨rooted, path⟩ l ∧ IsOwner package ⟨rooted, path⟩ l) ↔
      Findable package ⟨rooted, path⟩) :
    (∃ l, Found package ⟨rooted, path ++ below⟩ l ∧ IsOwner package ⟨rooted, path ++ below⟩ l) ↔
      Findable package ⟨rooted, path ++ below⟩ := by
  induction below using reverseRecOn with
  | nil => simpa using h
  | append_singleton below c ih =>
    obtain ⟨hbelow, hc⟩ := forall_mem_append.mp hbelow
    have hup : c ≠ "..".toList := (hc c (mem_singleton_self c)).2
    rw [← append_assoc, findable_concat hup, ← ih hbelow]
    have hne : (⟨rooted, path ++ below ++ [c]⟩ : CleanPath) ≠ ⟨false, []⟩ := by simp
    cases hpkg : package ⟨rooted, path ++ below ++ [c]⟩ with
    | true => simp only [found_of_package hne hpkg, isOwner_of_package hne hpkg, true_or, and_self,
        exists_eq]
    | false =>
      have hparent : parentDir ⟨rooted, path ++ below ++ [c]⟩ = ⟨rooted, path ++ below⟩ := by
        rw [parentDir, getLastD_concat, if_pos (.inr hup), dropLast_concat]
      simp only [found_dropLast hne hpkg, isOwner_parent hne hpkg, hparent, dropLast_concat,
        Bool.false_eq_true, false_or]

/-! ## Paths that only go up -/

theorem ups_ne {n : ℕ} (hn : 0 < n) : ups n ≠ ⟨false, []⟩ := by
  simp [ups, Nat.ne_of_gt hn]

theorem iterate_parent_ups (m n : ℕ) : parentDir^[n] (ups m) = ups (m + n) := by
  induction n with
  | zero => rfl
  | succ n ih =>
    have hlast : (ups (m + n)).path.getLastD "..".toList = "..".toList := by
      cases m + n <;> simp [ups, replicate_succ']
    rw [Function.iterate_succ_apply', ih, parentDir, hlast, if_neg (by simp [ups])]
    exact congrArg (CleanPath.mk false) replicate_succ'.symm

theorem length_text_ups {n : ℕ} (hn : 0 < n) : (ups n).text.length + 1 = n * 3 := by
  rw [length_text _ (by simp [ups, Nat.ne_of_gt hn])]
  simp [ups, weight]

theorem packageLabel_ups {j k : ℕ} (hj : 0 < j) (hk : 0 < k)
    (h : packageLabel (ups j) = packageLabel (ups k)) : j = k := by
  have htext : (ups j).text = (ups k).text := congrArg BuildLabel.packageName h
  have hlenj := length_text_ups hj
  have hlenk := length_text_ups hk
  rw [htext] at hlenj
  omega

theorem packageLabel_ups_ne {k : ℕ} (hk : 0 < k) : packageLabel (ups k) ≠ rootLabel := by
  intro h
  have hlen := length_text_ups hk
  rw [show (ups k).text = "" from congrArg BuildLabel.packageName h, String.length_empty] at hlen
  omega

theorem found_ups {n : ℕ} (h : Found package (ups n) l) :
    (∀ k > 0, k ≤ n → package (ups k) = false) ∧ l = rootLabel ∨
      ∃ k > 0, k ≤ n ∧ package (ups k) = true ∧ l = packageLabel (ups k) := by
  induction n with
  | zero => exact .inl ⟨by omega, found_root.mp h⟩
  | succ n ih =>
    have hne := ups_ne (Nat.succ_pos n)
    cases hpkg : package (ups (n + 1)) with
    | true => exact .inr ⟨n + 1, Nat.succ_pos n, le_rfl, hpkg, (found_of_package hne hpkg).mp h⟩
    | false =>
      have hdrop : (ups (n + 1)).path.dropLast = (ups n).path := by simp [ups]
      rw [found_dropLast hne hpkg, hdrop] at h
      obtain ⟨hnone, hl⟩ | ⟨k, hk, hle, hpkg', hl⟩ := ih h
      · refine .inl ⟨fun k hk hle => ?_, hl⟩
        rcases Nat.le_succ_iff.mp hle with hle | rfl
        · exact hnone k hk hle
        · exact hpkg
      · exact .inr ⟨k, hk, Nat.le_succ_of_le hle, hpkg', hl⟩

theorem found_ups_root {n : ℕ} (h : ∀ k > 0, package (ups k) = false) :
    Found package (ups n) rootLabel := by
  induction n with
  | zero => exact found_root.mpr rfl
  | succ n ih =>
    have hdrop : (ups (n + 1)).path.dropLast = (ups n).path := by simp [ups]
    rwa [found_dropLast (ups_ne (Nat.succ_pos n)) (h _ (Nat.succ_pos n)), hdrop]

theorem isOwner_ups {n : ℕ} (hn : 0 < n) : IsOwner package (ups n) l ↔
    (∃ m, (∀ k < m, package (ups (n + k)) = false) ∧
      package (ups (n + m)) = true ∧ l = packageLabel (ups (n + m))) ∨
    (∀ k, package (ups (n + k)) = false) ∧ l = rootLabel := by
  have hout (m : ℕ) : Outside (ups n) m := fun k _ => by
    rw [iterate_parent_ups]
    exact ups_ne (by omega)
  simp only [IsOwner, hout, iterate_parent_ups, true_and, true_imp_iff]

theorem findable_ups {n : ℕ} (hn : 0 < n) (h : package (ups n) = false) :
    Findable package (ups n) ↔ ∀ k > 0, package (ups k) = false := by
  have hcount : (ups n).path.count "..".toList = n := count_replicate_self
  have hmem : "..".toList ∈ (ups n).path := mem_replicate.mpr ⟨Nat.ne_of_gt hn, rfl⟩
  have habove : ¬ ∃ g ∈ above (ups n), package g = true := by
    rintro ⟨g, hg, hpkg⟩
    obtain ⟨path, hpath, rfl⟩ := mem_map.mp hg
    obtain ⟨hinit, hlen⟩ := mem_filter.mp hpath
    rw [mem_inits] at hinit
    rw [hcount, decide_eq_true_eq] at hlen
    rw [hinit.eq_of_length_le (by simpa [ups] using hlen)] at hpkg
    exact absurd (h.symm.trans hpkg) (by decide)
  rw [Findable, or_iff_right habove, and_iff_right (show (ups n).rooted = false from rfl)]
  exact forall_prop_of_true hmem

/-- From a directory that is above the root of the repository, the search is right if the directory
is a package, or there is no package among all those above the root. -/
theorem ownerFound_ups (n : ℕ) : (∃ l, Found package (ups n) l ∧ IsOwner package (ups n) l) ↔
    Findable package (ups n) := by
  rcases Nat.eq_zero_or_pos n with rfl | hn
  · refine iff_of_true ⟨rootLabel, found_root.mpr rfl, isOwner_root.mpr rfl⟩ ?_
    exact .inr ⟨rfl, fun h => absurd h (by simp [ups])⟩
  have hne := ups_ne hn
  cases hpkg : package (ups n) with
  | true =>
    refine iff_of_true ⟨_, (found_of_package hne hpkg).mpr rfl,
      (isOwner_of_package hne hpkg).mpr rfl⟩
      (.inl ⟨ups n, ?_, hpkg⟩)
    exact mem_map.mpr ⟨_, mem_filter.mpr ⟨(mem_inits _ _).mpr (prefix_refl _), by simp [ups]⟩, rfl⟩
  | false =>
    rw [findable_ups hn hpkg]
    constructor
    · rintro ⟨l, hfound, howner⟩
      rcases (isOwner_ups hn).mp howner with ⟨m, -, hm, rfl⟩ | ⟨habove, rfl⟩
      · -- what is found is not above the directory
        exfalso
        obtain ⟨-, hl⟩ | ⟨k, hk, hle, hk', hl⟩ := found_ups hfound
        · exact packageLabel_ups_ne (by omega) hl
        · obtain rfl : n + m = k := packageLabel_ups (by omega) hk hl
          obtain rfl : m = 0 := by omega
          exact absurd (hpkg.symm.trans hk') (by decide)
      · obtain ⟨hbelow, -⟩ | ⟨k, hk, -, -, hl⟩ := found_ups hfound
        · intro k hk
          rcases le_total k n with hle | hle
          · exact hbelow k hk hle
          · obtain ⟨m, rfl⟩ := Nat.exists_eq_add_of_le hle
            exact habove m
        · exact absurd hl.symm (packageLabel_ups_ne hk)
    · intro h
      exact ⟨rootLabel, found_ups_root h,
        (isOwner_ups hn).mpr (.inr ⟨fun k => h _ (by omega), rfl⟩)⟩

theorem ownerFound_rooted :
    (∃ l, Found package ⟨true, []⟩ l ∧ IsOwner package ⟨true, []⟩ l) ↔
      Findable package ⟨true, []⟩ := by
  have hne : (⟨true, []⟩ : CleanPath) ≠ ⟨false, []⟩ := by decide
  have habove : above ⟨true, []⟩ = [⟨true, []⟩] := by decide
  cases hpkg : package ⟨true, []⟩ with
  | true =>
    exact iff_of_true ⟨_, (found_of_package hne hpkg).mpr rfl,
      (isOwner_of_package hne hpkg).mpr rfl⟩
      (.inl ⟨_, by simp [habove], hpkg⟩)
  | false => simp [Findable, habove, hpkg, not_found_root hpkg]

/-- The search ends, and returns the nearest package above the file, exactly if it passes a package
above the file or, for a relative path that has none, there is no package outside of the repository
either. -/
theorem owner_found_iff (fileExists : CleanPath → Bool) (buildFileNames : List String)
    (file : String) :
    (∃ fuel l, findOwningPackage fileExists buildFileNames fuel file = some l ∧
        IsOwner (isPackage fileExists buildFileNames) (dirOf file) l) ↔
      Findable (isPackage fileExists buildFileNames) (dirOf file) := by
  have hfound : (∃ fuel l, findOwningPackage fileExists buildFileNames fuel file = some l ∧
        IsOwner (isPackage fileExists buildFileNames) (dirOf file) l) ↔
      ∃ l, Found (isPackage fileExists buildFileNames) (dirOf file) l ∧
        IsOwner (isPackage fileExists buildFileNames) (dirOf file) l := by
    exact ⟨fun ⟨fuel, l, h, h'⟩ => ⟨l, ⟨fuel, h⟩, h'⟩, fun ⟨l, ⟨fuel, h⟩, h'⟩ => ⟨fuel, l, h, h'⟩⟩
  rw [hfound, dirOf, joinPath]
  obtain ⟨k, below, hplain, hclean, hfold⟩ := exists_clean
    (components (String.ofList (upToSlash file.toList)).toList ++ components "".toList)
  cases hasPrefix _ _ with
  | false =>
    rw [hclean]
    exact ownerFound_concat hplain (ownerFound_ups k)
  | true =>
    rw [clean, hfold, take_nil]
    exact ownerFound_concat hplain ownerFound_rooted

/-- Without a package, the search for the owner of `/x` goes on at `/` for ever. -/
theorem findOwningPackage_rooted :
    ¬∃ fuel l, findOwningPackage (fun _ => false) ["BUILD"] fuel "/x" = some l := by
  rintro ⟨fuel, l, h⟩
  have hdir : dirOf "/x" = ⟨true, []⟩ := by decide
  rw [findOwningPackage, hdir] at h
  exact not_found_root rfl ⟨fuel, h⟩

end Please.Core
