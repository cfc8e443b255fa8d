import Please.Fs.Tree
import Mathlib.Algebra.GroupWithZero.Nat
import Mathlib.Data.List.DropRight

/-!
# Paths

The functions of Go's `path` package that the code uses, and functions on strings beside them. A
clean path is the list of its components, with a mark if it begins with a slash.
-/

namespace Please.Fs

open List

/-! ## Strings -/

theorem hasPrefix_iff {s p : String} :
    hasPrefix s p = true ↔ ∃ rest, s.toList = p.toList ++ rest := by
  rw [hasPrefix, isPrefixOf_iff_prefix]
  exact ⟨fun ⟨rest, h⟩ => ⟨rest, h.symm⟩, fun ⟨rest, h⟩ => ⟨rest, h.symm⟩⟩

/-- `strings.TrimPrefix`. -/
def trimPrefix (s p : String) : String :=
  if hasPrefix s p then String.ofList (s.toList.drop p.toList.length) else s

/-! ## Components -/

/-- The components of a path. -/
def components (s : List Char) : List (List Char) := (s.splitOnP (· = '/')).filter (· ≠ [])

theorem components_append_separator (a b : List Char) :
    components (a ++ '/' :: b) = components a ++ components b := by
  rw [components, splitOnP_append_cons _ _ (by simp), filter_append]
  rfl

theorem components_eq_singleton {a : List Char} (h : '/' ∉ a) (hne : a ≠ []) :
    components a = [a] := by
  rw [components, splitOnP_eq_singleton]
  · simp [hne]
  · intro c hc
    simpa using fun heq : c = '/' => h (heq ▸ hc)

/-- A path up to its last separator, and its last component. -/
theorem exists_last_component (a : List Char) :
    ∃ init last, init ++ last = a ∧ '/' ∉ last ∧ (init = [] ∨ ∃ dir, init = dir ++ ['/']) := by
  induction a using reverseRecOn with
  | nil => exact ⟨[], [], rfl, by simp, .inl rfl⟩
  | append_singleton a c ih =>
    obtain ⟨init, last, rfl, hlast, hinit⟩ := ih
    by_cases hc : c = '/'
    · exact ⟨init ++ last ++ [c], [], by simp, by simp, .inr ⟨init ++ last, by rw [hc]⟩⟩
    · exact ⟨init, last ++ [c], by simp, by simp [hlast, Ne.symm hc], hinit⟩

/-! ## Clean paths -/

/-- The components of a path. -/
abbrev Path := List (List Char)

/-- How `path.Clean` goes on after `acc`. -/
def cleanStep (rooted : Bool) (acc : Path) (c : List Char) : Path :=
  if c = ".".toList then acc
  else if c = "..".toList ∧ (rooted ∨ acc.getLastD "..".toList ≠ "..".toList) then acc.dropLast
  else acc ++ [c]

/-- `path.Clean`, on the components of a path. -/
def clean (rooted : Bool) (path : Path) : Path := path.foldl (cleanStep rooted) []

theorem clean_concat (rooted : Bool) (path : Path) (c : List Char) :
    clean rooted (path ++ [c]) = cleanStep rooted (clean rooted path) c := by
  rw [clean, foldl_append]
  rfl

/-- No component is `.` or `..`. -/
def Plain (path : Path) : Prop := ∀ c ∈ path, c ≠ ".".toList ∧ c ≠ "..".toList

theorem foldl_cleanStep_plain {path : Path} (rooted : Bool) (acc : Path) (h : Plain path) :
    path.foldl (cleanStep rooted) acc = acc ++ path := by
  induction path generalizing acc with
  | nil => rw [foldl_nil, append_nil]
  | cons c _ ih =>
    obtain ⟨⟨hdot, hdots⟩, h⟩ := forall_mem_cons.mp h
    rw [foldl_cons, cleanStep, if_neg hdot, if_neg (fun h => hdots h.1), ih _ h, append_assoc]
    rfl

theorem clean_append {path : Path} (dir : Path) (h : Plain path) :
    clean true (dir ++ path) = clean true dir ++ path := by
  rw [clean, foldl_append, foldl_cleanStep_plain _ _ h]
  rfl

theorem dropLast_take_sub (acc : Path) (k : ℕ) :
    (acc.take (acc.length - k)).dropLast = acc.take (acc.length - (k + 1)) := by
  rw [dropLast_eq_take, take_take, length_take]
  congr 1
  omega

theorem foldl_cleanStep_ups (acc : Path) (k : ℕ) :
    (replicate k "..".toList).foldl (cleanStep true) acc = acc.take (acc.length - k) := by
  induction k with
  | zero => simp
  | succ k ih =>
    rw [replicate_succ', foldl_append, ih, ← dropLast_take_sub]
    simp [cleanStep]

/-- A path goes up some times and then down: this is its clean form, and where it leads to from a
directory. -/
theorem exists_clean (path : Path) : ∃ k below, Plain below ∧
    clean false path = replicate k "..".toList ++ below ∧
    ∀ acc, path.foldl (cleanStep true) acc = acc.take (acc.length - k) ++ below := by
  induction path using reverseRecOn with
  | nil => exact ⟨0, [], by simp [Plain], rfl, by simp⟩
  | append_singleton path c ih =>
    obtain ⟨k, below, hplain, hclean, hfold⟩ := ih
    simp only [clean_concat, hclean, foldl_append, hfold, foldl_cons, foldl_nil, cleanStep]
    by_cases hdot : c = ".".toList
    · exact ⟨k, below, hplain, by rw [if_pos hdot], fun acc => by rw [if_pos hdot]⟩
    simp only [if_neg hdot]
    by_cases hup : c = "..".toList
    · subst hup
      obtain rfl | ⟨init, x, rfl⟩ := eq_nil_or_concat' below
      · -- the path goes up once more
        refine ⟨k + 1, [], by simp [Plain], ?_, fun acc => ?_⟩
        · have hlast : (replicate k "..".toList).getLastD "..".toList = "..".toList := by
            cases k <;> simp [replicate_succ']
          rw [append_nil, append_nil, hlast, if_neg (by simp), replicate_succ']
        · simp [dropLast_take_sub]
      · obtain ⟨hinit, hx⟩ := forall_mem_append.mp hplain
        refine ⟨k, init, hinit, ?_, fun acc => ?_⟩
        · rw [← append_assoc, getLastD_concat, dropLast_concat]
          exact if_pos ⟨rfl, .inr (hx x (mem_singleton_self x)).2⟩
        · rw [← append_assoc, dropLast_concat]
          exact if_pos ⟨rfl, .inl trivial⟩
    · refine ⟨k, below ++ [c], forall_mem_append.mpr ⟨hplain, ?_⟩, ?_, fun acc => ?_⟩
      · exact forall_mem_singleton.mpr ⟨hdot, hup⟩
      · rw [if_neg (fun h => hup h.1), append_assoc]
      · rw [if_neg (fun h => hup h.1), append_assoc]

/-- A clean path: whether it begins with a slash, and its components. -/
@[ext]
structure CleanPath where
  rooted : Bool
  path : Path
deriving DecidableEq

/-- How a clean path is written. -/
def CleanPath.text (f : CleanPath) : String :=
  if f = ⟨false, []⟩ then "."
  else (if f.rooted then "/" else "") ++ "/".intercalate (f.path.map String.ofList)

/-- `path.Join` of two elements, which leaves out an empty one. -/
def joinPath (a b : String) : CleanPath :=
  let rooted := hasPrefix (if a = "" then b else a) "/"
  ⟨rooted, clean rooted (components a.toList ++ components b.toList)⟩

/-- `path.Join`, if the first element is absolute. -/
def joinRooted (parts : List String) : Path :=
  clean true (parts.flatMap fun part => components part.toList)

/-- A path up to its last slash. -/
def upToSlash (s : List Char) : List Char := s.rdropWhile (· ≠ '/')

/-- `path.Dir`. -/
def dirOf (file : String) : CleanPath := joinPath (String.ofList (upToSlash file.toList)) ""

/-- `path.Dir`, as it is written. -/
def pathDir (file : String) : String := (dirOf file).text

/-! ## Lengths -/

/-- The length of the components with a slash after each. -/
def weight (path : Path) : ℕ := (path.map fun c => c.length + 1).sum

theorem weight_append (p q : Path) : weight (p ++ q) = weight p + weight q := by simp [weight]

theorem weight_components_le (s : List Char) : weight (components s) ≤ s.length + 1 := by
  obtain ⟨n, hn⟩ : ∃ n, s.length ≤ n := ⟨_, le_rfl⟩
  induction n generalizing s with
  | zero => simp [length_eq_zero_iff.mp (Nat.le_zero.mp hn), components, weight]
  | succ n ih =>
    obtain ⟨init, last, rfl, hlast, rfl | ⟨dir, rfl⟩⟩ := exists_last_component s
    · cases last with
      | nil => simp [components, weight]
      | cons c last => simp [components_eq_singleton hlast, weight]
    · rw [append_assoc, singleton_append, components_append_separator, weight_append]
      have hdir := ih dir (by simp at hn; omega)
      have hlast' : weight (components last) ≤ last.length + 1 := by
        cases last with
        | nil => simp [components, weight]
        | cons c last => simp [components_eq_singleton hlast, weight]
      simp
      omega

theorem weight_clean_le (rooted : Bool) (path : Path) : weight (clean rooted path) ≤
    weight path := by
  induction path using reverseRecOn with
  | nil => exact le_rfl
  | append_singleton path c ih =>
    have hlast (p : Path) : weight p.dropLast ≤ weight p := by
      obtain rfl | ⟨p, x, rfl⟩ := eq_nil_or_concat' p
      · exact le_rfl
      · rw [dropLast_concat, weight_append]
        omega
    have := hlast (clean rooted path)
    rw [clean_concat, cleanStep]
    split_ifs <;> simp only [weight_append] <;> omega

theorem length_intercalate (c : String) (cs : List String) :
    ("/".intercalate (c :: cs)).length + 1 = ((c :: cs).map fun c => c.length + 1).sum := by
  induction cs generalizing c with
  | nil => simp
  | cons d cs ih =>
    have hslash : "/".length = 1 := rfl
    rw [String.intercalate_cons_cons, String.length_append, String.length_append,
      map_cons, sum_cons,
      ← ih d]
    omega

theorem length_text (f : CleanPath) (hne : f.path ≠ []) :
    f.text.length + 1 = (if f.rooted then 1 else 0) + weight f.path := by
  obtain ⟨rooted, path⟩ := f
  cases path with
  | nil => exact absurd rfl hne
  | cons c path =>
    have hslash : "/".length = 1 := rfl
    have h := length_intercalate (String.ofList c) (path.map String.ofList)
    cases rooted <;> simp [CleanPath.text, weight, Function.comp_def] at h ⊢ <;> omega

/-- A slash in front weighs nothing. -/
theorem weight_components_rooted {s : List Char} (h : components s ≠ []) :
    (if hasPrefix (String.ofList s) "/" then 1 else 0) + weight (components s) ≤ s.length + 1 := by
  split_ifs with hrooted
  · obtain ⟨rest, hrest⟩ := hasPrefix_iff.mp hrooted
    obtain rfl : s = '/' :: rest := by simpa using hrest
    have hcomp : components ('/' :: rest) = components rest := components_append_separator [] rest
    have := weight_components_le rest
    rw [hcomp, length_cons]
    omega
  · rw [Nat.zero_add]
    exact weight_components_le s

theorem upToSlash_concat {s : List Char} (hne : upToSlash s ≠ []) :
    upToSlash s = (upToSlash s).dropLast ++ ['/'] := by
  have hslash : (upToSlash s).getLast hne = '/' := by
    have h := rdropWhile_last_not _ s hne
    rwa [decide_eq_true_eq, not_not] at h
  rw [← hslash, dropLast_concat_getLast]

theorem dirOf_of_upToSlash {p : String} {dir : List Char} (h : upToSlash p.toList = dir ++ ['/']) :
    dirOf p = ⟨hasPrefix (String.ofList (dir ++ ['/'])) "/",
      clean (hasPrefix (String.ofList (dir ++ ['/'])) "/") (components dir)⟩ := by
  have hempty : components "".toList = [] := by simp [components]
  have hcomp : components (dir ++ ['/']) = components dir := by
    rw [components_append_separator, show components [] = [] from hempty, append_nil]
  rw [dirOf, joinPath, h, hempty, append_nil, String.toList_ofList, hcomp, if_neg (by simp)]

/-- `path.Dir` is shorter than the path, or `"."` or `"/"` if nothing is left. -/
theorem length_pathDir (p : String) :
    pathDir p = "." ∨ pathDir p = "/" ∨ (pathDir p).length < p.length := by
  rw [pathDir]
  by_cases hnil : (dirOf p).path = []
  · cases hrooted : (dirOf p).rooted with
    | false => exact .inl (by simp [CleanPath.text, CleanPath.ext_iff, hnil, hrooted])
    | true => exact .inr (.inl (by simp [CleanPath.text, CleanPath.ext_iff, hnil, hrooted]))
  refine .inr (.inr ?_)
  have htext := length_text _ hnil
  have hlen : (upToSlash p.toList).length ≤ p.length := by
    rw [← String.length_toList]
    exact IsPrefix.length_le <| rdropWhile_prefix (· ≠ '/') p.toList
  by_cases hne : upToSlash p.toList = []
  · exact absurd (by simp [dirOf, hne, joinPath, components, clean]) hnil
  have hdir := upToSlash_concat hne
  generalize (upToSlash p.toList).dropLast = dir at hdir
  rw [hdir, length_append, length_singleton] at hlen
  have hpath := dirOf_of_upToSlash hdir
  have hcomp : components dir ≠ [] := fun h => hnil (by rw [hpath, h]; rfl)
  have hrooted : hasPrefix (String.ofList (dir ++ ['/'])) "/" =
      hasPrefix (String.ofList dir) "/" := by
    cases dir with
    | nil => exact absurd (by simp [components]) hcomp
    | cons c dir => simp [hasPrefix, isPrefixOf]
  have hweight := weight_components_rooted hcomp
  have hclean := weight_clean_le (hasPrefix (String.ofList dir) "/") (components dir)
  rw [hpath, hrooted] at htext ⊢
  dsimp only at htext
  omega

end Please.Fs
