import Please.Core.LabelSyntax
import Please.Fs.PathHasher
import Please.Lib.InPlaceSort

/-!
# The directory cache

Model of parts of `dirCache` (`src/cache/dir_cache.go`): where entries are, the removal of a
target's entries, and the order in which `clean` evicts entries. `base64.URLEncoding.EncodeToString`
is a parameter.

* `entry_kept_iff`: removing a target's entries leaves an entry of another one alone exactly if the
  one's directory does not lead to it.
* `eviction_order_iff`: when the comparison is a strict weak order and what is evicted is the same
  for every order of the walk.
-/

namespace Please.Cache

open Please.Core Please.Fs Please.Lib

/-! ## Paths -/

/-- Text after a path. -/
def addText (path : Path) (text : List Char) : Path :=
  path.dropLast ++ [path.getLast?.getD [] ++ text]

/-- `dirCache`. An encoded key has neither slashes nor dots. -/
structure DirCache where
  dir : String
  compress : Bool
  encode : List UInt8 → String
  encode_ne : ∀ key, key ≠ [] → encode key ≠ ""
  encode_plain : ∀ key, ∀ c ∈ (encode key).toList, c ≠ '/' ∧ c ≠ '.'

namespace DirCache

variable (cache : DirCache)

/-- `dirCache.Suffix` (lines 362–364). -/
def suffix : String := if cache.compress then ".tar.gz" else ""

/-- `dirCache.getFullPath` (lines 329–338). -/
def getFullPath (label : BuildLabel) (key : List UInt8) (extra suffix : String) : Path :=
  let extra := if cache.compress then extra.toList.map fun c => if c = '/' then '_' else c else []
  addText (joinRooted [cache.dir, label.packageName, label.name, cache.encode key])
    (extra ++ suffix.toList ++ cache.suffix.toList)

/-- `dirCache.getPath` (lines 325–327). -/
def getPath (label : BuildLabel) (key : List UInt8) (extra : String) : Path :=
  cache.getFullPath label key extra ""

end DirCache

/-! ## Removing entries -/

section remove

variable {α : Type}

/-- `fs.RemoveAll`, on the paths that exist with what is there. -/
def removeAll (path : Path) (files : Path → Option α) : Path → Option α :=
  fun p => if path.isPrefixOf p then none else files p

/-- `dirCache.Clean` (lines 310–315). -/
def DirCache.clean (cache : DirCache) (label : BuildLabel) (files : Path → Option α) :
    Path → Option α :=
  removeAll (joinRooted [cache.dir, label.packageName, label.name]) files

/-- The components of a label below the cache's directory. -/
def labelComponents (label : BuildLabel) : Path :=
  components label.packageName.toList ++ components label.name.toList

/-- An entry stays exactly if the target that is cleaned is not above it. -/
theorem entry_kept_iff (cache : DirCache) {label₁ label₂ : BuildLabel} {key : List UInt8}
    {files : Path → Option α} (h₁ : Plain (labelComponents label₁))
    (h₂ : Plain (labelComponents label₂)) (hkey : key ≠ [])
    (hentry : (files (cache.getPath label₂ key "")).isSome = true) :
    (cache.clean label₁ files (cache.getPath label₂ key "")).isSome = true ↔
      ¬ labelComponents label₁ <+: labelComponents label₂ ++
        [(cache.encode key).toList ++ cache.suffix.toList] := by
  have hslash : '/' ∉ (cache.encode key).toList := fun h => (cache.encode_plain key _ h).1 rfl
  have hdot : '.' ∉ (cache.encode key).toList := fun h => (cache.encode_plain key _ h).2 rfl
  have hne : (cache.encode key).toList ≠ [] := by simpa using cache.encode_ne key hkey
  have hplain : Plain (labelComponents label₂ ++ [(cache.encode key).toList]) := by
    refine List.forall_mem_append.mpr ⟨h₂, List.forall_mem_singleton.mpr ⟨?_, ?_⟩⟩ <;>
      · intro heq
        rw [heq] at hdot
        simp at hdot
  have hdir : joinRooted [cache.dir, label₁.packageName, label₁.name] =
      clean true (components cache.dir.toList) ++ labelComponents label₁ := by
    rw [← clean_append _ h₁]
    simp [joinRooted, labelComponents]
  have hpath : cache.getPath label₂ key "" = clean true (components cache.dir.toList) ++
      (labelComponents label₂ ++ [(cache.encode key).toList ++ cache.suffix.toList]) := by
    have hjoin : joinRooted [cache.dir, label₂.packageName, label₂.name, cache.encode key] =
        clean true (components cache.dir.toList) ++
          (labelComponents label₂ ++ [(cache.encode key).toList]) := by
      rw [← clean_append _ hplain]
      simp [joinRooted, labelComponents, components_eq_singleton hslash hne]
    rw [DirCache.getPath, DirCache.getFullPath, hjoin]
    simp [addText]
  rw [hpath] at hentry ⊢
  rw [DirCache.clean, removeAll, hdir]
  by_cases habove : labelComponents label₁ <+: labelComponents label₂ ++
      [(cache.encode key).toList ++ cache.suffix.toList]
  · simp [habove]
  · simp [habove, hentry]

/-- A cache with one key. -/
def plainCache : DirCache := ⟨"/cache", false, fun _ => "AAAA", by simp, by simp⟩

/-- Cleaning `//a:b` removes the entry of `//a/b:c`. -/
theorem nested_entry_removed :
    plainCache.clean ⟨"a", "b", ""⟩ (fun _ => some ())
      (plainCache.getPath ⟨"a/b", "c", ""⟩ [0, 0, 0] "") = none := by
  decide

/-- Cleaning `//a:b` leaves the entry of `//a:c`. -/
theorem entry_kept_sibling :
    (plainCache.clean ⟨"a", "b", ""⟩ (fun _ => some ())
      (plainCache.getPath ⟨"a", "c", ""⟩ [0, 0, 0] "")).isSome = true :=
  (entry_kept_iff plainCache (by unfold Plain; decide) (by unfold Plain; decide) (by decide)
    rfl).mpr (by decide)

end remove

/-! ## The order of eviction -/

section evict

/-- `cacheEntry`, with the size in bytes and the access time in seconds. -/
structure CacheEntry where
  path : String
  size : ℕ
  atime : ℤ
deriving DecidableEq

/-- The comparison of `clean` (lines 442–448). The difference is that of two `int64`. -/
def before (a b : CacheEntry) : Bool :=
  let diff := (a.atime - b.atime).bmod 18446744073709551616
  if diff > -600 ∧ diff < 600 then a.size > b.size else a.atime < b.atime

/-- The entries that are evicted from the sorted list (lines 449–463). `marked` are the paths that
were added, and `cleans` those that can be removed. -/
def evict (marked cleans : String → Bool) (low : ℕ) : ℕ → List CacheEntry → List CacheEntry
  | _, [] => []
  | total, entry :: entries =>
    if marked entry.path || !cleans entry.path then evict marked cleans low total entries
    else if total - entry.size < low then [entry]
    else entry :: evict marked cleans low (total - entry.size) entries

/-- `sort.Slice` with the comparison. -/
def sortEntries (sorter : Sorter) (entries : List CacheEntry) : List CacheEntry :=
  (sorter.prog entries.length).run before entries

/-- The access times are within the grace period, as the code subtracts them. -/
def Near (a b : CacheEntry) : Prop :=
  -600 < (a.atime - b.atime).bmod 18446744073709551616 ∧
    (a.atime - b.atime).bmod 18446744073709551616 < 600

instance (a b : CacheEntry) : Decidable (Near a b) := inferInstanceAs (Decidable (_ ∧ _))

/-- An entry near two others that are not near each other is smaller than the older one or larger
than the younger one. Nothing is between two that are only near because their difference overflows,
unless the older one is larger. -/
def Ordered (entries : List CacheEntry) : Prop :=
  ∀ a ∈ entries, ∀ b ∈ entries, ∀ c ∈ entries,
    (Near a b → Near b c → ¬ Near a c → a.atime < c.atime → b.size < a.size ∨ c.size < b.size) ∧
    (Near a c → ¬ Near a b → ¬ Near b c → a.atime < b.atime → b.atime < c.atime → c.size < a.size)

/-- No two entries are near each other and of the same size. -/
def NoTies (entries : List CacheEntry) : Prop :=
  ∀ a ∈ entries, ∀ b ∈ entries, Near a b → a.size = b.size → a = b

variable {entries : List CacheEntry} {a b : CacheEntry}

theorem before_iff : before a b = true ↔
    Near a b ∧ b.size < a.size ∨ ¬ Near a b ∧ a.atime < b.atime := by
  by_cases hn : Near a b
  · have hbefore : before a b = decide (a.size > b.size) := if_pos hn
    simp [hbefore, hn]
  · have hbefore : before a b = decide (a.atime < b.atime) := if_neg hn
    simp [hbefore, hn]

theorem near_comm : Near a b ↔ Near b a := by
  simp only [Near, Int.bmod_def]
  split_ifs <;> omega

theorem near_of_eq (h : a.atime = b.atime) : Near a b := by
  simp [Near, h]

/-- The comparison is a strict weak order exactly on such entries. -/
theorem strictWeakOn_before_iff : StrictWeakOn before entries ↔ Ordered entries := by
  constructor
  · intro h a ha b hb c hc
    have habc := h.negTrans a ha b hb c hc
    simp only [before_iff] at habc
    constructor
    · intro hab hbc hac hlt
      simpa [hab, hbc, hac, hlt] using habc
    · intro hac hab hbc hlt₁ hlt₂
      have hacb := h.negTrans a ha c hc b hb
      simp only [before_iff, near_comm (a := c) (b := b)] at hacb
      simpa [hac, hab, hbc, hlt₁, Int.not_lt.mpr (Int.le_of_lt hlt₂)] using hacb
  · intro h
    refine ⟨fun a _ b _ hab => ?_, fun a ha b hb c hc hac => ?_⟩
    · rw [← Bool.not_eq_true, before_iff, near_comm]
      rw [before_iff] at hab
      rcases hab with ⟨hn, hlt⟩ | ⟨hn, hlt⟩
      · simp [hn, Nat.le_of_lt hlt]
      · simp [hn, Int.le_of_lt hlt]
    · have h₁ := h a ha b hb c hc
      have h₂ := h b hb c hc a ha
      have h₃ := h b hb a ha c hc
      have h₄ := h c hc a ha b hb
      have h₅ := h c hc b hb a ha
      have h₆ := h a ha c hc b hb
      have heqab := near_of_eq (a := a) (b := b)
      have heqbc := near_of_eq (a := b) (b := c)
      simp only [before_iff, near_comm (a := b) (b := a), near_comm (a := c) (b := b),
        near_comm (a := c) (b := a)] at *
      -- which of the three are near each other
      by_cases hab : Near a b <;> by_cases hbc : Near b c <;> by_cases hac' : Near a c <;>
        simp only [hab, hbc, hac', true_and, false_and, or_false, false_or, not_true_eq_false,
          not_false_eq_true, true_imp_iff, false_imp_iff, imp_false] at * <;> omega

theorem swap_mem (ha : a ∈ entries) (hb : b ∈ entries) {x : CacheEntry} (hx : x ∈ entries) :
    Equiv.swap a b x ∈ entries := by
  rw [Equiv.swap_apply_def]
  split_ifs <;> assumption

/-- Entries of which neither comes first compare alike. -/
theorem before_swap (h : StrictWeakOn before entries) (ha : a ∈ entries) (hb : b ∈ entries)
    (hab : before a b = false) (hba : before b a = false) {x y : CacheEntry} (hx : x ∈ entries)
    (hy : y ∈ entries) : before (Equiv.swap a b x) (Equiv.swap a b y) = before x y := by
  have hleft {z : CacheEntry} (hz : z ∈ entries) : before a z = before b z := by
    have h₁ := h.negTrans a ha b hb z hz
    have h₂ := h.negTrans b hb a ha z hz
    rw [hab] at h₁
    rw [hba] at h₂
    exact Bool.eq_iff_iff.mpr ⟨fun h => by simpa using h₁ h, fun h => by simpa using h₂ h⟩
  have hright {z : CacheEntry} (hz : z ∈ entries) : before z a = before z b := by
    have h₁ := h.negTrans z hz b hb a ha
    have h₂ := h.negTrans z hz a ha b hb
    rw [hba] at h₁
    rw [hab] at h₂
    exact Bool.eq_iff_iff.mpr ⟨fun h => by simpa using h₁ h, fun h => by simpa using h₂ h⟩
  have hx' : before (Equiv.swap a b x) (Equiv.swap a b y) = before x (Equiv.swap a b y) := by
    rw [Equiv.swap_apply_def (x := x)]
    split_ifs with hxa hxb
    · rw [hxa, hleft (swap_mem ha hb hy)]
    · rw [hxb, hleft (swap_mem ha hb hy)]
    · rfl
  rw [hx', Equiv.swap_apply_def]
  split_ifs with hya hyb
  · rw [hya, hright hx]
  · rw [hyb, hright hx]
  · rfl

theorem evict_first (marked : String → Bool) (entries : List CacheEntry) :
    evict marked (fun _ => true) 1 0 entries = (entries.find? (!marked ·.path)).toList := by
  induction entries with
  | nil => rfl
  | cons e entries ih => cases h : marked e.path <;> simp [evict, h, ih]

/-- If two entries tie and only they can be evicted, the order of the walk decides. -/
theorem evicted_ne_of_tie (sorter : Sorter) (hpaths : (entries.map CacheEntry.path).Nodup)
    (h : StrictWeakOn before entries) (ha : a ∈ entries) (hb : b ∈ entries) (hne : a ≠ b)
    (hab : before a b = false) (hba : before b a = false) :
    ∃ entries', entries.Perm entries' ∧ ∃ marked,
      ¬ ∀ e, e ∈ evict marked (fun _ => true) 1 0 (sortEntries sorter entries) ↔
        e ∈ evict marked (fun _ => true) 1 0 (sortEntries sorter entries') := by
  have hnodup : entries.Nodup := hpaths.of_map
  have hmem (e : CacheEntry) : e ∈ entries.map (Equiv.swap a b) ↔ e ∈ entries := by
    rw [List.mem_map]
    constructor
    · rintro ⟨x, hx, rfl⟩
      exact swap_mem ha hb hx
    · exact fun he => ⟨_, swap_mem ha hb he, Equiv.swap_apply_self a b e⟩
  have hperm : entries.Perm (entries.map (Equiv.swap a b)) :=
    (List.perm_ext_iff_of_nodup hnodup (hnodup.map (Equiv.injective _))).mpr fun e => (hmem e).symm
  have hsorted : sortEntries sorter (entries.map (Equiv.swap a b)) =
      (sortEntries sorter entries).map (Equiv.swap a b) := by
    rw [sortEntries, List.length_map]
    exact Sorting.run_map _ fun x hx y hy => before_swap h ha hb hab hba hx hy
  -- the first of the two is evicted, and after the swap that is the other one
  let marked (p : String) : Bool := p ≠ a.path ∧ p ≠ b.path
  have hmarked (e : CacheEntry) : marked (Equiv.swap a b e).path = marked e.path := by
    rw [Equiv.swap_apply_def]
    split_ifs with hea heb
    · simp [marked, hea]
    · simp [marked, heb]
    · rfl
  refine ⟨_, hperm, marked, fun hsame => ?_⟩
  rw [evict_first, evict_first, hsorted, List.find?_map,
    show (fun e : CacheEntry => !marked e.path) ∘ Equiv.swap a b = (!marked ·.path) from
      funext fun e => congrArg (!·) (hmarked e)] at hsame
  have hrun : ∀ e, e ∈ sortEntries sorter entries ↔ e ∈ entries :=
    fun e => (Sorting.perm_run ..).mem_iff
  obtain ⟨e, he⟩ : ∃ e, (sortEntries sorter entries).find? (!marked ·.path) = some e :=
    Option.isSome_iff_exists.mp
      (List.find?_isSome.mpr ⟨a, (hrun a).mpr ha, by simp [marked]⟩)
  have hmem := (hrun e).mp (List.mem_of_find?_eq_some he)
  have hfix : Equiv.swap a b e = e := by
    have hsame := (hsame e).mp (by simp [he])
    simpa [he, eq_comm] using hsame
  have hinj {x : CacheEntry} (hx : x ∈ entries) (hpath : e.path = x.path) : e = x :=
    List.inj_on_of_nodup_map hpaths hmem hx hpath
  have hpath : e.path = a.path ∨ e.path = b.path := by
    have := List.find?_some he
    simp only [marked] at this
    grind
  rcases hpath with hpath | hpath
  · obtain rfl := hinj ha hpath
    rw [Equiv.swap_apply_left] at hfix
    exact hne hfix.symm
  · obtain rfl := hinj hb hpath
    rw [Equiv.swap_apply_right] at hfix
    exact hne hfix

/-- The comparison is a strict weak order, and what is evicted does not depend on the order of the
walk, exactly if the entries are ordered and no two of them tie. -/
theorem eviction_order_iff (sorter : Sorter) (hpaths : (entries.map CacheEntry.path).Nodup) :
    (StrictWeakOn before entries ∧ InOrder before (sortEntries sorter entries) ∧
      ∀ entries', entries.Perm entries' → ∀ marked cleans low total e,
        e ∈ evict marked cleans low total (sortEntries sorter entries) ↔
          e ∈ evict marked cleans low total (sortEntries sorter entries')) ↔
      Ordered entries ∧ NoTies entries := by
  have htie (a b : CacheEntry) : before a b = false ∧ before b a = false ↔
      Near a b ∧ a.size = b.size := by
    have := near_of_eq (a := a) (b := b)
    rw [← Bool.not_eq_true, ← Bool.not_eq_true, before_iff, before_iff, near_comm (a := b)]
    by_cases hn : Near a b <;> simp_all <;> omega
  constructor
  · rintro ⟨hweak, -, hsame⟩
    refine ⟨strictWeakOn_before_iff.mp hweak, fun a ha b hb hnear hsize => ?_⟩
    by_contra hne
    obtain ⟨hab, hba⟩ := (htie a b).mpr ⟨hnear, hsize⟩
    obtain ⟨entries', hperm, marked, hdiff⟩ :=
      evicted_ne_of_tie sorter hpaths hweak ha hb hne hab hba
    exact hdiff (hsame entries' hperm marked _ 1 0)
  · rintro ⟨hordered, hties⟩
    have hweak := strictWeakOn_before_iff.mpr hordered
    refine ⟨hweak, sorter.sorts _ _ hweak, fun entries' hperm marked cleans low total e => ?_⟩
    rw [sortEntries, sortEntries, sorter.run_eq_of_perm hweak ?_ hperm]
    intro a ha b hb hab hba
    obtain ⟨hnear, hsize⟩ := (htie a b).mp ⟨hab, hba⟩
    exact hties a ha b hb hnear hsize

/-- The larger of two entries that are near comes first. -/
theorem eviction_order_two :
    InOrder before (sortEntries insertionSorter [⟨"a", 1, 0⟩, ⟨"b", 2, 500⟩]) := by
  have hnear : ∀ x ∈ ([⟨"a", 1, 0⟩, ⟨"b", 2, 500⟩] : List CacheEntry),
      ∀ y ∈ ([⟨"a", 1, 0⟩, ⟨"b", 2, 500⟩] : List CacheEntry), Near x y := by decide
  have hordered : Ordered [⟨"a", 1, 0⟩, ⟨"b", 2, 500⟩] := fun a ha b hb c hc =>
    ⟨fun _ _ hac => absurd (hnear a ha c hc) hac, fun _ hab => absurd (hnear a ha b hb) hab⟩
  have hties : NoTies [⟨"a", 1, 0⟩, ⟨"b", 2, 500⟩] := by
    unfold NoTies
    decide
  exact ((eviction_order_iff insertionSorter (by decide)).mpr ⟨hordered, hties⟩).2.1

/-- Each of the first two is near the next. -/
def chained : List CacheEntry := [⟨"a", 1, 0⟩, ⟨"b", 2, 500⟩, ⟨"c", 3, 1000⟩]

/-- The comparison goes round in a circle, and what is evicted depends on the order of the walk. -/
theorem before_chained :
    ¬ StrictWeakOn before chained ∧
      evict (fun _ => false) (fun _ => true) 6 6 (sortEntries insertionSorter chained) ≠
        evict (fun _ => false) (fun _ => true) 6 6
          (sortEntries insertionSorter chained.reverse) := by
  refine ⟨fun h => ?_, by decide⟩
  have hcircle := h.negTrans ⟨"a", 1, 0⟩ (by decide) ⟨"b", 2, 500⟩ (by decide) ⟨"c", 3, 1000⟩
    (by decide) (by decide)
  revert hcircle
  decide

end evict

end Please.Cache
