import Mathlib.Data.String.Basic
import Mathlib.Data.List.DropRight

/-!
# Attributes of files

Model of `src/fs/attr.go`: a value is attached to a file as an extended attribute, or
kept in a separate file if extended attributes are turned off or the file is a symlink
that takes none. Both stores are maps from file names to values.

* `readAttr_foldlM_recordAttr`: reading after recordings is looking up in a map.
-/

namespace Please.Fs

open Option

/-- What `xattr.LSet` does on a file: it sets the attribute, it is not permitted to (and
then making the file writable works or not), or the file takes no attributes. -/
inductive LSetOutcome
  | ok
  | denied (chmod : Bool)
  | unsupported
  deriving DecidableEq

/-- What `attr.go` finds out about a file. -/
structure AttrHost where
  xattrsEnabled : Bool
  isSymlink : String → Bool
  lset : String → LSetOutcome
  /-- `os.WriteFile` succeeds -/
  writeFile : String → Bool

/-- The attributes, and the values in the separate files. -/
@[ext]
structure Attrs (β : Type) where
  xattrs : String → Option β
  files : String → Option β

/-- `fallbackFileName` (lines 41–44). -/
def fallbackFileName (filename : String) : String :=
  let rev := filename.toList.reverse
  let dir := (rev.dropWhile (· ≠ '/')).reverse
  let file := (rev.takeWhile (· ≠ '/')).reverse
  String.ofList dir ++ ".rule_hash_" ++ String.ofList file

variable {β : Type} (host : AttrHost) (attrs : Attrs β)

/-- `RecordAttrFile` (lines 37–39). -/
def recordAttrFile (filename : String) (hash : β) : Option (Attrs β) :=
  if host.writeFile (fallbackFileName filename) then
    some { attrs with files := Function.update attrs.files (fallbackFileName filename) (some hash) }
  else none

/-- A successful `xattr.LSet`. -/
def setXattr (filename : String) (hash : β) : Attrs β :=
  { attrs with xattrs := Function.update attrs.xattrs filename (some hash) }

/-- `RecordAttr` (lines 12–32). -/
def recordAttr (filename : String) (hash : β) : Option (Attrs β) :=
  if !host.xattrsEnabled then recordAttrFile host attrs filename hash
  else match host.lset filename with
    | .ok => some (setXattr attrs filename hash)
    | .denied chmod =>
      if host.isSymlink filename then recordAttrFile host attrs filename hash
      else if chmod then some (setXattr attrs filename hash)
      else none
    | .unsupported =>
      if host.isSymlink filename then recordAttrFile host attrs filename hash else none

/-- `ReadAttrFile` (lines 68–71). -/
def readAttrFile (filename : String) : Option β := attrs.files (fallbackFileName filename)

/-- `xattr.LGet`; a symlink on which `LSet` fails has no attributes. -/
def lget (filename : String) : Option β :=
  match host.lset filename with
  | .ok => attrs.xattrs filename
  | .denied _ => if host.isSymlink filename then none else attrs.xattrs filename
  | .unsupported => none

/-- `ReadAttr` (lines 49–64). -/
def readAttr (filename : String) : Option β :=
  if !host.xattrsEnabled then readAttrFile attrs filename
  else match lget host attrs filename with
    | some b => some b
    | none => if host.isSymlink filename then readAttrFile attrs filename else none

/-! ## Names -/

theorem fallbackFileName_injective : Function.Injective fallbackFileName := by
  intro a b h
  have hrev (f : String) : (fallbackFileName f).toList.reverse =
      f.toList.reverse.takeWhile (· ≠ '/') ++
        ("_hsah_elur.".toList ++ f.toList.reverse.dropWhile (· ≠ '/')) := by
    simp [fallbackFileName]
  have hdir (f : String) : (fallbackFileName f).toList.reverse.dropWhile (· ≠ '/') =
      f.toList.reverse.dropWhile (· ≠ '/') := by
    rw [hrev, List.dropWhile_append_of_pos fun _ => List.mem_takeWhile_imp,
      List.dropWhile_append_of_pos (by simp), List.dropWhile_idempotent]
  have hd := hdir a
  rw [h, hdir b] at hd
  have hf := hrev a
  rw [h, hrev b, hd, List.append_cancel_right_eq] at hf
  have hsplit := List.takeWhile_append_dropWhile (p := (· ≠ '/')) (l := a.toList.reverse)
  rw [← hd, ← hf, List.takeWhile_append_dropWhile, List.reverse_inj] at hsplit
  exact (String.toList_injective hsplit).symm

/-! ## Reading after recording -/

section records

variable {host attrs} {attrs' : Attrs β} {filename : String} {hash : β}

section file

variable (h : recordAttrFile host attrs filename hash = some attrs')

include h

theorem readAttrFile_recordAttrFile : readAttrFile attrs' filename = some hash := by
  simp only [recordAttrFile, ite_none_right_eq_some, some.injEq] at h
  obtain ⟨-, rfl⟩ := h
  simp [readAttrFile]

/-- Writing a separate file leaves the values of files with another one. -/
theorem readAttr_recordAttrFile_of_ne {other : String}
    (hname : fallbackFileName other ≠ fallbackFileName filename) :
    readAttr host attrs' other = readAttr host attrs other := by
  simp only [recordAttrFile, ite_none_right_eq_some, some.injEq] at h
  obtain ⟨-, rfl⟩ := h
  simp [readAttr, readAttrFile, hname, lget]

end file

section both

variable (h : recordAttr host attrs filename hash = some attrs')

include h

/-- Recording sets the attribute of the file or writes its separate file. -/
theorem recordAttr_cases :
    (host.xattrsEnabled = true ∧ (lget host attrs' filename = some hash) ∧
      attrs' = setXattr attrs filename hash) ∨
    ((host.xattrsEnabled = true → host.isSymlink filename = true ∧
      lget host attrs' filename = none) ∧
      recordAttrFile host attrs filename hash = some attrs') := by
  by_cases henabled : host.xattrsEnabled = true
  · simp only [recordAttr, henabled, Bool.not_true, Bool.false_eq_true, if_false] at h
    cases hlset : host.lset filename with
    | ok =>
      simp only [hlset, some.injEq] at h
      subst h
      exact .inl ⟨henabled, by simp [lget, hlset, setXattr], rfl⟩
    | denied =>
      by_cases hlink : host.isSymlink filename = true
      · simp only [hlset, hlink, if_true] at h
        exact .inr ⟨fun _ => ⟨hlink, by simp [lget, hlset, hlink]⟩, h⟩
      · simp only [hlset, hlink, Bool.false_eq_true, if_false, ite_none_right_eq_some,
          some.injEq] at h
        obtain ⟨-, rfl⟩ := h
        exact .inl ⟨henabled, by simp [lget, hlset, hlink, setXattr], rfl⟩
    | unsupported =>
      simp only [hlset, ite_none_right_eq_some] at h
      exact .inr ⟨fun _ => ⟨h.1, by simp [lget, hlset]⟩, h.2⟩
  · simp only [recordAttr, henabled, Bool.not_false, if_true] at h
    exact .inr ⟨fun h => absurd h henabled, h⟩

theorem readAttr_recordAttr : readAttr host attrs' filename = some hash := by
  rcases recordAttr_cases h with ⟨henabled, hget, -⟩ | ⟨hlink, hfile⟩
  · simp [readAttr, henabled, hget]
  · have hread := readAttrFile_recordAttrFile hfile
    by_cases henabled : host.xattrsEnabled = true
    · obtain ⟨hsym, hget⟩ := hlink henabled
      simp [readAttr, henabled, hget, hsym, hread]
    · simp [readAttr, henabled, hread]

/-- Recording is an update of the map that reading gives. -/
theorem readAttr_recordAttr_eq :
    readAttr host attrs' = Function.update (readAttr host attrs) filename (some hash) := by
  funext other
  by_cases hname : other = filename
  · subst hname
    rw [Function.update_self, readAttr_recordAttr h]
  · rw [Function.update_of_ne hname]
    rcases recordAttr_cases h with ⟨-, -, rfl⟩ | ⟨-, hfile⟩
    · simp [readAttr, readAttrFile, lget, setXattr, hname]
    · exact readAttr_recordAttrFile_of_ne hfile (fallbackFileName_injective.ne hname)

/-- The value of any file is the recorded one or what it was. -/
theorem readAttr_recordAttr_or (other : String) :
    readAttr host attrs' other = some hash ∨ readAttr host attrs' other =
      readAttr host attrs other := by
  rw [readAttr_recordAttr_eq h, Function.update_apply]
  split_ifs
  · exact .inl rfl
  · exact .inr rfl

end both

/-- **Recorded attributes are a map.** After recordings that all succeed, in either store and for
whatever files, every file reads as in a map updated in the same order. -/
theorem readAttr_foldlM_recordAttr {entries : List (String × β)}
    (h : entries.foldlM (fun (attrs : Attrs β) e => recordAttr host attrs e.1 e.2) attrs =
      some attrs') :
    readAttr host attrs' = entries.foldl
      (fun m (e : String × β) => Function.update m e.1 (some e.2)) (readAttr host attrs) := by
  induction entries generalizing attrs with
  | nil => rw [some.inj h, List.foldl_nil]
  | cons e entries ih =>
    obtain ⟨attrs₁, hrecord, hrest⟩ := bind_eq_some_iff.mp h
    rw [ih hrest, readAttr_recordAttr_eq hrecord, List.foldl_cons]

end records

/-- `a/l` is a link that takes no attributes. -/
def linkHost : AttrHost :=
  ⟨true, (· = "a/l"), fun f => if f = "a/l" then .unsupported else .ok, fun _ => true⟩

def linkRecords : Option (Attrs ℕ) :=
  [("a/b", 1), ("a/l", 2), ("a/b", 3)].foldlM (fun attrs e => recordAttr linkHost attrs e.1 e.2)
    ⟨fun _ => none, fun _ => none⟩

theorem readAttr_foldlM_linkRecords :
    ∃ attrs, linkRecords = some attrs ∧ readAttr linkHost attrs "a/l" = some 2 := by
  obtain ⟨attrs, h⟩ : ∃ attrs, linkRecords = some attrs := ⟨_, rfl⟩
  exact ⟨attrs, h, (congrFun (readAttr_foldlM_recordAttr h) _).trans (by decide)⟩

end Please.Fs
