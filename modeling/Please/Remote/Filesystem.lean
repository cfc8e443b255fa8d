import Please.Remote.DirBuilder

/-!
# The file system over a remote tree

Model of `dir.ReadDir` (`src/remote/fs/fs.go`, lines 226–261). It keeps nothing between calls and
never returns `io.EOF`.

* `readDir_contract_iff`: when calls on an opened directory follow the contract of `io/fs`.
-/

namespace Please.Remote

open List

variable {Δ α : Type}

/-- An entry of a directory. -/
inductive Node (Δ : Type) where
  | file (node : FileNode Δ)
  | directory (node : DirectoryNode Δ)
  | symlink (node : SymlinkNode)

def Directory.nodes (dir : Directory Δ) : List (Node Δ) :=
  dir.directories.map .directory ++ dir.files.map .file ++ dir.symlinks.map .symlink

/-- `newDirInfo` for what a node stands for. It panics if that is not there. -/
def newDirInfo (children : Δ → Option (Directory Δ)) (d : DirectoryNode Δ) : Option (Node Δ) :=
  (d.digest.bind children).map fun _ => .directory d

/-- A loop of `ReadDir`. If it returns early, so do the next ones. -/
def readEntries (n : ℤ) (info : α → Option (Node Δ)) (ret : List (Node Δ)) :
    List α → Option (List (Node Δ))
  | [] => some ret
  | x :: xs => if 0 < n ∧ ret.length = n then some ret else do
    readEntries n info (ret ++ [← info x]) xs

/-- `io.EOF` is the only error that the contract has. -/
inductive ReadError where
  | eof

/-- `ReadDir`: the entries and the error. -/
def readDir (children : Δ → Option (Directory Δ)) (dir : Directory Δ) (n : ℤ) :
    Option (List (Node Δ) × Option ReadError) := do
  let ret ← readEntries n (newDirInfo children) [] dir.directories
  let ret ← readEntries n (fun f => some (.file f)) ret dir.files
  let ret ← readEntries n (fun l => some (.symlink l)) ret dir.symlinks
  return (ret, none)

/-- At most `n` entries, or all if `n` is not positive. -/
def upTo (n : ℤ) (l : List α) : List α := if 0 < n then l.take n.toNat else l

/-- What is left to be listed after calls one after the other. -/
def remaining (entries : List α) (ns : List ℤ) : List α :=
  ns.foldl (fun rest n => rest.drop (upTo n rest).length) entries

/-- The results list every entry once, in batches of at most `n`, and end with `io.EOF`. -/
def ListedOnce (n : ℤ) (entries : List α) (results : List (List α × Option ReadError)) : Prop :=
  ∃ batches : List (List α), results = batches.map (·, none) ++ [([], some .eof)] ∧
    batches.flatten = entries ∧ ∀ b ∈ batches, b.length ≤ n

/-- The contract of `io/fs`. For a positive `n`, some number of calls on the opened directory lists
all of it; for others, the call lists what the calls `ns` before it have left. -/
def FollowsContract (children : Δ → Option (Directory Δ)) (dir : Directory Δ) (n : ℤ)
    (ns : List ℤ) : Prop :=
  if 0 < n then ∃ count results,
    (replicate count n).mapM (readDir children dir) = some results ∧ ListedOnce n dir.nodes results
  else readDir children dir n = some (remaining dir.nodes ns, none)

/-! ## What is listed -/

theorem remaining_sublist (entries : List α) (ns : List ℤ) : remaining entries ns <+ entries := by
  induction ns generalizing entries with
  | nil => exact Sublist.refl _
  | cons n ns ih => exact (ih _).trans (drop_sublist _ _)

/-- The first call leaves something out for the later ones. -/
theorem remaining_eq_iff (entries : List α) (ns : List ℤ) :
    remaining entries ns = entries ↔ entries = [] ∨ ns = [] := by
  cases ns with
  | nil => simp [remaining]
  | cons n ns =>
    constructor
    · intro h
      have hle := (remaining_sublist (entries.drop (upTo n entries).length) ns).length_le
      rw [show remaining (entries.drop (upTo n entries).length) ns = entries from h,
        length_drop] at hle
      cases entries with
      | nil => exact .inl rfl
      | cons x xs =>
        have hpos : 0 < (upTo n (x :: xs)).length := by
          unfold upTo
          split_ifs with hn
          · simp [length_take, Int.lt_toNat.mpr hn]
          · simp
        simp only [length_cons] at hle
        omega
    · rintro (rfl | h)
      · exact sublist_nil.mp (remaining_sublist [] (n :: ns))
      · cases h

theorem readEntries_of_nonpos {n : ℤ} (hn : ¬ 0 < n) (info : α → Option (Node Δ))
    (ret : List (Node Δ)) (xs : List α) :
    readEntries n info ret xs = (xs.mapM info).map (ret ++ ·) := by
  induction xs generalizing ret with
  | nil => simp [readEntries]
  | cons x xs ih =>
    rw [readEntries, if_neg (fun h => hn h.1), mapM_cons]
    cases info x with
    | none => rfl
    | some node =>
      rw [Option.bind_eq_bind, Option.bind_some, ih]
      cases xs.mapM info <;> simp

variable {children : Δ → Option (Directory Δ)} {dir : Directory Δ}

theorem readDir_error {n : ℤ} {r : List (Node Δ) × Option ReadError}
    (h : readDir children dir n = some r) : r.2 = none := by
  simp only [readDir, Option.bind_eq_bind, Option.bind_eq_some_iff] at h
  obtain ⟨-, -, -, -, ret, -, h⟩ := h
  exact congrArg Prod.snd (Option.some.inj h).symm

/-- All of the directory is listed, if all its subdirectories are there. -/
theorem readDir_all_iff {n : ℤ} (hn : ¬ 0 < n) (nodes : List (Node Δ)) :
    readDir children dir n = some (nodes, none) ↔
      (∀ d ∈ dir.directories, (d.digest.bind children).isSome) ∧ nodes = dir.nodes := by
  have hfiles : dir.files.mapM (fun f => some (Node.file f)) = some (dir.files.map .file) := by
    simp [Lib.Except.mapM_eq_some, Function.comp_def]
  have hlinks : dir.symlinks.mapM (fun l => some (Node.symlink (Δ := Δ) l)) =
      some (dir.symlinks.map .symlink) := by
    simp [Lib.Except.mapM_eq_some, Function.comp_def]
  have hread : readDir children dir n = (dir.directories.mapM (newDirInfo children)).map fun ds =>
      (ds ++ dir.files.map .file ++ dir.symlinks.map .symlink, none) := by
    simp only [readDir, readEntries_of_nonpos hn, hfiles, hlinks]
    cases dir.directories.mapM (newDirInfo children) <;> rfl
  have hdirs (h : ∀ d ∈ dir.directories, (d.digest.bind children).isSome) :
      dir.directories.mapM (newDirInfo children) = some (dir.directories.map .directory) := by
    rw [Lib.Except.mapM_eq_some, map_map]
    refine map_congr_left fun d hd => ?_
    obtain ⟨_, hc⟩ := Option.isSome_iff_exists.mp (h d hd)
    rw [newDirInfo, hc]
    rfl
  rw [hread]
  constructor
  · intro h
    obtain ⟨ds, hds, heq⟩ := Option.map_eq_some_iff.mp h
    have hpresent : ∀ d ∈ dir.directories, (d.digest.bind children).isSome := fun d hd => by
      have hmem := mem_map_of_mem (f := newDirInfo children) hd
      rw [Lib.Except.mapM_eq_some.mp hds] at hmem
      obtain ⟨node, -, hnode⟩ := mem_map.mp hmem
      obtain ⟨child, hchild, -⟩ := Option.map_eq_some_iff.mp hnode.symm
      rw [hchild]
      rfl
    rw [hdirs hpresent] at hds
    refine ⟨hpresent, ?_⟩
    rw [← Option.some.inj hds] at heq
    exact (congrArg Prod.fst heq).symm
  · rintro ⟨h, rfl⟩
    rw [hdirs h]
    rfl

/-- No positive `n` ever gives `io.EOF`. Other calls list what is left exactly if nothing was listed
before, or there is nothing to list. -/
theorem readDir_contract_iff (children : Δ → Option (Directory Δ)) (dir : Directory Δ) (n : ℤ)
    (ns : List ℤ) :
    FollowsContract children dir n ns ↔
      n ≤ 0 ∧ (∀ d ∈ dir.directories, (d.digest.bind children).isSome) ∧
        (dir.nodes = [] ∨ ns = []) := by
  unfold FollowsContract
  split_ifs with hn
  · refine iff_of_false ?_ fun h => absurd h.1 (not_le.mpr hn)
    rintro ⟨count, results, hresults, batches, rfl, -⟩
    have heof : (([], some .eof) : List (Node Δ) × Option ReadError) ∈
        batches.map (·, none) ++ [([], some .eof)] := by simp
    obtain ⟨_, -, hcall⟩ := (Lib.Except.mem_of_mapM_eq_some hresults).mp heof
    cases readDir_error hcall
  · rw [readDir_all_iff hn, remaining_eq_iff, and_iff_right (not_lt.mp hn)]

/-- A directory of one file. -/
def oneFile : Directory Unit := { files := [⟨"f", (), false⟩] }

/-- The second call lists the file again, where it should say that there are no more. -/
theorem readDir_oneFile_again :
    [1, 1].mapM (readDir (fun _ => none) oneFile) =
      some [(oneFile.nodes, none), (oneFile.nodes, none)] ∧ remaining oneFile.nodes [1] = [] :=
  ⟨rfl, rfl⟩

end Please.Remote
