import Please.Lib.Except
import Mathlib.Data.List.Sort
import Mathlib.Data.String.Basic

/-!
# The input root of a remote action

Model of `dirBuilder` (`remote/utils.go`) and of the additions that `uploadInputDir` and
`addChildDirs` (`remote/action.go`) make to it. A clean relative path is the list of its components,
the innermost first, so `filepath.Split` takes off the head and `[]` is the root (`"."` and `""`).

A directory node carries a digest, or none yet if the builder made it to hold something below.
`walk` does not descend into a node that carries one.

`lookup` is how a path is found in a directory and the ones that its digests stand for.
-/

namespace Please.Remote

open List
open Function (update update_comm update_of_ne update_self)

/-! ## Directories -/

/-- `pb.FileNode`. -/
structure FileNode (Δ : Type) where
  name : String
  digest : Δ
  isExecutable : Bool

/-- `pb.DirectoryNode`; the digest is nil until it is known. -/
structure DirectoryNode (Δ : Type) where
  name : String
  digest : Option Δ

/-- `pb.SymlinkNode`. -/
structure SymlinkNode where
  name : String
  target : String

/-- `pb.Directory`. -/
structure Directory (Δ : Type) where
  files : List (FileNode Δ) := []
  directories : List (DirectoryNode Δ) := []
  symlinks : List SymlinkNode := []

/-- What can be added to a directory under a name. -/
inductive Entry (Δ : Type) where
  | file (digest : Δ) (isExecutable : Bool)
  | directory (digest : Δ)
  | symlink (target : String)

/-- `sort.Slice` by name. It is not stable: which of two elements of one name comes first is
open. -/
structure Sorting where
  sort : {α : Type} → (α → String) → List α → List α
  perm : ∀ {α : Type} (name : α → String) (l : List α), (sort name l).Perm l
  sorted : ∀ {α : Type} (name : α → String) (l : List α),
    (sort name l).Pairwise fun a b => name a ≤ name b

-- `hash` is the digest that `uploadinfo.EntryFromProto` computes; `contents` is what the server has
-- for a digest.
variable {Δ : Type} (hash : Directory Δ → Δ) (contents : Δ → Option (Directory Δ)) (s : Sorting)

/-- `hasChild` (lines 361–368). -/
def hasChild (dir : Directory Δ) (child : String) : Bool :=
  dir.directories.any fun d => d.name = child

/-- The appends of `uploadInputDir`, `uploadInput` and `addChildDirs`. -/
def Directory.append (d : Directory Δ) (name : String) : Entry Δ → Directory Δ
  | .file digest isExecutable => { d with files := d.files ++ [⟨name, digest, isExecutable⟩] }
  | .directory digest => { d with directories := d.directories ++ [⟨name, some digest⟩] }
  | .symlink target => { d with symlinks := d.symlinks ++ [⟨name, target⟩] }

/-- The end of `dirBuilder.dir` (lines 446–450). -/
def Directory.addChild (d : Directory Δ) (child : String) : Directory Δ :=
  if child ≠ "" ∧ hasChild d child = false then
    { d with directories := d.directories ++ [⟨child, none⟩] }
  else d

/-! ## The builder -/

/-- The components of a clean relative path, the innermost first. -/
abbrev Path := List String

/-- `dirBuilder`: the map `dirs`; the root is the directory at `[]`. -/
structure DirBuilder (Δ : Type) where
  dirs : Path → Option (Directory Δ)

namespace DirBuilder

/-- `newDirBuilder`. -/
def new : DirBuilder Δ := ⟨update (fun _ => none) [] (some {})⟩

/-- `b.dirs[dir] = d`. -/
def set (b : DirBuilder Δ) (dir : Path) (d : Directory Δ) : DirBuilder Δ :=
  ⟨update b.dirs dir (some d)⟩

/-- A change of the directory that `b.dirs[dir]` points to. -/
def modify (b : DirBuilder Δ) (dir : Path) (f : Directory Δ → Directory Δ) : DirBuilder Δ :=
  ⟨update b.dirs dir ((b.dirs dir).map f)⟩

/-- `dirBuilder.dir` (lines 434–452): the builder after the call. -/
def dir (b : DirBuilder Δ) : (dir : Path) → (child : String) → DirBuilder Δ
  | [], child => b.modify [] fun d => d.addChild child
  | base :: parent, child =>
    (if (b.dirs (base :: parent)).isSome then b
      else (b.set (base :: parent) {}).dir parent base).modify (base :: parent)
        fun d => d.addChild child

end DirBuilder

/-- One addition: an entry at a clean relative path. -/
structure Addition (Δ : Type) where
  parent : Path
  name : String
  entry : Entry Δ
  clean : "" ∉ name :: parent

def Addition.path (a : Addition Δ) : Path := a.name :: a.parent

namespace DirBuilder

/-- `b.Dir(filepath.Dir(path))` and the append of the entry to what it returns. -/
def add (b : DirBuilder Δ) (a : Addition Δ) : DirBuilder Δ :=
  (b.dir a.parent "").modify a.parent fun d => d.append a.name a.entry

/-- The builder that `uploadInputDir` returns after its additions. -/
def addAll (additions : List (Addition Δ)) : DirBuilder Δ := additions.foldl add new

end DirBuilder

/-- The loops of `walk` that drop duplicates (lines 515–537), with the `last` they start from and
leave behind. -/
def dedupe {α : Type} (name : α → String) : (last : String) → List α → List α × String
  | last, [] => ([], last)
  | last, x :: xs =>
    if name x ≠ last then (x :: (dedupe name (name x) xs).1, (dedupe name (name x) xs).2)
    else dedupe name last xs

/-- The end of `walk` (lines 506–537). One `last` serves all three loops. -/
def Directory.finish (d : Directory Δ) : Directory Δ :=
  let files := dedupe FileNode.name "" (s.sort FileNode.name d.files)
  let dirs := dedupe DirectoryNode.name files.2 (s.sort DirectoryNode.name d.directories)
  let syms := dedupe SymlinkNode.name dirs.2 (s.sort SymlinkNode.name d.symlinks)
  ⟨files.1, dirs.1, syms.1⟩

/-- The loop of `walk` over the directories (lines 501–505), for one of them: its node with a
digest, and what was sent for it. -/
def DirectoryNode.withDigest (walk : String → Option (Directory Δ × List (Directory Δ)))
    (d : DirectoryNode Δ) : Option (DirectoryNode Δ × List (Directory Δ)) :=
  match d.digest with
  | some _ => some (d, [])
  | none => (walk d.name).map fun r => (⟨d.name, some (hash r.1)⟩, r.2)

namespace DirBuilder

/-- `dirBuilder.walk` (lines 499–544): the directory as it is then, and what was sent to the
channel. There is no result if the directory is not in the map or the fuel runs out. -/
def walk (b : DirBuilder Δ) : ℕ → (name : Path) → Option (Directory Δ × List (Directory Δ))
  | 0, _ => none
  | fuel + 1, name => do
    let dir ← b.dirs name
    let nodes ← dir.directories.mapM fun d =>
      d.withDigest hash fun child => b.walk fuel (child :: name)
    let entry := { dir with directories := nodes.map Prod.fst }.finish s
    some (entry, nodes.flatMap Prod.snd ++ [entry])

/-- `dirBuilder.Build` (lines 457–461). -/
def build (b : DirBuilder Δ) (fuel : ℕ) : Option (Directory Δ × List (Directory Δ)) :=
  b.walk hash s fuel []

end DirBuilder

/-! ## The tree of a directory -/

/-- What a directory has under a name. -/
def Directory.entry (d : Directory Δ) (name : String) : Option (Entry Δ) :=
  match d.files.find? fun f => f.name = name, d.symlinks.find? fun s => s.name = name with
  | some f, _ => some (.file f.digest f.isExecutable)
  | none, some s => some (.symlink s.target)
  | none, none => (d.directories.find? fun e => e.name = name).bind fun e => e.digest.map .directory

/-- What is at a path below a directory, the outermost component first. -/
def lookup : Directory Δ → List String → Option (Entry Δ)
  | _, [] => none
  | d, [name] => d.entry name
  | d, name :: rest => do
    let node ← d.directories.find? fun e => e.name = name
    let d' ← contents (← node.digest)
    lookup d' rest

/-- The look-up of a path of several components, through the node of its first one. -/
theorem lookup_of_find {d d' : Directory Δ} {name : String} {rest : List String}
    {node : DirectoryNode Δ} {D : Δ}
    (hnode : (d.directories.find? fun e => e.name = name) = some node)
    (hdigest : node.digest = some D) (hd' : contents D = some d') (hrest : rest ≠ []) :
    lookup contents d (name :: rest) = lookup contents d' rest := by
  cases rest with
  | nil => exact absurd rfl hrest
  | cons => simp [lookup, hnode, hdigest, hd']

/-- Below a directory that is found there is what its digest stands for. -/
theorem lookup_append {d d' : Directory Δ} {p r : List String} {D : Δ}
    (hp : lookup contents d p = some (.directory D)) (hd' : contents D = some d') (hr : r ≠ []) :
    lookup contents d (p ++ r) = lookup contents d' r := by
  induction p generalizing d with
  | nil => cases hp
  | cons n p ih =>
    cases p with
    | nil =>
      rw [lookup, Directory.entry] at hp
      split at hp
      · cases hp
      · cases hp
      · obtain ⟨node, hnode, hdigest⟩ := Option.bind_eq_some_iff.mp hp
        obtain ⟨D', hD', heq⟩ := Option.map_eq_some_iff.mp hdigest
        cases heq
        exact lookup_of_find contents hnode hD' hd' hr
    | cons =>
      simp only [lookup, Option.bind_eq_bind, Option.bind_eq_some_iff] at hp
      obtain ⟨node, hnode, D₁, hD₁, d₁, hd₁, hp⟩ := hp
      rw [cons_append, lookup_of_find contents hnode hD₁ hd₁ (by simp), ih hp]

/-! ## Dropping duplicates -/

section dedupe

variable {α : Type} {name : α → String} {last : String} {xs : List α} {x : α}

theorem mem_of_mem_dedupe (h : x ∈ (dedupe name last xs).1) : x ∈ xs := by
  induction xs generalizing last with
  | nil => exact h
  | cons y ys ih =>
    rw [dedupe] at h
    split at h
    · rcases mem_cons.mp h with rfl | h
      · exact mem_cons_self
      · exact mem_cons_of_mem _ (ih h)
    · exact mem_cons_of_mem _ (ih h)

theorem last_dedupe : (dedupe name last xs).2 = last ∨ ∃ x ∈ xs, name x =
    (dedupe name last xs).2 := by
  induction xs generalizing last with
  | nil => exact .inl rfl
  | cons y ys ih =>
    rw [dedupe]
    split
    · rcases @ih (name y) with h | ⟨x, hx, h⟩
      · exact .inr ⟨y, mem_cons_self, h.symm⟩
      · exact .inr ⟨x, mem_cons_of_mem _ hx, h⟩
    · rcases @ih last with h | ⟨x, hx, h⟩
      · exact .inl h
      · exact .inr ⟨x, mem_cons_of_mem _ hx, h⟩

/-- A name is lost only if it is the one that the loop starts from. -/
theorem exists_mem_dedupe (hx : x ∈ xs) (hlast : name x ≠ last) :
    ∃ y ∈ (dedupe name last xs).1, name y = name x := by
  induction xs generalizing last with
  | nil => cases hx
  | cons y ys ih =>
    rw [dedupe]
    by_cases hy : name y = last
    · rw [if_neg (not_not.mpr hy)]
      rcases mem_cons.mp hx with rfl | hx
      · exact absurd hy hlast
      · exact ih hx hlast
    · rw [if_pos hy]
      by_cases hxy : name x = name y
      · exact ⟨y, mem_cons_self, hxy.symm⟩
      · have hx : x ∈ ys := (mem_cons.mp hx).resolve_left fun h => hxy (h ▸ rfl)
        obtain ⟨z, hz, hname⟩ := ih hx hxy
        exact ⟨z, mem_cons_of_mem _ hz, hname⟩

end dedupe

section finish

variable {s : Sorting} {d : Directory Δ}

theorem mem_of_mem_finish_files {f : FileNode Δ} (h : f ∈ (d.finish s).files) : f ∈ d.files :=
  (s.perm _ _).mem_iff.mp (mem_of_mem_dedupe h)

theorem mem_of_mem_finish_directories {e : DirectoryNode Δ} (h : e ∈ (d.finish s).directories) :
    e ∈ d.directories :=
  (s.perm _ _).mem_iff.mp (mem_of_mem_dedupe h)

theorem mem_of_mem_finish_symlinks {l : SymlinkNode} (h : l ∈ (d.finish s).symlinks) :
    l ∈ d.symlinks :=
  (s.perm _ _).mem_iff.mp (mem_of_mem_dedupe h)

/-- The `last` that the loop over the directories starts from. -/
theorem last_files (name : String) (hne : name ≠ "") (hfile : ∀ f ∈ d.files, f.name ≠ name) :
    name ≠ (dedupe FileNode.name "" (s.sort FileNode.name d.files)).2 := by
  rintro h
  rcases last_dedupe (α := FileNode Δ) with hlast | ⟨f, hf, hlast⟩
  · exact hne (h.trans hlast)
  · exact hfile f ((s.perm _ _).mem_iff.mp hf) (hlast.trans h.symm)

theorem exists_finish_file {f : FileNode Δ} (hf : f ∈ d.files) (hne : f.name ≠ "") :
    ∃ g ∈ (d.finish s).files, g.name = f.name :=
  exists_mem_dedupe ((s.perm _ _).mem_iff.mpr hf) hne

theorem exists_finish_directory {e : DirectoryNode Δ} (he : e ∈ d.directories) (hne : e.name ≠ "")
    (hfile : ∀ f ∈ d.files, f.name ≠ e.name) : ∃ g ∈ (d.finish s).directories, g.name = e.name :=
  exists_mem_dedupe ((s.perm _ _).mem_iff.mpr he) (last_files e.name hne hfile)

theorem exists_finish_symlink {l : SymlinkNode} (hl : l ∈ d.symlinks) (hne : l.name ≠ "")
    (hfile : ∀ f ∈ d.files, f.name ≠ l.name) (hdir : ∀ e ∈ d.directories, e.name ≠ l.name) :
    ∃ g ∈ (d.finish s).symlinks, g.name = l.name := by
  refine exists_mem_dedupe ((s.perm _ _).mem_iff.mpr hl) fun h => ?_
  rcases last_dedupe (α := DirectoryNode Δ) with hlast | ⟨e, he, hlast⟩
  · exact last_files l.name hne hfile (h.trans hlast)
  · exact hdir e ((s.perm _ _).mem_iff.mp he) (hlast.trans h.symm)

end finish

/-! ## What a directory holds -/

/-- A node of a directory: an entry that was added, or a directory that has no digest yet. -/
def Directory.Has (d : Directory Δ) (name : String) : Option (Entry Δ) → Prop
  | some (.file digest isExecutable) => ⟨name, digest, isExecutable⟩ ∈ d.files
  | some (.directory digest) => ⟨name, some digest⟩ ∈ d.directories
  | some (.symlink target) => ⟨name, target⟩ ∈ d.symlinks
  | none => ⟨name, none⟩ ∈ d.directories

section nodes

variable {d : Directory Δ} {name child : String} {e : Entry Δ} {o : Option (Entry Δ)}

@[simp]
theorem not_has_empty : ¬({} : Directory Δ).Has name o := by
  rcases o with _ | _ | _ | _ <;> simp [Directory.Has]

theorem has_append {n : String} :
    (d.append n e).Has name o ↔ d.Has name o ∨ (name = n ∧ o = some e) := by
  cases e <;> rcases o with _ | _ | _ | _ <;> simp [Directory.append, Directory.Has]

theorem hasChild_iff :
    hasChild d child = true ↔ d.Has child none ∨ ∃ D, d.Has child (some (.directory D)) := by
  simp only [hasChild, any_eq_true, decide_eq_true_eq, Directory.Has]
  constructor
  · rintro ⟨⟨_, _ | D⟩, he, rfl⟩
    · exact .inl he
    · exact .inr ⟨D, he⟩
  · rintro (h | ⟨D, h⟩)
    · exact ⟨_, h, rfl⟩
    · exact ⟨_, h, rfl⟩

theorem has_addChild :
    (d.addChild child).Has name o ↔
      d.Has name o ∨ (child ≠ "" ∧ hasChild d child = false ∧ name = child ∧ o = none) := by
  rw [Directory.addChild]
  split
  case isTrue h => rcases o with _ | _ | _ | _ <;> simp [Directory.Has, h.1, h.2]
  case isFalse h => exact ⟨.inl, fun h' => h'.elim id fun h' => absurd ⟨h'.1, h'.2.1⟩ h⟩

theorem hasChild_addChild (hne : child ≠ "") : hasChild (d.addChild child) child = true := by
  cases h : hasChild d child with
  | true =>
    rw [hasChild_iff] at h ⊢
    rcases h with h | ⟨D, h⟩
    · exact .inl (has_addChild.mpr (.inl h))
    · exact .inr ⟨D, has_addChild.mpr (.inl h)⟩
  | false => exact hasChild_iff.mpr (.inl (has_addChild.mpr (.inr ⟨hne, h, rfl, rfl⟩)))

theorem has_ite_addChild {P : Prop} [Decidable P] (h : d.Has name o) :
    (if P then d.addChild child else d).Has name o := by
  split
  · exact has_addChild.mpr (.inl h)
  · exact h

/-- The entry of a name that has one node. -/
theorem entry_eq (hhas : d.Has name (some e)) (hunique : ∀ o, d.Has name o → o = some e) :
    d.entry name = some e := by
  have hfile {f : FileNode Δ} (hf : (d.files.find? fun f => f.name = name) = some f) :
      some (.file f.digest f.isExecutable) = some e := by
    have hname : f.name = name := by simpa using find?_some hf
    exact hunique _ (by rw [← hname]; exact mem_of_find?_eq_some hf)
  have hlink {l : SymlinkNode} (hl : (d.symlinks.find? fun l => l.name = name) = some l) :
      some (.symlink l.target) = some e := by
    have hname : l.name = name := by simpa using find?_some hl
    exact hunique _ (by rw [← hname]; exact mem_of_find?_eq_some hl)
  rw [Directory.entry]
  split
  · next hf => exact hfile hf
  · next l _ hl => exact hlink hl
  · next hf hl =>
    rw [find?_eq_none] at hf hl
    cases e with
    | file => exact absurd (decide_eq_true rfl) (hf _ hhas)
    | symlink => exact absurd (decide_eq_true rfl) (hl _ hhas)
    | directory =>
      obtain ⟨node, hnode⟩ : ∃ node, (d.directories.find? fun e => e.name = name) = some node := by
        rw [← Option.isSome_iff_exists, find?_isSome]
        exact ⟨_, hhas, by simp⟩
      obtain ⟨n, D'⟩ := node
      obtain rfl : n = name := by simpa using find?_some hnode
      have hmem := mem_of_find?_eq_some hnode
      cases D' with
      | none => cases hunique none hmem
      | some D' => simpa [hnode] using hunique (some (.directory D')) hmem

@[simp]
theorem addChild_empty_name : d.addChild "" = d := by
  simp [Directory.addChild]

end nodes

/-! ## Making the directories of a path -/

namespace DirBuilder

variable {b : DirBuilder Δ} {p q : Path} {d : Directory Δ} {f : Directory Δ → Directory Δ}

@[simp]
theorem set_dirs_self : (b.set p d).dirs p = some d := update_self ..

theorem set_dirs_of_ne (h : q ≠ p) : (b.set p d).dirs q = b.dirs q := update_of_ne h ..

@[simp]
theorem modify_dirs_self : (b.modify p f).dirs p = (b.dirs p).map f := update_self ..

theorem modify_dirs_of_ne (h : q ≠ p) : (b.modify p f).dirs q = b.dirs q :=
  update_of_ne h ..

theorem modify_set_comm (h : p ≠ q) : (b.set p d).modify q f = (b.modify q f).set p d := by
  simp only [modify, set, update_of_ne h.symm, mk.injEq]
  rw [update_comm h]

theorem modify_id (h : ∀ d, f d = d) : b.modify p f = b := by
  have hf : f = id := funext h
  simp [modify, hf]

/-- The child is added to the directory when that is there. -/
theorem dir_eq (child : String) :
    b.dir p child = (b.dir p "").modify p fun d => d.addChild child := by
  cases p with
  | nil | cons base parent => simp [dir, modify_id]

theorem dir_cons (base : String) (parent : Path) :
    b.dir (base :: parent) "" =
      if (b.dirs (base :: parent)).isSome then b
      else ((b.set (base :: parent) {}).dir parent "").modify parent fun d => d.addChild base := by
  rw [dir, modify_id fun _ => addChild_empty_name, dir_eq base]

/-- A directory further down does not matter for the directories of a path. -/
theorem dir_set_comm (h : p.length < q.length) : (b.set q d).dir p "" = (b.dir p "").set q d := by
  induction p generalizing b with
  | nil => simp [dir, modify_id]
  | cons base parent ih =>
    have hne : base :: parent ≠ q := fun h' => by simp [h'] at h
    have hparent : parent.length < q.length := by simp at h; omega
    have hne' : q ≠ parent := fun h' => by simp [h'] at hparent
    rw [dir_cons, dir_cons, set_dirs_of_ne hne]
    split
    · rfl
    · have hcomm : (b.set q d).set (base :: parent) {} = (b.set (base :: parent) {}).set q d := by
        simp only [set, mk.injEq]
        rw [update_comm hne.symm]
      rw [hcomm, ih hparent, modify_set_comm hne']

/-- A new directory, as a child of its parent. -/
def link (b : DirBuilder Δ) (base : String) (parent : Path) : DirBuilder Δ :=
  (b.modify parent fun d => d.addChild base).set (base :: parent) {}

/-- The parent is made first. -/
theorem dir_cons_eq_link (base : String) (parent : Path) :
    b.dir (base :: parent) "" =
      if (b.dirs (base :: parent)).isSome then b else (b.dir parent "").link base parent := by
  have hne : base :: parent ≠ parent := fun h => by simpa using congrArg length h
  rw [dir_cons, dir_set_comm (by simp), modify_set_comm hne, link]

/-- What `link` leaves in a directory. -/
theorem link_dirs {base : String} {parent : Path}
    (h : (b.link base parent).dirs q = some d) :
    (q = base :: parent ∧ d = {}) ∨
      ∃ d₀, b.dirs q = some d₀ ∧ d = if q = parent then d₀.addChild base else d₀ := by
  by_cases hq : q = base :: parent
  · subst hq
    rw [link, set_dirs_self] at h
    exact .inl ⟨rfl, (Option.some.inj h).symm⟩
  · rw [link, set_dirs_of_ne hq] at h
    refine .inr ?_
    by_cases hp : q = parent
    · subst hp
      rw [modify_dirs_self, Option.map_eq_some_iff] at h
      obtain ⟨d₀, hd₀, rfl⟩ := h
      exact ⟨d₀, hd₀, (if_pos rfl).symm⟩
    · rw [modify_dirs_of_ne hp] at h
      exact ⟨d, h, (if_neg hp).symm⟩

theorem dirs_link {base : String} {parent : Path}
    (hq : q ≠ base :: parent) (h : b.dirs q = some d) :
    (b.link base parent).dirs q = some (if q = parent then d.addChild base else d) := by
  rw [link, set_dirs_of_ne hq]
  by_cases hp : q = parent
  · subst hp
    rw [modify_dirs_self, h, if_pos rfl, Option.map_some]
  · rw [modify_dirs_of_ne hp, h, if_neg hp]

theorem dir_dirs_of_lt (h : p.length < q.length) : (b.dir p "").dirs q = b.dirs q := by
  induction p with
  | nil => rw [dir, modify_id fun _ => addChild_empty_name]
  | cons base parent ih =>
    have hparent : parent.length < q.length := by simp at h; omega
    have hne : q ≠ base :: parent := fun h' => by simp [h'] at h
    have hne' : q ≠ parent := fun h' => by simp [h'] at hparent
    rw [dir_cons_eq_link]
    split
    · rfl
    · rw [link, set_dirs_of_ne hne, modify_dirs_of_ne hne', ih hparent]

end DirBuilder

end Please.Remote
