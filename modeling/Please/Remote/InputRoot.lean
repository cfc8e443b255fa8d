import Please.Remote.DirBuilder

/-!
# Completeness of the input root

What is in the tree that `dirBuilder.Build` returns after the additions of `uploadInputDir`. `Holds`
is what is true of the builder between two additions.

A directory that was added with its digest and has other entries added below it loses one or the
other: the builder keeps a directory of its own for those, but only one node of that name is left.

* `build_complete`: nothing added is lost, if what is below a directory with a digest is part of it.
* `entry_below_digest_lost`: otherwise entries are lost.
-/

namespace Please.Remote

open List Option DirBuilder Addition Lib.Except Directory

variable {Δ : Type} (hash : Directory Δ → Δ) (contents : Δ → Option (Directory Δ)) (s : Sorting)

/-! ## What the additions leave behind -/

/-- What is asked of the additions. One path has one entry. What is added below another entry is
added after that, and is part of it already, so that must be a directory. -/
structure Consistent (additions : List (Addition Δ)) : Prop where
  same_path : ∀ a ∈ additions, ∀ a' ∈ additions, a.path = a'.path → a.entry = a'.entry
  below : ∀ a ∈ additions, ∀ a' ∈ additions, ∀ r, r ≠ [] → a.path = r ++ a'.path →
    ∃ D d, a'.entry = .directory D ∧ contents D = some d ∧
      lookup contents d r.reverse = some a.entry
  after : ∀ earlier a later, additions = earlier ++ a :: later → ∀ a' ∈ additions, ∀ r, r ≠ [] →
    a.path = r ++ a'.path → ∃ a'' ∈ earlier, a''.path = a'.path

/-- The state of the builder when the additions `done` have been made and directories only for
`seen`. -/
structure Holds (all seen done : List (Addition Δ)) (b : DirBuilder Δ) : Prop where
  root : (b.dirs []).isSome
  linked : ∀ n q, (b.dirs (n :: q)).isSome → ∃ d, b.dirs q = some d ∧ hasChild d n = true
  used : ∀ n q, (b.dirs (n :: q)).isSome → ∃ a ∈ seen, ∃ r, a.parent = r ++ n :: q
  added : ∀ a ∈ done, ∃ d, b.dirs a.parent = some d ∧ d.Has a.name (some a.entry)
  has_entry : ∀ q d n e, b.dirs q = some d → d.Has n (some e) →
    ∃ a ∈ done, a.parent = q ∧ a.name = n ∧ a.entry = e
  has_none : ∀ q d n, b.dirs q = some d → d.Has n none →
    (b.dirs (n :: q)).isSome ∧ ∀ a ∈ all, a.path ≠ n :: q

namespace Holds

variable {all seen done : List (Addition Δ)} {b : DirBuilder Δ}

theorem new : Holds all [] [] (new : DirBuilder Δ) where
  root := by simp [DirBuilder.new]
  linked n q h := by simp [DirBuilder.new] at h
  used n q h := by simp [DirBuilder.new] at h
  added := by simp
  has_entry q d n e hd hhas := by
    by_cases hq : q = [] <;> simp [DirBuilder.new, hq] at hd
    exact absurd (hd ▸ hhas) not_has_empty
  has_none q d n hd hhas := by
    by_cases hq : q = [] <;> simp [DirBuilder.new, hq] at hd
    exact absurd (hd ▸ hhas) not_has_empty

section

variable (h : Holds all seen done b)
include h

theorem mono {seen' : List (Addition Δ)} (hsub : seen ⊆ seen') : Holds all seen' done b where
  root := h.root
  linked := h.linked
  used n q hq := by
    obtain ⟨a, ha, hr⟩ := h.used n q hq
    exact ⟨a, hsub ha, hr⟩
  added := h.added
  has_entry := h.has_entry
  has_none := h.has_none

/-- The directories above a directory are there. -/
theorem isSome_of_append {r q : Path} (hq : (b.dirs (r ++ q)).isSome) : (b.dirs q).isSome := by
  induction r with
  | nil => exact hq
  | cons n r ih =>
    obtain ⟨d, hd, -⟩ := h.linked n (r ++ q) hq
    exact ih (by simp [hd])

/-- Making one more directory. Its name is new in its parent, or the parent has a directory with a
digest of that name; then the new one is not reached from the root. -/
theorem link {n : String} {q : Path} (hn : n ≠ "") (hnew : b.dirs (n :: q) = none)
    (hq : (b.dirs q).isSome) (hseen : ∃ a ∈ seen, ∃ r, a.parent = r ++ n :: q)
    (hall : ∀ d, b.dirs q = some d → hasChild d n = false → ∀ a ∈ all, a.path ≠ n :: q) :
    Holds all seen done (b.link n q) := by
  have hne {p : Path} {d : Directory Δ} (hp : b.dirs p = some d) : p ≠ n :: q := fun h' => by
    simp [h', hnew] at hp
  have hsome {p : Path} (hp : (b.dirs p).isSome) : ((b.link n q).dirs p).isSome := by
    obtain ⟨d, hd⟩ := isSome_iff_exists.mp hp
    simp [dirs_link (hne hd) hd]
  have hself : ((b.link n q).dirs (n :: q)).isSome := by simp [DirBuilder.link]
  refine ⟨hsome h.root, fun m p hp => ?_, fun m p hp => ?_, fun a ha => ?_,
    fun p d m e hd hhas => ?_, fun p d m hd hhas => ?_⟩
  · -- the parent of a directory has it as a child
    obtain ⟨d', hd'⟩ := isSome_iff_exists.mp hp
    rcases link_dirs hd' with ⟨heq, -⟩ | ⟨d₀, hd₀, -⟩
    · obtain ⟨rfl, rfl⟩ := cons_eq_cons.mp heq
      obtain ⟨d, hd⟩ := isSome_iff_exists.mp hq
      exact ⟨_, dirs_link (hne hd) hd, by simp [hasChild_addChild hn]⟩
    · obtain ⟨d, hd, hchild⟩ := h.linked m p (by simp [hd₀])
      refine ⟨_, dirs_link (hne hd) hd, ?_⟩
      rcases hasChild_iff.mp hchild with hhas | ⟨D, hhas⟩
      · exact hasChild_iff.mpr (.inl (has_ite_addChild hhas))
      · exact hasChild_iff.mpr (.inr ⟨D, has_ite_addChild hhas⟩)
  · obtain ⟨d', hd'⟩ := isSome_iff_exists.mp hp
    rcases link_dirs hd' with ⟨heq, -⟩ | ⟨d₀, hd₀, -⟩
    · exact heq ▸ hseen
    · exact h.used m p (by simp [hd₀])
  · obtain ⟨d, hd, hhas⟩ := h.added a ha
    exact ⟨_, dirs_link (hne hd) hd, has_ite_addChild hhas⟩
  · rcases link_dirs hd with ⟨-, rfl⟩ | ⟨d₀, hd₀, rfl⟩
    · exact absurd hhas not_has_empty
    · refine h.has_entry p d₀ m e hd₀ ?_
      split at hhas
      · exact (has_addChild.mp hhas).resolve_right fun h' => by simp at h'
      · exact hhas
  · rcases link_dirs hd with ⟨-, rfl⟩ | ⟨d₀, hd₀, rfl⟩
    · exact absurd hhas not_has_empty
    · have hold (h' : d₀.Has m none) := h.has_none p d₀ m hd₀ h'
      split at hhas
      case isFalse => exact ⟨hsome (hold hhas).1, (hold hhas).2⟩
      case isTrue hpq =>
        subst hpq
        rcases has_addChild.mp hhas with hhas | ⟨-, hchild, rfl, -⟩
        · exact ⟨hsome (hold hhas).1, (hold hhas).2⟩
        · exact ⟨hself, hall d₀ hd₀ hchild⟩

theorem append (a : Addition Δ) (ha : (b.dirs a.parent).isSome) :
    Holds all seen (done ++ [a]) (b.modify a.parent fun d => d.append a.name a.entry) := by
  obtain ⟨d₀, hd₀⟩ := isSome_iff_exists.mp ha
  have hself : (b.modify a.parent fun d => d.append a.name a.entry).dirs a.parent =
      some (d₀.append a.name a.entry) := by simp [hd₀]
  -- what a directory had it still has
  have hkeep {p : Path} {d : Directory Δ} (hd : b.dirs p = some d) :
      ∃ d', (b.modify a.parent fun d => d.append a.name a.entry).dirs p = some d' ∧
        ∀ n o, d.Has n o → d'.Has n o := by
    by_cases hp : p = a.parent
    · subst hp
      obtain rfl : d₀ = d := some.inj (hd₀.symm.trans hd)
      exact ⟨_, hself, fun n o h' => has_append.mpr (.inl h')⟩
    · exact ⟨d, by rw [modify_dirs_of_ne hp, hd], fun _ _ h' => h'⟩
  have hback {p : Path} {d' : Directory Δ}
      (hd' : (b.modify a.parent fun d => d.append a.name a.entry).dirs p = some d') :
      ∃ d, b.dirs p = some d ∧
        ∀ n o, d'.Has n o → d.Has n o ∨ (p = a.parent ∧ n = a.name ∧ o = some a.entry) := by
    by_cases hp : p = a.parent
    · subst hp
      obtain rfl := some.inj (hself.symm.trans hd')
      exact ⟨d₀, hd₀, fun n o h' => (has_append.mp h').imp_right fun h'' => ⟨rfl, h''⟩⟩
    · rw [modify_dirs_of_ne hp] at hd'
      exact ⟨d', hd', fun _ _ h' => .inl h'⟩
  have hsome {p : Path} :
      ((b.modify a.parent fun d => d.append a.name a.entry).dirs p).isSome ↔ (b.dirs p).isSome := by
    simp only [isSome_iff_exists]
    exact ⟨fun ⟨d, hd⟩ => (hback hd).imp fun _ h' => h'.1,
      fun ⟨d, hd⟩ => (hkeep hd).imp fun _ h' => h'.1⟩
  refine ⟨hsome.mpr h.root, fun n q hq => ?_, fun n q hq => h.used n q (hsome.mp hq),
    fun a' ha' => ?_, fun q d' n e hd' hhas => ?_, fun q d' n hd' hhas => ?_⟩
  · obtain ⟨d, hd, hchild⟩ := h.linked n q (hsome.mp hq)
    obtain ⟨d', hd', hsub⟩ := hkeep hd
    rw [hasChild_iff] at hchild
    exact ⟨d', hd', hasChild_iff.mpr (hchild.imp (hsub _ _) fun ⟨D, hD⟩ => ⟨D, hsub _ _ hD⟩)⟩
  · rcases mem_append.mp ha' with ha' | ha'
    · obtain ⟨d, hd, hhas⟩ := h.added a' ha'
      obtain ⟨d', hd', hsub⟩ := hkeep hd
      exact ⟨d', hd', hsub _ _ hhas⟩
    · obtain rfl := mem_singleton.mp ha'
      exact ⟨_, hself, has_append.mpr (.inr ⟨rfl, rfl⟩)⟩
  · obtain ⟨d, hd, hsub⟩ := hback hd'
    rcases hsub n (some e) hhas with hhas | ⟨rfl, rfl, heq⟩
    · obtain ⟨a', ha', h'⟩ := h.has_entry q d n e hd hhas
      exact ⟨a', mem_append_left _ ha', h'⟩
    · exact ⟨a, by simp, rfl, rfl, (some.inj heq).symm⟩
  · obtain ⟨d, hd, hsub⟩ := hback hd'
    rcases hsub n none hhas with hhas | ⟨-, -, heq⟩
    · obtain ⟨hchild, hne⟩ := h.has_none q d n hd hhas
      exact ⟨hsome.mpr hchild, hne⟩
    · cases heq

end

variable {later : List (Addition Δ)}

/-- The directories for an addition are made. -/
theorem dir {a : Addition Δ} {q r : Path} (h : Holds all seen done b)
    (hall : Consistent contents all) (hsplit : all = done ++ a :: later) (ha : a ∈ seen)
    (hr : a.parent = r ++ q) :
    Holds all seen done (b.dir q "") ∧ ((b.dir q "").dirs q).isSome := by
  induction q generalizing r with
  | nil =>
    have hb : b.dir [] "" = b := modify_id fun _ => addChild_empty_name
    rw [hb]
    exact ⟨h, h.root⟩
  | cons n q ih =>
    rw [dir_cons_eq_link]
    split
    case isTrue hsome => exact ⟨h, hsome⟩
    case isFalse hnone =>
      obtain ⟨h', hq⟩ := ih (r := r ++ [n]) (by simpa using hr)
      have hn : n ≠ "" := fun hn => a.clean (by simp [hr, hn])
      have hnew : (b.dir q "").dirs (n :: q) = none := by
        rw [dir_dirs_of_lt (by simp)]
        simpa using hnone
      refine ⟨h'.link hn hnew hq ⟨a, ha, r, hr⟩ fun d hd hchild a' ha' hpath => ?_,
        by simp [DirBuilder.link]⟩
      -- an entry of this path was there first, and it is a directory with a digest
      have hbelow : a.path = (a.name :: r) ++ a'.path := by rw [hpath]; simp [path, hr]
      obtain ⟨a'', ha'', hpath'⟩ := hall.after done a later hsplit a' ha' _ (by simp) hbelow
      have hmem : a'' ∈ all := by simp [hsplit, ha'']
      obtain ⟨D, -, hD, -⟩ := hall.below a (by simp [hsplit]) a'' hmem _ (by simp)
        (hpath' ▸ hbelow)
      obtain ⟨d', hd', hhas⟩ := h'.added a'' ha''
      obtain ⟨hname, hparent⟩ := cons_eq_cons.mp (hpath'.trans hpath)
      rw [hparent, hd] at hd'
      rw [← some.inj hd', hname, hD] at hhas
      have := hasChild_iff.mpr (.inr ⟨D, hhas⟩)
      rw [hchild] at this
      cases this

theorem add {a : Addition Δ} (h : Holds all done done b) (hall : Consistent contents all)
    (hsplit : all = done ++ a :: later) :
    Holds all (done ++ [a]) (done ++ [a]) (b.add a) := by
  have hseen : Holds all (done ++ [a]) done b := h.mono (subset_append_left _ _)
  obtain ⟨hdir, hsome⟩ := hseen.dir contents hall hsplit (by simp) (nil_append a.parent).symm
  exact hdir.append a hsome

theorem foldl_add (h : Holds all done done b) (hall : Consistent contents all)
    (hsplit : all = done ++ later) :
    Holds all all all (later.foldl DirBuilder.add b) := by
  induction later generalizing done b with
  | nil => simpa [hsplit] using h
  | cons a _ ih => exact ih (h.add contents hall hsplit) (by simpa using hsplit)

theorem addAll (hall : Consistent contents all) : Holds all all all (DirBuilder.addAll all) :=
  new.foldl_add contents hall rfl

end Holds

/-! ## The tree that is built -/

theorem DirectoryNode.withDigest_name {hash : Directory Δ → Δ}
    {walk : String → Option (Directory Δ × List (Directory Δ))} {e : DirectoryNode Δ}
    {node : DirectoryNode Δ × List (Directory Δ)} (h : e.withDigest hash walk = some node) :
    node.1.name = e.name := by
  obtain ⟨n, _ | D⟩ := e
  · obtain ⟨r, -, rfl⟩ := map_eq_some_iff.mp h
    rfl
  · obtain rfl := some.inj h
    rfl

namespace DirBuilder

variable {hash} {s} {b : DirBuilder Δ} {fuel : ℕ} {q : Path}

variable {r : Directory Δ × List (Directory Δ)}

/-- What `walk` returns for a directory: the directory `d` of the map, with digests for its
children, after sorting and dropping duplicates. -/
theorem walk_spec (h : b.walk hash s (fuel + 1) q = some r) :
    ∃ d d' : Directory Δ, b.dirs q = some d ∧ d'.files = d.files ∧ d'.symlinks = d.symlinks ∧
      r.1 = d'.finish s ∧ r.1 ∈ r.2 ∧
      (∀ n, hasChild d n = true → ∃ e ∈ d'.directories, e.name = n) ∧
      ∀ e ∈ d'.directories, (∃ D, e.digest = some D ∧ d.Has e.name (some (.directory D))) ∨
        (d.Has e.name none ∧ ∃ r', b.walk hash s fuel (e.name :: q) = some r' ∧
          e.digest = some (hash r'.1) ∧ r'.2 ⊆ r.2) := by
  simp only [walk, bind_eq_bind, bind_eq_some_iff, some.injEq] at h
  obtain ⟨d, hd, nodes, hnodes, rfl⟩ := h
  refine ⟨d, { d with directories := nodes.map Prod.fst }, hd, rfl, rfl, rfl, by simp, ?_, ?_⟩
  · intro n hn
    obtain ⟨e, he, hname⟩ : ∃ e ∈ d.directories, e.name = n := by simpa [hasChild] using hn
    have hmap := mapM_eq_some.mp hnodes
    obtain ⟨node, hnode, heq⟩ := mem_map.mp (hmap ▸ mem_map_of_mem he)
    refine ⟨node.1, mem_map_of_mem hnode, ?_⟩
    rw [← hname]
    exact DirectoryNode.withDigest_name heq.symm
  · intro e he
    obtain ⟨node, hnode, rfl⟩ := mem_map.mp he
    obtain ⟨⟨n, D⟩, he₀, heq⟩ := (mem_of_mapM_eq_some hnodes).mp hnode
    cases D with
    | some D =>
      obtain rfl := some.inj heq
      exact .inl ⟨D, rfl, he₀⟩
    | none =>
      obtain ⟨r', hr', rfl⟩ := map_eq_some_iff.mp heq
      exact .inr ⟨he₀, r', hr', rfl, fun x hx =>
        mem_append_left _ (mem_flatMap.mpr ⟨_, hnode, hx⟩)⟩

theorem walk_mem (h : b.walk hash s fuel q = some r) : r.1 ∈ r.2 := by
  cases fuel with
  | zero => cases h
  | succ =>
    obtain ⟨_, _, _, _, _, _, hmem, _⟩ := walk_spec h
    exact hmem

theorem exists_walk_succ {d : Directory Δ} (hd : b.dirs q = some d)
    (hchild : ∀ n, d.Has n none → ∃ r, b.walk hash s fuel (n :: q) = some r) :
    ∃ r, b.walk hash s (fuel + 1) q = some r := by
  have hnode : ∀ e ∈ d.directories, ∃ node,
      e.withDigest hash (fun child => b.walk hash s fuel (child :: q)) = some node := by
    rintro ⟨n, _ | D⟩ he
    · obtain ⟨r, hr⟩ := hchild n he
      exact ⟨(⟨n, some (hash r.1)⟩, r.2), by simp only [DirectoryNode.withDigest, hr, map_some]⟩
    · exact ⟨_, rfl⟩
  obtain ⟨nodes, hnodes⟩ := exists_mapM_eq_some hnode
  exact ⟨_, by simp only [walk, hd, hnodes, bind_eq_bind, bind_some]; rfl⟩

end DirBuilder

namespace Holds

variable {all : List (Addition Δ)} {b : DirBuilder Δ} {hash} {s}

/-- `walk` returns: a directory without a digest is above an added entry. -/
theorem exists_walk (h : Holds all all all b) (fuel : ℕ) (q : Path) (hq : (b.dirs q).isSome)
    (hfuel : ∀ a ∈ all, ∀ r, a.parent = r ++ q → r.length ≤ fuel) :
    ∃ r, b.walk hash s (fuel + 1) q = some r := by
  induction fuel generalizing q with
  | zero =>
    obtain ⟨d, hd⟩ := isSome_iff_exists.mp hq
    refine exists_walk_succ hd fun n hhas => ?_
    obtain ⟨hn, -⟩ := h.has_none q d n hd hhas
    obtain ⟨a, ha, r, hr⟩ := h.used n q hn
    simpa using hfuel a ha (r ++ [n]) (by simpa using hr)
  | succ _ ih =>
    obtain ⟨d, hd⟩ := isSome_iff_exists.mp hq
    refine exists_walk_succ hd fun n hhas => ?_
    obtain ⟨hn, -⟩ := h.has_none q d n hd hhas
    refine ih (n :: q) hn fun a ha r hr => ?_
    simpa using hfuel a ha (r ++ [n]) (by simpa using hr)

/-- No entry is added where the builder has a directory without a digest. -/
theorem entry_unique (h : Holds all all all b) (hall : Consistent contents all) {a : Addition Δ}
    (ha : a ∈ all) {d : Directory Δ} (hd : b.dirs a.parent = some d) {o : Option (Entry Δ)}
    (hhas : d.Has a.name o) : o = some a.entry := by
  cases o with
  | none => exact absurd rfl ((h.has_none a.parent d a.name hd hhas).2 a ha)
  | some e =>
    obtain ⟨a', ha', hparent, hname, rfl⟩ := h.has_entry a.parent d a.name e hd hhas
    rw [hall.same_path a' ha' a ha (by simp [path, hparent, hname])]

variable {r : Directory Δ × List (Directory Δ)}

variable (h : Holds all all all b) (hall : Consistent contents all) {a : Addition Δ} (ha : a ∈ all)
  {fuel : ℕ}
include h hall ha

/-- What is at the name of an added entry in the directory that `walk` returns. -/
theorem entry_walk (hwalk : b.walk hash s (fuel + 1) a.parent = some r) :
    r.1.entry a.name = some a.entry := by
  obtain ⟨d, d', hd, hfiles, hsymlinks, hr, -, hchildren, hdirs⟩ := walk_spec hwalk
  have hne : a.name ≠ "" := fun hn => a.clean (by simp [hn])
  have hunique {o : Option (Entry Δ)} := h.entry_unique contents hall ha hd (o := o)
  -- a node of this name in the result is one of the map's directory, so it is the entry
  have hfile (g : FileNode Δ) (hg : g ∈ d.files) (hname : g.name = a.name) :
      some (.file g.digest g.isExecutable) = some a.entry :=
    hunique (by rw [← hname]; exact hg)
  have hlink (g : SymlinkNode) (hg : g ∈ d.symlinks) (hname : g.name = a.name) :
      some (.symlink g.target) = some a.entry :=
    hunique (by rw [← hname]; exact hg)
  have hdir (g : DirectoryNode Δ) (hg : g ∈ d'.directories) (hname : g.name = a.name) :
      ∃ D, g = ⟨a.name, some D⟩ ∧ some (.directory D) = some a.entry := by
    obtain ⟨n, D⟩ := g
    obtain rfl : n = a.name := hname
    rcases hdirs _ hg with ⟨D, rfl, hhas⟩ | ⟨hhas, -⟩
    · exact ⟨D, rfl, hunique hhas⟩
    · cases hunique hhas
  obtain ⟨d₁, hd₁, hhas⟩ := h.added a ha
  obtain rfl : d = d₁ := some.inj (hd.symm.trans hd₁)
  have hex : r.1.Has a.name (some a.entry) := by
    rw [hr]
    have hnofile {e : Entry Δ} (he : a.entry = e) (hne' : ∀ D x, e ≠ .file D x) :
        ∀ f ∈ d'.files, f.name ≠ a.name := fun f hf hname =>
      hne' _ _ (he.symm.trans (some.inj (hfile f (hfiles ▸ hf) hname)).symm)
    cases he : a.entry with
    | file =>
      rw [he, Has, ← hfiles] at hhas
      obtain ⟨g, hg, hname : g.name = a.name⟩ := exists_finish_file (s := s) hhas hne
      rw [← he, ← hfile g (hfiles ▸ mem_of_mem_finish_files hg) hname, Has, ← hname]
      exact hg
    | directory D =>
      rw [he] at hhas
      obtain ⟨e, hmem, hname⟩ := hchildren a.name (hasChild_iff.mpr (.inr ⟨D, hhas⟩))
      obtain ⟨g, hg, hgname⟩ := exists_finish_directory (s := s) hmem (hname ▸ hne)
        (hname ▸ hnofile he (by simp))
      obtain ⟨D', rfl, hD'⟩ := hdir g (mem_of_mem_finish_directories hg) (hgname.trans hname)
      rw [← he, ← hD']
      exact hg
    | symlink =>
      rw [he, Has, ← hsymlinks] at hhas
      have hnodir : ∀ e ∈ d'.directories, e.name ≠ a.name := fun e hmem hname => by
        obtain ⟨D, -, hD⟩ := hdir e hmem hname
        cases some.inj (hD.trans (congrArg some he))
      obtain ⟨g, hg, hname : g.name = a.name⟩ :=
        exists_finish_symlink (s := s) hhas hne (hnofile he (by simp)) hnodir
      rw [← he, ← hlink g (hsymlinks ▸ mem_of_mem_finish_symlinks hg) hname, Has, ← hname]
      exact hg
  refine entry_eq hex fun o ho => ?_
  rw [hr] at ho
  rcases o with _ | ⟨D, x⟩ | D | t
  · obtain ⟨D, hD, -⟩ := hdir _ (mem_of_mem_finish_directories ho) rfl
    cases hD
  · exact hfile _ (hfiles ▸ mem_of_mem_finish_files ho) rfl
  · obtain ⟨D', hD, h'⟩ := hdir _ (mem_of_mem_finish_directories ho) rfl
    cases hD
    exact h'
  · exact hlink _ (hsymlinks ▸ mem_of_mem_finish_symlinks ho) rfl

/-- A directory above an added entry is found by its name: its node has the digest of what was
walked, or it was added with its digest. -/
theorem directory_walk {q t : Path} {n : String} (hpath : a.parent = t ++ n :: q)
    (hwalk : b.walk hash s (fuel + 1) q = some r) :
    ∃ node, (r.1.directories.find? fun e => e.name = n) = some node ∧
      ((∃ r', b.walk hash s fuel (n :: q) = some r' ∧ node.digest = some (hash r'.1) ∧ r'.2 ⊆ r.2) ∨
        ∃ a' ∈ all, ∃ D, a'.path = n :: q ∧ a'.entry = .directory D ∧ node.digest = some D) := by
  obtain ⟨d, d', hd, hfiles, -, hr, -, hchildren, hdirs⟩ := walk_spec hwalk
  obtain ⟨d₁, hd₁, -⟩ := h.added a ha
  have hsome : (b.dirs (n :: q)).isSome := h.isSome_of_append (r := t) (by simp [← hpath, hd₁])
  obtain ⟨d₂, hd₂, hchild⟩ := h.linked n q hsome
  obtain rfl : d = d₂ := some.inj (hd.symm.trans hd₂)
  have hn : n ≠ "" := fun hn => a.clean (by simp [hpath, hn])
  -- a file of this name would be above the entry
  have hnofile : ∀ f ∈ d'.files, f.name ≠ n := fun f hf hname => by
    obtain ⟨a', ha', hparent, hname', hentry⟩ :=
      h.has_entry q d f.name (.file f.digest f.isExecutable) hd
        (show f ∈ d.files from hfiles ▸ hf)
    have hbelow : a.path = (a.name :: t) ++ a'.path := by
      simp [path, hpath, hparent, hname', hname]
    obtain ⟨D, -, hD, -⟩ := hall.below a ha a' ha' _ (by simp) hbelow
    cases hentry.symm.trans hD
  obtain ⟨e, he, rfl⟩ := hchildren n hchild
  obtain ⟨g, hg, hgname⟩ := exists_finish_directory (s := s) he hn hnofile
  obtain ⟨node, hnode⟩ : ∃ node, (r.1.directories.find? fun e' => e'.name = e.name) =
      some node := by
    rw [← isSome_iff_exists, find?_isSome]
    exact ⟨g, hr ▸ hg, by simp [hgname]⟩
  have hname : node.name = e.name := by simpa using find?_some hnode
  refine ⟨node, hnode, ?_⟩
  rcases hdirs node (mem_of_mem_finish_directories (hr ▸ mem_of_find?_eq_some hnode)) with
    ⟨D, hD, hhas⟩ | ⟨-, r', hr', hdigest⟩
  · obtain ⟨a', ha', hparent, hname', hentry⟩ := h.has_entry q d _ _ hd hhas
    exact .inr ⟨a', ha', D, by simp [path, hparent, hname', hname], hentry, hD⟩
  · exact .inl ⟨r', hname ▸ hr', hdigest⟩

/-- What is found at the path of an added entry, from any directory above it on. -/
theorem lookup_walk (t : List String) {q : Path} (hpath : a.parent = t.reverse ++ q)
    (hwalk : b.walk hash s fuel q = some r) (hcontents : ∀ d ∈ r.2, contents (hash d) = some d) :
    lookup contents r.1 (t ++ [a.name]) = some a.entry := by
  -- along the path: into what was walked, or into a directory that holds the entry already
  induction t generalizing q fuel r with
  | nil =>
    cases fuel with
    | zero => cases hwalk
    | succ =>
      obtain rfl : a.parent = q := hpath
      exact h.entry_walk contents hall ha hwalk
  | cons n t ih =>
    cases fuel with
    | zero => cases hwalk
    | succ =>
      have hpath' : a.parent = t.reverse ++ n :: q := by simpa using hpath
      obtain ⟨node, hnode, ⟨r', hr', hdigest, hsub⟩ | ⟨a', ha', D, hat, hentry, hdigest⟩⟩ :=
        h.directory_walk contents hall ha hpath' hwalk
      · have hr'mem := hcontents r'.1 (hsub (walk_mem hr'))
        rw [cons_append, lookup_of_find contents hnode hdigest hr'mem (by simp)]
        exact ih hpath' hr' fun d hd => hcontents d (hsub hd)
      · have hbelow : a.path = (a.name :: t.reverse) ++ a'.path := by
          rw [hat]
          simp [path, hpath']
        obtain ⟨D', d', hD', hd', hlookup⟩ := hall.below a ha a' ha' _ (by simp) hbelow
        cases hentry.symm.trans hD'
        rw [cons_append, lookup_of_find contents hnode hdigest hd' (by simp)]
        simpa using hlookup

end Holds

/-- Nothing that was added is lost. Every added entry is found at its path in the directory that
`Build` returns, and below an added directory every entry that it has; provided that the server has
the directories that `Build` sent to it. -/
theorem build_complete (additions : List (Addition Δ)) (hadd : Consistent contents additions)
    (fuel : ℕ) (hfuel : ∀ a ∈ additions, a.parent.length ≤ fuel) :
    ∃ root sent, (addAll additions).build hash s (fuel + 1) = some (root, sent) ∧
      ((∀ d ∈ sent, contents (hash d) = some d) → ∀ a ∈ additions,
        lookup contents root a.path.reverse = some a.entry ∧
        ∀ D d p e, a.entry = .directory D → contents D = some d → lookup contents d p = some e →
          lookup contents root (a.path.reverse ++ p) = some e) := by
  have h := Holds.addAll contents hadd
  obtain ⟨r, hr⟩ : ∃ r, (addAll additions).walk hash s (fuel + 1) [] = some r :=
    h.exists_walk fuel [] h.root fun a ha t ht => by simpa [ht] using hfuel a ha
  refine ⟨r.1, r.2, hr, fun hcontents a ha => ?_⟩
  have hfound : lookup contents r.1 a.path.reverse = some a.entry := by
    simpa [path] using
      h.lookup_walk contents hadd ha a.parent.reverse (by simp) hr hcontents
  refine ⟨hfound, fun D d p e hD hd hp => ?_⟩
  have hne : p ≠ [] := fun h' => by simp [h', lookup] at hp
  rw [lookup_append contents (hD ▸ hfound) hd hne, hp]

/-! ## Digests without collisions -/

/-- A digest is what it was computed from. -/
inductive Digest where
  | blob (content : String)
  | directory (d : Directory Digest)

/-- A server that has every directory. -/
def Digest.read : Digest → Option (Directory Digest)
  | .blob _ => none
  | .directory d => some d

/-- A stable sort. -/
def byName : Sorting where
  sort name l := l.insertionSort fun a b => name a ≤ name b
  perm name l := l.perm_insertionSort _
  sorted {α} name l := by
    have : Std.Total fun a b : α => name a ≤ name b := ⟨fun a b => le_total (name a) (name b)⟩
    have : IsTrans α fun a b => name a ≤ name b := ⟨fun _ _ _ => le_trans⟩
    exact List.pairwise_insertionSort _ l

/-- A dependency has a directory `out` among its outputs, with a file `x` in it. -/
def outDirectory : Addition Digest where
  parent := []
  name := "out"
  entry := .directory (.directory { files := [⟨"x", .blob "x", false⟩] })
  clean := by decide

/-- Another one has a file `out/y`. -/
def outFile : Addition Digest where
  parent := ["out"]
  name := "y"
  entry := .file (.blob "y") false
  clean := by decide

/-- A filegroup adds what is in the directory too. -/
def outChild : Addition Digest where
  parent := ["out"]
  name := "x"
  entry := .file (.blob "x") false
  clean := by decide

/-- The file is all that is below anything here. -/
theorem below_outDirectory {a a' : Addition Digest} (ha : a ∈ [outDirectory, outChild])
    (ha' : a' ∈ [outDirectory, outChild]) {r : List String} (hr : r ≠ [])
    (hpath : a.path = r ++ a'.path) : a = outChild ∧ a' = outDirectory ∧ r = ["x"] := by
  simp only [mem_cons, not_mem_nil, or_false] at ha ha'
  rcases ha with rfl | rfl
  · have hlen := congrArg length hpath
    have hpos := length_pos_iff.mpr hr
    rcases ha' with rfl | rfl <;>
    · simp only [path, outDirectory, outChild, length_append, length_cons,
        length_nil] at hlen
      omega
  · rcases ha' with rfl | rfl
    · exact ⟨rfl, rfl, (append_cancel_right (show ["x"] ++ ["out"] = r ++ ["out"] from hpath)).symm⟩
    · exact absurd (self_eq_append_left.mp hpath) hr

theorem consistent_outChild : Consistent Digest.read [outDirectory, outChild] where
  same_path := by
    simp [path, outDirectory, outChild]
  below a ha a' ha' r hr hpath := by
    obtain ⟨rfl, rfl, rfl⟩ := below_outDirectory ha ha' hr hpath
    exact ⟨_, _, rfl, rfl, rfl⟩
  after earlier a later hsplit a' ha' r hr hpath := by
    obtain ⟨rfl, rfl, -⟩ := below_outDirectory (hsplit ▸ by simp) ha' hr hpath
    cases earlier with
    | nil =>
      have := congrArg name (cons_eq_cons.mp hsplit).1
      simp [outDirectory, outChild] at this
    | cons b => exact ⟨b, mem_cons_self, by rw [(cons_eq_cons.mp hsplit).1]⟩

theorem build_complete_outChild :
    Consistent Digest.read [outDirectory, outChild] ∧
      ∃ root sent, (addAll [outDirectory, outChild]).build .directory byName 2 =
          some (root, sent) ∧
        lookup Digest.read root ["out", "x"] = some (.file (.blob "x") false) := by
  refine ⟨consistent_outChild, ?_⟩
  obtain ⟨root, sent, hbuild, h⟩ := build_complete .directory Digest.read byName
    [outDirectory, outChild] consistent_outChild 1 (by simp [outDirectory, outChild])
  exact ⟨root, sent, hbuild, (h (fun _ _ => rfl) outChild (by simp)).1⟩

/-- If the directory is added first the file is lost, otherwise what is in the directory. -/
theorem entry_below_digest_lost :
    ((addAll [outDirectory, outFile]).build .directory byName 2).map
        (fun r => lookup Digest.read r.1 ["out", "y"]) = some none ∧
      ((addAll [outFile, outDirectory]).build .directory byName 2).map
        (fun r => lookup Digest.read r.1 ["out", "x"]) = some none := by
  exact ⟨rfl, rfl⟩

end Please.Remote
