import Please.Fs.Path

/-!
# The hashes of paths

Model of `PathHasher` (`src/fs/hash.go`, lines 76–291): the memo, which `CopyHash` may give a nil
entry, and the hashes that are stored as extended attributes. `Hash` is `PathHasher.hashPath` here,
and `hash` is `PathHasher.hash`. Calls come one after another, so nothing is ever waited for.

* `results_coherent`: what `Hash` returns, after any calls, if each path is hashed in one way only.
* `ensureRelative_faithful_iff`: which absolute paths `ensureRelative` takes for paths in the
  repository by mistake.
-/

namespace Please.Fs

open List

/-- The machine that paths are hashed on. -/
structure HashHost (D : Type) extends Env where
  sum : Bytes → D
  useXattrs : Bool
  lstat : String → Option Node
  /-- what is at the path can be read -/
  readable : String → Bool
  /-- the time of modification, as `timestampHash` formats it -/
  modTime : String → Bytes
  /-- `storeHash` succeeds, perhaps after it has made the file writable -/
  settable : String → Bool

/-- A `PathHasher`, with the attributes of the files. -/
structure PathHasher (D : Type) where
  memo : String → Option (Option D)
  xattrs : String → Option D

variable {D : Type} (host : HashHost D)

/-- `hash` from where the attributes have been looked at. -/
def HashHost.calculate (path : String) (timestamp : Bool) : Option D :=
  match host.lstat path with
  | none => none
  | some (.file contents) =>
    if timestamp then some (host.sum (host.modTime path))
    else if host.readable path then some (host.sum contents) else none
  | some node => if host.readable path then (node.bytes host.toEnv path).map host.sum else none

def HashHost.isSymlink (path : String) : Bool :=
  match host.lstat path with
  | some (.symlink _) => true
  | _ => false

namespace PathHasher

variable (hasher : PathHasher D)

/-- `storeHash`. -/
def storeHash (path : String) (hash : D) : PathHasher D :=
  -- Only ever store hashes on output files.
  if hasPrefix path "plz-out/" && host.settable path then
    { hasher with xattrs := Function.update hasher.xattrs path (some hash) }
  else hasher

/-- `hash`. -/
def hash (path : String) (store read timestamp : Bool) : Option D × PathHasher D :=
  match if read && hasPrefix path "plz-out/" && host.useXattrs then hasher.xattrs path
      else none with
  | some b => (some b, hasher)
  | none =>
    match host.calculate path timestamp with
    | none => (none, hasher)
    | some hash =>
      -- the branch for symlinks returns before anything is stored
      (some hash, if store && host.useXattrs && !host.isSymlink path then
        hasher.storeHash host path hash else hasher)

/-- `Hash` from where the memo has been looked at. -/
def hashMissing (path : String) (store read timestamp : Bool) : Option D × PathHasher D :=
  if (host.lstat path).isNone then (none, hasher)
  else match hasher.hash host path store read timestamp with
    | (none, hasher) => (none, hasher)
    | (some result, hasher) =>
      (some result, { hasher with memo := Function.update hasher.memo path (some (some result)) })

/-- `Hash`. -/
def hashPath (path : String) (recalc store timestamp : Bool) : Option D × PathHasher D :=
  let path := ensureRelative host.root path
  match if recalc then none else hasher.memo path with
  | some (some cached) => (some cached, hasher)
  -- set to nil in CopyHash() when it's a filegroup source in the source tree
  | some none => hasher.hashMissing host path false false timestamp
  | none => hasher.hashMissing host path store (!recalc) timestamp

/-- `moveOrCopyHash`. -/
def moveOrCopyHash (oldPath newPath : String) (copy : Bool) : PathHasher D :=
  let oldPath := ensureRelative host.root oldPath
  let newPath := ensureRelative host.root newPath
  match hasher.memo oldPath with
  | some oldHash =>
    let memo := Function.update hasher.memo newPath (some oldHash)
    { hasher with memo := if !copy && hasPrefix oldPath "plz-out/tmp" then
        Function.update memo oldPath none else memo }
  | none =>
    if copy then { hasher with memo := Function.update hasher.memo newPath (some none) } else hasher

/-- `SetHash`. It takes the path as it is. -/
def setHash (path : String) (hash : D) : PathHasher D :=
  { hasher with memo := Function.update hasher.memo path (some (some hash)) }.storeHash
      host path hash

end PathHasher

/-- A call of one of the methods. -/
inductive HashCall (D : Type)
  | hash (path : String) (recalc store timestamp : Bool)
  | mustHash (path : String) (timestamp : Bool)
  | copyHash (oldPath newPath : String)
  | moveHash (oldPath newPath : String)
  | setHash (path : String) (value : D)

namespace HashCall

/-- What a call returns, if it returns a hash, and the hasher after it. -/
def step (hasher : PathHasher D) : HashCall D → Option D × PathHasher D
  | .hash path recalc store timestamp => hasher.hashPath host path recalc store timestamp
  | .mustHash path timestamp => hasher.hashPath host path false false timestamp
  | .copyHash oldPath newPath => (none, hasher.moveOrCopyHash host oldPath newPath true)
  | .moveHash oldPath newPath => (none, hasher.moveOrCopyHash host oldPath newPath false)
  | .setHash path value => (none, hasher.setHash host path value)

/-- The hash that is set is that of the contents, and hashes are copied and moved between paths
with the same contents. -/
def Truthful : HashCall D → Prop
  | .copyHash oldPath newPath | .moveHash oldPath newPath =>
    host.calculate (ensureRelative host.root oldPath) false =
      host.calculate (ensureRelative host.root newPath) false
  | .setHash path value => host.calculate path false = some value
  | _ => True

/-- A hash that is returned is that of the path, of the kind that is asked for. -/
def Correct (call : HashCall D) (result : Option D) : Prop :=
  match call with
  | .hash path _ _ timestamp | .mustHash path timestamp =>
    ∀ value, result = some value →
      host.calculate (ensureRelative host.root path) timestamp = some value
  | _ => True

/-- The call hashes a path in the way that `byTime` has for it, or passes such a hash on. -/
def OneKind (byTime : String → Bool) : HashCall D → Prop
  | .hash path _ _ timestamp | .mustHash path timestamp =>
    host.calculate (ensureRelative host.root path) timestamp =
      host.calculate (ensureRelative host.root path) (byTime (ensureRelative host.root path))
  | .copyHash oldPath newPath | .moveHash oldPath newPath =>
    host.calculate (ensureRelative host.root oldPath) (byTime (ensureRelative host.root oldPath)) =
      host.calculate (ensureRelative host.root newPath) (byTime (ensureRelative host.root newPath))
  | .setHash path value => host.calculate path (byTime path) = some value

end HashCall

/-- What the calls return, one after another. -/
def results (hasher : PathHasher D) : List (HashCall D) → List (Option D)
  | [] => []
  | call :: calls => (call.step host hasher).1 :: results (call.step host hasher).2 calls

/-! ## Coherence -/

variable {host} {byTime : String → Bool} {hasher : PathHasher D} {path : String}

theorem forall_update {α γ : Type} {f : String → γ} {w : α → γ} {P : String → α → Prop} {v : γ}
    (h : ∀ other a, f other = w a → P other a) (hv : ∀ a, v = w a → P path a) :
    ∀ other a, Function.update f path v other = w a → P other a := by
  intro other a heq
  by_cases hother : other = path
  · subst hother
    rw [Function.update_self] at heq
    exact hv a heq
  · rw [Function.update_of_ne hother] at heq
    exact h other a heq

/-- Every hash that is known is of the kind that `byTime` has for its path. -/
structure PathHasher.Coherent (host : HashHost D) (byTime : String → Bool)
    (hasher : PathHasher D) : Prop where
  memo : ∀ path hash, hasher.memo path = some (some hash) →
    host.calculate path (byTime path) = some hash
  xattrs : ∀ path hash, hasher.xattrs path = some hash →
    host.calculate path (byTime path) = some hash

namespace PathHasher.Coherent

section

variable (h : hasher.Coherent host byTime)
include h

theorem setMemo (path : String) {entry : Option (Option D)}
    (hentry : ∀ hash, entry = some (some hash) → host.calculate path (byTime path) = some hash) :
    Coherent host byTime { hasher with memo := Function.update hasher.memo path entry } :=
  ⟨forall_update h.memo hentry, h.xattrs⟩

theorem storeHash {hash : D} (hhash : host.calculate path (byTime path) = some hash) :
    (hasher.storeHash host path hash).Coherent host byTime := by
  unfold PathHasher.storeHash
  split
  · exact ⟨h.memo, forall_update h.xattrs fun hash' heq => hhash.trans heq⟩
  · exact h

theorem setHash {hash : D} (hhash : host.calculate path (byTime path) = some hash) :
    (hasher.setHash host path hash).Coherent host byTime := by
  refine (h.setMemo path fun hash' heq => ?_).storeHash hhash
  cases heq
  exact hhash

theorem moveOrCopyHash {oldPath newPath : String} {copy : Bool}
    (hsame : host.calculate (ensureRelative host.root oldPath)
        (byTime (ensureRelative host.root oldPath)) =
      host.calculate (ensureRelative host.root newPath)
        (byTime (ensureRelative host.root newPath))) :
    (hasher.moveOrCopyHash host oldPath newPath copy).Coherent host byTime := by
  unfold PathHasher.moveOrCopyHash
  dsimp only
  split
  · rename_i oldHash hold
    have hnew := h.setMemo (ensureRelative host.root newPath)
      fun hash heq => hsame.symm.trans (h.memo _ hash (hold.trans heq))
    split
    · exact hnew.setMemo _ fun hash heq => by cases heq
    · exact hnew
  · split
    · exact h.setMemo _ fun hash heq => by cases heq
    · exact h

end

/-- What `hash` returns is right, and so is what it stores. -/
theorem hash {store read timestamp : Bool} (h : hasher.Coherent host byTime)
    (hkind : host.calculate path timestamp = host.calculate path (byTime path)) :
    (hasher.hash host path store read timestamp).2.Coherent host byTime ∧
      ∀ hash, (hasher.hash host path store read timestamp).1 = some hash →
        host.calculate path (byTime path) = some hash := by
  unfold PathHasher.hash
  split
  · rename_i b hb
    refine ⟨h, fun hash heq => ?_⟩
    cases heq
    split at hb
    · exact h.xattrs path b hb
    · cases hb
  · split
    · exact ⟨h, fun hash heq => by cases heq⟩
    · rename_i hash hcalc
      rw [hkind] at hcalc
      refine ⟨?_, fun hash' heq => hcalc.trans heq⟩
      split
      · exact h.storeHash hcalc
      · exact h

variable (h : hasher.Coherent host byTime)
include h

theorem hashMissing {store read timestamp : Bool}
    (hkind : host.calculate path timestamp = host.calculate path (byTime path)) :
    (hasher.hashMissing host path store read timestamp).2.Coherent host byTime ∧
      ∀ hash, (hasher.hashMissing host path store read timestamp).1 = some hash →
        host.calculate path (byTime path) = some hash := by
  have hhash : (hasher.hash host path store read timestamp).2.Coherent host byTime ∧ _ :=
    h.hash hkind
  unfold PathHasher.hashMissing
  split
  · exact ⟨h, fun hash heq => by cases heq⟩
  · split
    · rename_i heq
      rw [heq] at hhash
      exact ⟨hhash.1, fun hash heq => by cases heq⟩
    · rename_i result hasher' heq
      rw [heq] at hhash
      refine ⟨hhash.1.setMemo path fun hash heq' => ?_, hhash.2⟩
      cases heq'
      exact hhash.2 _ rfl

theorem hashPath {recalc store timestamp : Bool}
    (hkind : host.calculate (ensureRelative host.root path) timestamp =
      host.calculate (ensureRelative host.root path) (byTime (ensureRelative host.root path))) :
    (hasher.hashPath host path recalc store timestamp).2.Coherent host byTime ∧
      ∀ hash, (hasher.hashPath host path recalc store timestamp).1 = some hash →
        host.calculate (ensureRelative host.root path) timestamp = some hash := by
  unfold PathHasher.hashPath
  dsimp only
  rw [hkind]
  split
  · rename_i cached hcached
    refine ⟨h, fun hash heq => ?_⟩
    cases heq
    split at hcached
    · cases hcached
    · exact h.memo _ _ hcached
  · exact h.hashMissing hkind
  · exact h.hashMissing hkind

/-- One call keeps the memo and the attributes coherent, and what it returns is right. -/
theorem step {call : HashCall D} (hcall : call.OneKind host byTime) :
    (call.step host hasher).2.Coherent host byTime ∧
      call.Correct host (call.step host hasher).1 := by
  cases call with
  | hash path recalc store timestamp | mustHash path timestamp => exact h.hashPath hcall
  | copyHash oldPath newPath | moveHash oldPath newPath => exact ⟨h.moveOrCopyHash hcall, trivial⟩
  | setHash => exact ⟨h.setHash hcall, trivial⟩

end PathHasher.Coherent

/-- If every path is hashed in one way only and the attributes at the start are such hashes, then
every hash that is returned is that of its path. -/
theorem results_coherent (host : HashHost D) (byTime : String → Bool) (hasher : PathHasher D)
    (h : hasher.Coherent host byTime) (calls : List (HashCall D))
    (hcalls : ∀ call ∈ calls, call.OneKind host byTime) :
    List.Forall₂ (HashCall.Correct host) calls (results host hasher calls) := by
  induction calls generalizing hasher with
  | nil => exact .nil
  | cons call _ ih =>
    obtain ⟨hnext, hcorrect⟩ := h.step (hcalls call mem_cons_self)
    exact .cons hcorrect (ih _ hnext (forall_mem_cons.mp hcalls).2)

/-- A machine on which every path is a regular file that contains the byte 1. -/
def plainHost : HashHost Bytes where
  root := "/repo"
  readThrough _ := none
  sum := id
  useXattrs := true
  lstat _ := some (.file [1])
  readable _ := true
  modTime _ := [2]
  settable _ := true

/-- A hasher that knows no hash. -/
def PathHasher.new : PathHasher D := ⟨fun _ => none, fun _ => none⟩

theorem results_coherent_copied :
    results plainHost .new [.hash "/repo/a" false false false, .copyHash "a" "plz-out/gen/a",
      .mustHash "plz-out/gen/a" false] = [some [1], none, some [1]] ∧
    List.Forall₂ (HashCall.Correct plainHost)
      [.hash "/repo/a" false false false, .copyHash "a" "plz-out/gen/a",
        .mustHash "plz-out/gen/a" false] [some [1], none, some [1]] := by
  have hresults : results plainHost .new [.hash "/repo/a" false false false,
      .copyHash "a" "plz-out/gen/a", .mustHash "plz-out/gen/a" false] =
        [some [1], none, some [1]] :=
    rfl
  refine ⟨hresults, ?_⟩
  refine results_coherent plainHost (fun _ => false) .new
    ⟨fun _ _ h => (by cases h), fun _ _ h => (by cases h)⟩ _ ?_
  simp [HashCall.OneKind, HashHost.calculate, plainHost]

/-- A file that is hashed by its time of modification keeps that hash when its contents are asked
for. -/
theorem timestampHash_returned :
    (∀ call ∈ [HashCall.hash "a" false false true, .hash "a" false false false],
      call.Truthful plainHost) ∧
    results plainHost .new [.hash "a" false false true, .hash "a" false false false] =
      [some [2], some [2]] ∧
    plainHost.calculate "a" false = some [1] :=
  ⟨by simp [HashCall.Truthful], rfl, rfl⟩

/-! ## Paths outside the repository -/

/-- `p` is `root`, or is below it. -/
def Below (root p : String) : Prop := components root.toList <+: components p.toList

/-- `p` is made relative only if it is in `root`, and then `root` joined with the result is `p`. -/
def Faithful (root p : String) : Prop :=
  isAbs (ensureRelative root p) = false → Below root p ∧
    components (root ++ "/" ++ ensureRelative root p).toList = components p.toList

/-- `p` starts with the name of `root`, which goes on. -/
def Sibling (root p : String) : Prop :=
  ∃ c rest, p.toList = root.toList ++ c :: rest ∧ c ≠ '/' ∧ root.toList.getLast? ≠ some '/'

theorem components_dropWhile (a : List Char) :
    components (a.dropWhile (· = '/')) = components a := by
  induction a with
  | nil => rfl
  | cons c a ih =>
    by_cases hc : c = '/'
    · rw [dropWhile_cons_of_pos (by simpa using hc), ih, hc]
      exact (components_append_separator [] a).symm
    · rw [dropWhile_cons_of_neg (by simpa using hc)]

theorem components_append_of_separator {init : List Char}
    (h : init = [] ∨ ∃ dir, init = dir ++ ['/']) (b : List Char) :
    components (init ++ b) = components init ++ components b := by
  obtain rfl | ⟨dir, rfl⟩ := h
  · rfl
  · have hdir : components (dir ++ ['/']) = components dir :=
      (components_append_separator dir []).trans (append_nil _)
    rw [append_assoc, singleton_append, components_append_separator, hdir]

/-- The first component goes up to the first separator. -/
theorem exists_components_append {a : List Char} (h : '/' ∉ a) (hne : a ≠ []) (b : List Char) :
    ∃ rest, components (a ++ b) = (a ++ b.takeWhile (· ≠ '/')) :: rest := by
  induction b generalizing a with
  | nil => exact ⟨[], by simpa using components_eq_singleton h hne⟩
  | cons c b ih =>
    by_cases hc : c = '/'
    · refine ⟨components b, ?_⟩
      rw [hc, components_append_separator, components_eq_singleton h hne]
      simp
    · obtain ⟨rest, hrest⟩ := ih (a := a ++ [c]) (by simp [h, Ne.symm hc]) (by simp)
      exact ⟨rest, by simpa [hc] using hrest⟩

variable {root p : String}

theorem not_below_of_sibling (h : Sibling root p) (habs : isAbs p = true) : ¬ Below root p := by
  obtain ⟨c, rest, hp, hc, hend⟩ := h
  obtain ⟨init, last, hroot, hlast, hinit⟩ := exists_last_component root.toList
  have hne : last ≠ [] := by
    rintro rfl
    obtain rfl | ⟨dir, rfl⟩ := hinit
    · simp [isAbs, hasPrefix, hp, ← hroot, Ne.symm hc] at habs
    · simp [← hroot] at hend
  obtain ⟨tail, htail⟩ := exists_components_append hlast hne (c :: rest)
  rw [Below, hp, ← hroot, append_assoc, components_append_of_separator hinit,
    components_append_of_separator hinit, components_eq_singleton hlast hne, htail,
    prefix_append_right_inj]
  intro hpre
  have hlen := congrArg length (cons_prefix_cons.mp hpre).1
  simp [hc] at hlen

theorem toList_ensureRelative {rest : List Char} (h : p.toList = root.toList ++ rest) :
    (ensureRelative root p).toList = rest.dropWhile (· = '/') := by
  rw [ensureRelative, if_pos (hasPrefix_iff.mpr ⟨rest, h⟩), String.toList_ofList, h,
    ← String.length_toList, drop_left]

/-- What is made relative is the string without the root. -/
theorem isAbs_ensureRelative (habs : isAbs p = true) :
    isAbs (ensureRelative root p) = false ↔ ∃ rest, p.toList = root.toList ++ rest := by
  constructor
  · intro hrel
    by_contra hpre
    rw [← hasPrefix_iff] at hpre
    rw [ensureRelative, if_neg hpre, habs] at hrel
    cases hrel
  · rintro ⟨rest, h⟩
    rw [← Bool.not_eq_true, isAbs, hasPrefix_iff, toList_ensureRelative h]
    rintro ⟨tail, htail⟩
    have hhead := head?_dropWhile_not (· = '/') rest
    rw [htail] at hhead
    simp at hhead

/-- Unless the path is that of a sibling, its components are those of the root and the rest. -/
theorem components_of_not_sibling {rest : List Char} (h : ¬ Sibling root p)
    (hp : p.toList = root.toList ++ rest) :
    components p.toList = components root.toList ++ components rest := by
  rw [hp]
  cases rest with
  | nil => rw [append_nil]; exact (append_nil _).symm
  | cons c rest =>
    by_cases hc : c = '/'
    · rw [hc, components_append_separator]
      exact congrArg (components root.toList ++ ·) (components_append_separator [] rest).symm
    · have hend : root.toList.getLast? = some '/' := by
        by_contra hend
        exact h ⟨c, rest, hp, hc, hend⟩
      exact components_append_of_separator (.inr (getLast?_eq_some_iff.mp hend)) _

theorem faithful_iff (habs : isAbs p = true) : Faithful root p ↔ ¬ Sibling root p := by
  constructor
  · intro hfaithful hsibling
    have ⟨c, rest, hp, _⟩ := hsibling
    exact not_below_of_sibling hsibling habs
      (hfaithful ((isAbs_ensureRelative habs).mpr ⟨c :: rest, hp⟩)).1
  · intro hsibling hrel
    obtain ⟨rest, hp⟩ := (isAbs_ensureRelative habs).mp hrel
    have hcomponents := components_of_not_sibling hsibling hp
    refine ⟨⟨components rest, hcomponents.symm⟩, ?_⟩
    rw [hcomponents, String.toList_append, String.toList_append, toList_ensureRelative hp,
      append_assoc]
    exact (components_append_separator _ _).trans
      (congrArg (components root.toList ++ ·) (components_dropWhile rest))

/-- Exactly the paths that start with the name of the root, which goes on, are taken for paths in
the repository by mistake. Other files outside of it are hashed by their contents, and so are
symlinks to them. -/
theorem ensureRelative_faithful_iff (host : HashHost D) (p : String) (habs : isAbs p = true) :
    (Faithful host.root p ↔ ¬ Sibling host.root p) ∧
    (¬ Sibling host.root p → ¬ Below host.root p →
      (∀ contents recalc store, host.lstat p = some (.file contents) → host.readable p = true →
        (PathHasher.new.hashPath host p recalc store false).1 = some (host.sum contents)) ∧
      ∀ link, (Node.symlink p).bytes host.toEnv link =
        (host.readThrough link).map (boolTrueHashValue ++ ·)) := by
  refine ⟨faithful_iff habs, fun hsibling hbelow => ?_⟩
  have hsame : ensureRelative host.root p = p := by
    rw [ensureRelative, if_neg]
    rw [hasPrefix_iff, ← isAbs_ensureRelative habs]
    exact fun hrel => hbelow ((faithful_iff habs).mpr hsibling hrel).1
  constructor
  · intro contents recalc store hfile hread
    have hcalc : host.calculate p false = some (host.sum contents) := by
      simp [HashHost.calculate, hfile, hread]
    simp [PathHasher.hashPath, PathHasher.hashMissing, PathHasher.hash, PathHasher.new,
      hsame, hfile,
      hcalc]
  · intro link
    rw [Node.bytes, hsame, if_neg (by simp [habs])]

theorem ensureRelative_faithful_tool :
    isAbs "/usr/bin/tool" = true ∧ Faithful plainHost.root "/usr/bin/tool" := by
  refine ⟨by decide, (ensureRelative_faithful_iff plainHost "/usr/bin/tool" (by decide)).1.mpr ?_⟩
  rintro ⟨c, rest, h, -⟩
  simp [plainHost] at h

/-- The only file is in `/repo2`, beside the repository. -/
def siblingHost : HashHost Bytes :=
  { plainHost with
    lstat := fun path => if path = "/repo2/x" then some (.file [1]) else none
    readThrough := fun _ => some [1] }

/-- The file beside the repository cannot be hashed, and a symlink to it is hashed by what is
left of its name. -/
theorem ensureRelative_sibling :
    ensureRelative siblingHost.root "/repo2/x" = "2/x" ∧ ¬ Below siblingHost.root "/repo2/x" ∧
      (PathHasher.new.hashPath siblingHost "/repo2/x" false false false).1 = none ∧
      (Node.symlink "/repo2/x").bytes siblingHost.toEnv "tool" =
        some (boolTrueHashValue ++ "2/x".toUTF8.toList) := by
  have hrel : ensureRelative siblingHost.root "/repo2/x" = "2/x" := by decide
  have hsibling : Sibling siblingHost.root "/repo2/x" :=
    ⟨'2', ['/', 'x'], by decide, by decide, by decide⟩
  refine ⟨hrel, not_below_of_sibling hsibling (by decide), by decide, ?_⟩
  rw [Node.bytes, hrel, if_pos (by decide)]

end Please.Fs
