import Please.Build.Incrementality

/-!
# Which secrets a rebuild notices

`secretHash` (`src/build/incrementality.go`, lines 488–504) hashes the files in
`target.Secrets` only. The files in `target.NamedSecrets` are secrets of the target as well
(`AllSecrets`, `CheckSecrets`, and the variables `SECRETS_<NAME>` of the build environment),
but their contents are not part of any hash.

* `secretChange_noticed_iff`: which changes of a secret are noticed.
* `secretHash_eq_noSecrets_iff`: what becomes of secrets that are missing.
-/

namespace Please.Build

open Please.Core Please.Lib Please.Fs List BuildState

namespace BuildState

variable (state : BuildState) (target : HashedTarget)

/-- The state with other contents of the files. -/
def withRead (read : String → Except Bool Bytes) : BuildState := { state with read := read }

/-- The file a secret stands for. -/
def secretPath (secret : String) : String :=
  ensureRelative state.root (state.expandHomePath secret)

/-- The files whose contents `sourceHash` and `secretHash` read. -/
def hashedPaths : List String :=
  target.secrets.map state.secretPath ++
    ((state.iterSources target.toBuildTarget).map (ensureRelative state.root) ++
      (state.toolPaths target.toBuildTarget).map (ensureRelative state.root))

end BuildState

/-- Two file systems that differ only in the contents of `path`, which is a secret of the
target; all secrets exist. -/
structure SecretChange (state : BuildState) (read : String → Except Bool Bytes)
    (target : HashedTarget) (path : String) : Prop where
  isSecret : ∃ secret ∈ target.allSecrets, state.secretPath secret = path
  same : ∀ other, other ≠ path → read other = state.read other
  changed : ∃ before after, state.read path = .ok before ∧ read path = .ok after ∧ before ≠ after
  exist : ∀ secret ∈ target.allSecrets, state.pathExists (state.secretPath secret) = true ∧
    ∃ contents, state.read (state.secretPath secret) = .ok contents

/-- The hash function has no collision among what is hashed before and after the change. -/
structure NoCollisions (state : BuildState) (read : String → Except Bool Bytes)
    (target : HashedTarget) (path : String) : Prop where
  files : ∀ b c, state.read path = .ok b → read path = .ok c → state.sum b = state.sum c → b = c
  secrets : ∀ b c, state.secretWritten target = .ok b →
    (state.withRead read).secretWritten target = .ok c → state.sum b = state.sum c → b = c
  sources : ∀ b c, state.sourceWritten target = .ok b →
    (state.withRead read).sourceWritten target = .ok c → state.sum b = state.sum c → b = c

variable {state : BuildState} {read : String → Except Bool Bytes} {target : HashedTarget}
  {path : String}

/-! ## Hashes of single files -/

theorem pathHash_eq (file : String) :
    state.pathHash file = if state.pathExists (ensureRelative state.root file) then
      (state.read (ensureRelative state.root file)).map state.sum else .error false := rfl

theorem pathHash_of_read {file : String} {contents : Bytes}
    (hexists : state.pathExists (ensureRelative state.root file) = true)
    (hread : state.read (ensureRelative state.root file) = .ok contents) :
    state.pathHash file = .ok (state.sum contents) := by
  rw [pathHash_eq, if_pos hexists, hread]
  rfl

theorem pathHash_withRead_of_ne (hsame : ∀ other, other ≠ path → read other = state.read other)
    {file : String} (h : ensureRelative state.root file ≠ path) :
    (state.withRead read).pathHash file = state.pathHash file := by
  rw [pathHash_eq, pathHash_eq, ← hsame _ h]
  rfl

namespace SecretChange

variable (hchange : SecretChange state read target path)

include hchange

/-- The changed file is hashed before and after. -/
theorem pathHash_eq_ok {file : String} (h : ensureRelative state.root file = path) :
    ∃ before after, state.read path = .ok before ∧ read path = .ok after ∧ before ≠ after ∧
      state.pathHash file = .ok (state.sum before) ∧
      (state.withRead read).pathHash file = .ok (state.sum after) := by
  obtain ⟨before, after, hbefore, hafter, hne⟩ := hchange.changed
  obtain ⟨secret, hmem, hsecret⟩ := hchange.isSecret
  have hexists : state.pathExists path = true := hsecret ▸ (hchange.exist secret hmem).1
  subst h
  refine ⟨before, after, hbefore, hafter, hne, pathHash_of_read hexists hbefore, ?_⟩
  exact pathHash_of_read hexists hafter

theorem pathHash_ne (hcoll : NoCollisions state read target path) {file : String}
    (h : ensureRelative state.root file = path) :
    state.pathHash file ≠ (state.withRead read).pathHash file := by
  obtain ⟨before, after, hbefore, hafter, hne, hd, he⟩ := hchange.pathHash_eq_ok h
  rw [hd, he]
  intro heq
  exact hne (hcoll.files before after hbefore hafter (Except.ok.inj heq))

/-- Before and after the change every secret has a hash. -/
theorem exists_pathHash {secret : String} (hmem : secret ∈ target.allSecrets) :
    (∃ d, state.pathHash (state.expandHomePath secret) = .ok d) ∧
      ∃ d, (state.withRead read).pathHash (state.expandHomePath secret) = .ok d := by
  obtain ⟨hexists, contents, hread⟩ := hchange.exist secret hmem
  have hbefore : state.pathHash (state.expandHomePath secret) = .ok (state.sum contents) :=
    pathHash_of_read hexists hread
  refine ⟨⟨_, hbefore⟩, ?_⟩
  by_cases hpath : state.secretPath secret = path
  · obtain ⟨_, after, -, -, -, -, hafter⟩ := hchange.pathHash_eq_ok hpath
    exact ⟨_, hafter⟩
  · exact ⟨_, (pathHash_withRead_of_ne hchange.same hpath).trans hbefore⟩

end SecretChange

/-! ## Hashes of all of them -/

/-- What `secretHash` writes for one secret. -/
def secretPiece (state : BuildState) (secret : String) : Except Bool Bytes :=
  (state.pathHash (state.expandHomePath secret)).map fun ph => ph.1

/-- What `sourceHash` writes for one source. -/
def sourcePiece (state : BuildState) (src : String) : Except Bool Bytes :=
  (state.pathHash src).map fun result => result.1 ++ utf8 src

/-- What `sourceHash` writes for one path of a tool. -/
def toolPiece (state : BuildState) (path : String) : Except Bool Bytes :=
  (state.pathHash path).map fun result => result.1

theorem secretWritten_of_mapM {pieces : List Bytes}
    (h : target.secrets.mapM (secretPiece state) = .ok pieces) :
    state.secretWritten target = .ok pieces.flatten := by
  show (target.secrets.mapM (secretPiece state) >>= fun pieces => pure pieces.flatten) = _
  rw [h]
  rfl

theorem secretHash_of_mapM {pieces : List Bytes} (hsome : target.secrets ≠ [])
    (h : target.secrets.mapM (secretPiece state) = .ok pieces) :
    state.secretHash target = .ok (state.sum pieces.flatten) := by
  have hempty : ¬ target.secrets.isEmpty = true := by simpa using hsome
  rw [secretHash, if_neg hempty, secretWritten_of_mapM h]

theorem sourceWritten_eq_ok {b : Bytes} (h : state.sourceWritten target = .ok b) :
    ∃ sources tools, (state.iterSources target.toBuildTarget).mapM (sourcePiece state) =
      .ok sources ∧
      (state.toolPaths target.toBuildTarget).mapM (toolPiece state) = .ok tools ∧
      b = sources.flatten ++ tools.flatten := by
  obtain ⟨sources, hsources, h⟩ := Except.bind_eq_ok.mp h
  obtain ⟨tools, htools, h⟩ := Except.bind_eq_ok.mp h
  exact ⟨sources, tools, hsources, htools, (Except.ok.inj h).symm⟩

theorem length_eq_of_map {g : Digest → Bytes} {n : ℕ} (hg : ∀ d, (g d).length = n)
    {r s : Except Bool Digest} {b c : Bytes} (hb : r.map g = .ok b) (hc : s.map g = .ok c) :
    b.length = c.length := by
  have hlen : ∀ {r : Except Bool Digest} {b : Bytes}, r.map g = .ok b → b.length = n := by
    intro r b h
    obtain ⟨d, -, rfl⟩ := Except.map_eq_ok.mp h
    exact hg d
  rw [hlen hb, hlen hc]

theorem eq_of_map_eq {g : Digest → Bytes} (hg : Function.Injective g) {r s : Except Bool Digest}
    (h : r.map g = s.map g) : r = s := by
  cases r with
  | error =>
    cases s with
    | error => exact congrArg _ (Except.error.inj h)
    | ok => cases h
  | ok =>
    cases s with
    | error => cases h
    | ok => rw [hg (Except.ok.inj h)]

section

variable (hchange : SecretChange state read target path)
  (hcoll : NoCollisions state read target path)
include hchange hcoll

/-- A change of a file that `secretHash` reads changes the hash of the secrets. -/
theorem secretHash_ne (hmem : path ∈ target.secrets.map state.secretPath) :
    state.secretHash target ≠ (state.withRead read).secretHash target := by
  obtain ⟨secret, hmem, hpath⟩ := mem_map.mp hmem
  have hall : ∀ s ∈ target.secrets, s ∈ target.allSecrets := fun s hs => mem_append_left _ hs
  obtain ⟨pieces, hpieces⟩ : ∃ pieces, target.secrets.mapM (secretPiece state) = .ok pieces := by
    refine exists_mapM_eq_ok fun s hs => ?_
    obtain ⟨⟨d, hd⟩, -⟩ := hchange.exists_pathHash (hall s hs)
    exact ⟨d.1, congrArg (Except.map fun ph : Digest => ph.1) hd⟩
  obtain ⟨pieces', hpieces'⟩ : ∃ pieces,
      target.secrets.mapM (secretPiece (state.withRead read)) = .ok pieces := by
    refine exists_mapM_eq_ok fun s hs => ?_
    obtain ⟨-, d, hd⟩ := hchange.exists_pathHash (hall s hs)
    exact ⟨d.1, congrArg (Except.map fun ph : Digest => ph.1) hd⟩
  have hsome : target.secrets ≠ [] := ne_nil_of_mem hmem
  rw [secretHash_of_mapM hsome hpieces, secretHash_of_mapM hsome hpieces']
  intro heq
  have htext := hcoll.secrets _ _ (secretWritten_of_mapM hpieces) (secretWritten_of_mapM hpieces')
    (Except.ok.inj heq)
  -- the pieces have one length, so the same text has the same piece for the changed file
  obtain ⟨hsame, -⟩ := eq_of_mapM_flatten (r := []) (s := []) hpieces hpieces'
    (fun _ _ _ _ hb hc => length_eq_of_map (fun d : Digest => d.2) hb hc) (by rw [htext])
  exact hchange.pathHash_ne hcoll hpath (eq_of_map_eq Subtype.val_injective (hsame secret hmem))

/-- A change of a file that `sourceHash` reads changes the hash of the sources. -/
theorem sourceHash_ne
    (hmem : path ∈ (state.iterSources target.toBuildTarget).map (ensureRelative state.root) ++
      (state.toolPaths target.toBuildTarget).map (ensureRelative state.root)) {source : Digest}
    (hsource : state.sourceHash target = .ok source) :
    (state.withRead read).sourceHash target ≠ .ok source := by
  intro hsource'
  obtain ⟨b, hb, rfl⟩ := Except.map_eq_ok.mp hsource
  obtain ⟨c, hc, hsum⟩ := Except.map_eq_ok.mp hsource'
  have htext := hcoll.sources b c hb hc hsum.symm
  obtain ⟨sources, tools, hsources, htools, rfl⟩ := sourceWritten_eq_ok hb
  obtain ⟨sources', tools', hsources', htools', rfl⟩ := sourceWritten_eq_ok hc
  obtain ⟨hsame, htext⟩ := eq_of_mapM_flatten hsources hsources' (fun src _ _ _ hb hc =>
    length_eq_of_map (fun d : Digest => by rw [length_append, d.2]) hb hc) htext
  obtain ⟨hsame', -⟩ := eq_of_mapM_flatten (r := []) (s := []) htools htools'
    (fun _ _ _ _ hb hc => length_eq_of_map (fun d : Digest => d.2) hb hc) (by rw [htext])
  rcases mem_append.mp hmem with hmem | hmem
  · obtain ⟨src, hsrc, hpath⟩ := mem_map.mp hmem
    exact hchange.pathHash_ne hcoll hpath (eq_of_map_eq
      (fun _ _ h => Subtype.ext (append_cancel_right h)) (hsame src hsrc))
  · obtain ⟨tool, htool, hpath⟩ := mem_map.mp hmem
    exact hchange.pathHash_ne hcoll hpath (eq_of_map_eq Subtype.val_injective (hsame' tool htool))

end

/-- A change of a file that is not hashed changes nothing. -/
theorem hash_withRead_of_notMem (hsame : ∀ other, other ≠ path → read other = state.read other)
    (hmem : path ∉ state.hashedPaths target) :
    (state.withRead read).recordedHash target = state.recordedHash target := by
  simp only [hashedPaths, mem_append, mem_map, not_or, not_exists, not_and]
    at hmem
  obtain ⟨hsecrets, hsources, htools⟩ := hmem
  have hsecretPiece : ∀ s ∈ target.secrets, secretPiece (state.withRead read) s =
      secretPiece state s :=
    fun s hs => congrArg (Except.map fun ph : Digest => ph.1)
      (pathHash_withRead_of_ne hsame (hsecrets s hs))
  have hsourcePiece : ∀ s ∈ state.iterSources target.toBuildTarget,
      sourcePiece (state.withRead read) s = sourcePiece state s :=
    fun s hs => congrArg (Except.map fun ph : Digest => ph.1 ++ utf8 s)
      (pathHash_withRead_of_ne hsame (hsources s hs))
  have htoolPiece : ∀ s ∈ state.toolPaths target.toBuildTarget,
      toolPiece (state.withRead read) s = toolPiece state s :=
    fun s hs => congrArg (Except.map fun ph : Digest => ph.1)
      (pathHash_withRead_of_ne hsame (htools s hs))
  have hsecret : (state.withRead read).secretWritten target = state.secretWritten target := by
    show (target.secrets.mapM (secretPiece (state.withRead read)) >>= _) =
      (target.secrets.mapM (secretPiece state) >>= _)
    rw [mapM_congr hsecretPiece]
  have hsource : (state.withRead read).sourceWritten target = state.sourceWritten target := by
    show ((state.iterSources target.toBuildTarget).mapM (sourcePiece (state.withRead read)) >>=
        fun sources => (state.toolPaths target.toBuildTarget).mapM
          (toolPiece (state.withRead read)) >>=
          fun tools => pure (sources.flatten ++ tools.flatten)) =
      ((state.iterSources target.toBuildTarget).mapM (sourcePiece state) >>=
        fun sources => (state.toolPaths target.toBuildTarget).mapM (toolPiece state) >>=
          fun tools => pure (sources.flatten ++ tools.flatten))
    rw [mapM_congr hsourcePiece, mapM_congr htoolPiece]
  unfold recordedHash sourceHash secretHash
  rw [hsecret, hsource]
  rfl

/-! ## Noticing the change -/

/-- Reading the record does not depend on the contents of the files. -/
theorem readHash_withRead (attrs : Attrs FullHash) (postBuild : Bool) :
    readHash (state.withRead read) target attrs postBuild =
      readHash state target attrs postBuild := by
  have houtputs : ∀ outputs h, readOutputs (state.withRead read) attrs outputs h =
      readOutputs state attrs outputs h := by
    intro outputs
    induction outputs with
    | nil => exact fun _ => rfl
    | cons _ _ ih =>
      intro h
      simp only [readOutputs, ih]
      rfl
  unfold readHash
  rw [houtputs]
  rfl

/-- The metadata file of a target without outputs that its build could modify has a record
that fits the changed files. -/
def StaleRecord (state : BuildState) (target : HashedTarget) (attrs : Attrs FullHash) : Prop :=
  target.fullOutputs = [] ∧ target.buildCouldModifyTarget = true ∧
    state.fileExists (metadataFile target.toBuildTarget) = true ∧
    state.shouldRebuild target.toBuildTarget = false ∧
    ∃ h, readAttr state.attrHost attrs (metadataFile target.toBuildTarget) = some h ∧
      Fits state target false h

/-- A change of a secret changes the recorded hash and leads to a rebuild exactly if its file
is one of those that are hashed: an unnamed secret, or also a source or a tool. -/
theorem secretChange_noticed_iff {attrs attrs' : Attrs FullHash}
    (hchange : SecretChange state read target path) (hcoll : NoCollisions state read target path)
    (hw : writeRuleHash state target attrs = some attrs') :
    ((state.withRead read).recordedHash target ≠ state.recordedHash target ∧
        ∀ postBuild, needsBuilding (state.withRead read) target attrs' postBuild = true) ↔
      path ∈ state.hashedPaths target ∧ ¬ StaleRecord (state.withRead read) target attrs := by
  obtain ⟨hash, hhash⟩ := exists_recordedHash hw
  have hread := readHash_writeRuleHash hw hhash
  have hfits := fits_recordedHash state target hhash
  constructor
  · rintro ⟨hne, hneeds⟩
    refine ⟨?_, ?_⟩
    · by_contra hmem
      exact hne (hash_withRead_of_notMem hchange.same hmem)
    · rintro ⟨hnone, hmodify, hmeta, hforced, hleft⟩
      have hfalse : needsBuilding (state.withRead read) target attrs' false = false := by
        rw [needsBuilding_eq_false_iff]
        refine ⟨hmeta, ?_, ?_, hforced⟩
        · rw [readHash_withRead, hread, if_pos ⟨hnone, hmodify, rfl⟩]
          exact hleft
        · simp [hnone]
      rw [hneeds false] at hfalse
      cases hfalse
  · rintro ⟨hmem, hstale⟩
    have hchanged : ∀ postBuild, ¬ Fits (state.withRead read) target postBuild hash := by
      intro postBuild hfit
      rcases mem_append.mp hmem with hmem | hmem
      · exact secretHash_ne hchange hcoll hmem ((hfits false).secret.trans hfit.secret.symm)
      · exact sourceHash_ne hchange hcoll hmem (hfits false).source hfit.source
    refine ⟨fun heq => ?_, fun postBuild => ?_⟩
    · exact hchanged false (fits_recordedHash (state.withRead read) target (heq.trans hhash) false)
    · by_contra hneeds
      rw [Bool.not_eq_true, needsBuilding_eq_false_iff] at hneeds
      obtain ⟨hmeta, ⟨h, hh, hfit⟩, -, hforced⟩ := hneeds
      rw [readHash_withRead, hread] at hh
      split at hh
      · rename_i hslip
        obtain ⟨hnone, hmodify, rfl⟩ := hslip
        exact hstale ⟨hnone, hmodify, hmeta, hforced, h, hh, hfit⟩
      · obtain rfl := Option.some.inj hh
        exact hchanged postBuild hfit

/-! ## A secret with a name and one without -/

/-- The file `/etc/key` is written anew. -/
def keyChanged (file : String) : Except Bool Bytes := .ok (if file = "/etc/key" then [2] else [1])

/-- `//pkg:lib` with the secret `/etc/key` and one output. -/
def withSecret : HashedTarget :=
  { BuildTarget.new ⟨"pkg", "lib", ""⟩ with
    outputs := ["lib.a"], secrets := ["/etc/key"], memo := none }

/-- The same with the secret in a named group. -/
def withNamedSecret : HashedTarget :=
  { BuildTarget.new ⟨"pkg", "lib", ""⟩ with
    outputs := ["lib.a"], namedSecrets := SortedMap.empty.insert "key" ["/etc/key"], memo := none }

theorem secretChange_keyChanged (h : target.allSecrets = ["/etc/key"]) :
    SecretChange plainState keyChanged target "/etc/key" where
  isSecret := ⟨"/etc/key", by simp [h], by decide⟩
  same other hne := by simp [keyChanged, hne, plainState]
  changed := ⟨[1], [2], rfl, rfl, by decide⟩
  exist _ _ := ⟨rfl, [1], rfl⟩

theorem secretChange_noticed_withSecret : ∃ attrs',
    writeRuleHash plainState withSecret noAttrs = some attrs' ∧
      (plainState.withRead keyChanged).recordedHash withSecret ≠
        plainState.recordedHash withSecret ∧
      ∀ postBuild, needsBuilding
        (plainState.withRead keyChanged) withSecret attrs' postBuild = true := by
  have hcoll : NoCollisions plainState keyChanged withSecret "/etc/key" := by
    refine ⟨?_, ?_, ?_⟩
    all_goals
      intro b c hb hc
      obtain rfl := Except.ok.inj hb
      obtain rfl := Except.ok.inj hc
    · decide
    · decide
    · exact fun _ => rfl
  refine ⟨_, rfl, ?_⟩
  refine (secretChange_noticed_iff (secretChange_keyChanged rfl) hcoll rfl).mpr ⟨by decide, ?_⟩
  rintro ⟨hnone, -⟩
  exact absurd hnone (by decide)

/-- A change of the named secret is not noticed: the recorded hash stays, and the target is not
rebuilt. -/
theorem namedSecret_unnoticed :
    SecretChange plainState keyChanged withNamedSecret "/etc/key" ∧
      plainState.sum [1] ≠ plainState.sum [2] ∧
      (plainState.withRead keyChanged).recordedHash withNamedSecret =
        plainState.recordedHash withNamedSecret ∧
      ∃ attrs', writeRuleHash plainState withNamedSecret noAttrs = some attrs' ∧
        needsBuilding (plainState.withRead keyChanged) withNamedSecret attrs' false = false := by
  refine ⟨secretChange_keyChanged rfl, by decide, rfl, _, rfl, ?_⟩
  rfl

/-! ## Secrets that are missing

The error that `PathHasher.Hash` returns for a path that does not exist is not one that
`os.IsNotExist` recognises. The error of opening a symlink to nothing is, where the hasher opens it:
a symlink in the repository to a path in it is hashed by its destination. -/

/-- The files that are hashed. `readThrough` is `none` for a symlink to nothing. -/
structure Machine extends Env where
  lstat : String → Option Node
  readable : String → Bool

namespace Machine

variable (machine : Machine) (path : String)

/-- What `PathHasher.hash` writes (`src/fs/hash.go`, lines 174–238). -/
def bytes : Except Bool Bytes :=
  match machine.lstat path with
  | none => .error true
  | some node =>
    if machine.readable path then (node.bytes machine.toEnv path).elim (.error true) .ok
    else .error false

/-- The state on a machine with these files. -/
def on (state : BuildState) : BuildState :=
  { state with
    root := machine.root
    lstat := fun path => (machine.lstat path).map fun
      | .file _ => .file
      | .symlink _ => .symlink
      | .dir _ => .dir
    read := machine.bytes }

/-- There is nothing to hash: the path does not exist, or is a symlink to nothing that is opened. -/
def lost : Bool := ((machine.lstat path).bind fun node => node.bytes machine.toEnv path).isNone

end Machine

variable {machine : Machine}

theorem secretPiece_on {secret : String} {path : String}
    (hpath : (machine.on state).secretPath secret = path) (hread : machine.readable path = true) :
    if machine.lost path then secretPiece (machine.on state) secret =
      .error (machine.lstat path).isSome
    else ∃ piece, secretPiece (machine.on state) secret = .ok piece := by
  have hexists : (machine.on state).pathExists path = (machine.lstat path).isSome := by
    simp [pathExists, Machine.on]
  have hpiece : secretPiece (machine.on state) secret = ((if (machine.lstat path).isSome then
      (machine.bytes path).map state.sum else .error false).map fun ph => ph.1) := by
    rw [← hexists, ← hpath]
    rfl
  rw [hpiece, Machine.lost, Machine.bytes]
  cases machine.lstat path with
  | none => rfl
  | some node =>
    cases hbytes : node.bytes machine.toEnv path with
    | none => simp [hread, hbytes, Except.map]
    | some => simp [hread, hbytes, Except.map]

/-- The loop ends at the first secret that is lost. -/
theorem mapM_secretPiece_on {secrets : List String}
    (hread : ∀ s ∈ secrets, machine.readable ((machine.on state).secretPath s) = true) :
    match secrets.find? fun s => machine.lost ((machine.on state).secretPath s) with
    | some secret => secrets.mapM (secretPiece (machine.on state)) =
        .error (machine.lstat ((machine.on state).secretPath secret)).isSome
    | none => ∃ pieces, secrets.mapM (secretPiece (machine.on state)) = .ok pieces := by
  induction secrets with
  | nil => exact ⟨[], rfl⟩
  | cons s secrets ih =>
    obtain ⟨hs, hrest⟩ := forall_mem_cons.mp hread
    have hpiece := secretPiece_on rfl hs
    have ih := ih hrest
    rw [mapM_cons, find?_cons]
    cases hlost : machine.lost ((machine.on state).secretPath s) with
    | true =>
      rw [hlost, if_pos rfl] at hpiece
      rw [hpiece]
      rfl
    | false =>
      rw [hlost, if_neg Bool.false_ne_true] at hpiece
      obtain ⟨piece, hpiece⟩ := hpiece
      rw [hpiece]
      cases hfind : secrets.find? fun s => machine.lost ((machine.on state).secretPath s) with
      | none =>
        rw [hfind] at ih
        obtain ⟨pieces, hpieces⟩ := ih
        exact ⟨piece :: pieces, by rw [hpieces]; rfl⟩
      | some =>
        rw [hfind] at ih
        show Except.bind (.ok piece) _ = _
        simp only [Except.bind, ih]
        rfl

/-- The hash is the one for no secrets exactly if there are no secrets outside of named groups, or
the first of them that is lost is a symlink to nothing. -/
theorem secretHash_eq_noSecrets_iff (state : BuildState) (machine : Machine) (target : HashedTarget)
    (hsum : ∀ b, state.sum b ≠ noSecrets)
    (hread : ∀ secret ∈ target.allSecrets,
      machine.readable ((machine.on state).secretPath secret) = true) :
    (machine.on state).secretHash target = .ok noSecrets ↔
      target.secrets = [] ∨ ∃ secret,
        target.secrets.find? (fun s => machine.lost ((machine.on state).secretPath s)) =
          some secret ∧
          (machine.lstat ((machine.on state).secretPath secret)).isSome = true := by
  by_cases hnil : target.secrets = []
  · simp [secretHash, hnil]
  have hempty : ¬ target.secrets.isEmpty = true := by simpa using hnil
  have hloop := mapM_secretPiece_on fun s hs => hread s (mem_append_left _ hs)
  cases hfind : target.secrets.find? fun s => machine.lost ((machine.on state).secretPath s) with
  | none =>
    rw [hfind] at hloop
    obtain ⟨pieces, hpieces⟩ := hloop
    rw [secretHash_of_mapM hnil hpieces]
    exact iff_of_false (fun h => hsum _ (Except.ok.inj h)) (by simp [hnil])
  | some secret =>
    rw [hfind] at hloop
    have hwritten : (machine.on state).secretWritten target =
        .error (machine.lstat ((machine.on state).secretPath secret)).isSome := by
      show (target.secrets.mapM (secretPiece (machine.on state)) >>= fun pieces =>
        pure pieces.flatten) = _
      rw [hloop]
      rfl
    rw [secretHash, if_neg hempty, hwritten]
    cases hsome : (machine.lstat ((machine.on state).secretPath secret)).isSome <;>
      simp [hnil, hsome]

/-- A state with a hash function that has one value. -/
def constantState : BuildState :=
  { plainState with sum := fun _ => ⟨replicate hashLength 0, length_replicate⟩ }

/-- Every path is a symlink to nothing outside of the repository. -/
def danglingMachine : Machine where
  root := "/repo"
  readThrough _ := none
  lstat _ := some (.symlink "/nowhere")
  readable _ := true

theorem secretHash_danglingSecret :
    (danglingMachine.on constantState).secretHash withSecret = .ok noSecrets :=
  have hsum : ∀ b, constantState.sum b ≠ noSecrets := fun _ =>
    (by decide : constantState.sum [] ≠ noSecrets)
  (secretHash_eq_noSecrets_iff constantState danglingMachine withSecret hsum fun _ _ => rfl).mpr
    (.inr ⟨"/etc/key", rfl, rfl⟩)

/-- There are no files. -/
def emptyMachine : Machine := { danglingMachine with lstat := fun _ => none }

theorem secretHash_absentSecret :
    (emptyMachine.on plainState).secretHash withSecret = .error false ∧
      writeRuleHash (emptyMachine.on plainState) withSecret noAttrs = none :=
  ⟨rfl, rfl⟩

end Please.Build
