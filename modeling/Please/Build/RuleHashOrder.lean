import Please.Core.LabelOrder
import Please.Core.Outputs

/-!
# What the rule hash does not depend on

`ruleHash` (`src/build/incrementality.go`, lines 150–266) goes through Go maps, whose keys come in
any order, and through dependencies and outputs, which are declared one after the other.

`writtenIn` is what it writes when the keys of each map come in a given order, with the fields that
are hashed for run time.

* `ruleHash_order_independent`: nor does the order in which dependencies and outputs are declared.
-/

namespace Please.Build

open Please.Core Please.Lib BuildTarget SortedMap BuildInput BuildGraph
open Please.Fs (Bytes)
open Please.Lib.Except List

/-! ## Orders of maps -/

/-- The elements of a list in any order. -/
abbrev AnyOrder {α : Type} (xs : List α) := { ys : List α // ys.Perm xs }

/-- `hashMap` (lines 269–278), with the keys in the order in which they come. -/
def hashMapIn (eps : SortedMap String String) (order : AnyOrder eps.keys) : List Bytes :=
  (order.1.insertionSort (· ≤ ·)).map fun ep => utf8 (ep ++ "=" ++ (eps.lookup ep).getD "")

/-- Named groups (lines 174–180, 214–224). -/
def hashGroupsIn {α : Type} (toStr : α → String) (m : NamedLists α) (order : AnyOrder m.keys) :
    List Bytes :=
  (order.1.insertionSort (· ≤ ·)).flatMap fun name =>
      hashGroup toStr (name, (m.lookup name).getD [])

/-- `combinedBuildInputs` (build_target.go, lines 1629–1646). -/
def combinedBuildInputsIn (unnamed : List BuildInput) (named : NamedLists BuildInput)
    (order : AnyOrder named.keys) : List BuildInput :=
  unnamed ++ (order.1.insertionSort (· ≤ ·)).flatMap fun k => (named.lookup k).getD []

/-- The entry with the higher name (build_target.go, lines 1595–1600). -/
def higher (highest e : String × String) : String × String := if highest.1 < e.1 then e else highest

/-- The entries of a map that may be nil. -/
def commandEntries (commands : Option (SortedMap String String)) : List (String × String) :=
  commands.elim [] entries

/-- `getCommand` (build_target.go, lines 1583–1604). -/
def commandForIn (build : BuildConfig) (commands : Option (SortedMap String String))
    (singleCommand : String) (order : AnyOrder (commandEntries commands)) : String :=
  match commands with
  | none => singleCommand
  | some commands =>
    match commands.lookup build.config, commands.lookup build.fallbackConfig with
    | some command, _ => command
    | none, some command => command
    | none, none => (order.1.foldl higher ("", "")).2

/-- The fields of `TestFields` that are hashed. -/
structure TestHash where
  outputs : List String
  sandbox : Bool
  command : String
  commands : Option (SortedMap String String)
  argsPlaceholder : String

/-- The orders in which the maps of a target are gone through. -/
structure MapOrders (target : BuildTarget) (test : Option TestHash) where
  namedSources : AnyOrder target.namedSources.keys
  namedOutputs : AnyOrder target.namedOutputs.keys
  commands : AnyOrder (commandEntries target.commands)
  provides : AnyOrder (provided target).keys
  entryPoints : AnyOrder target.entryPoints.keys
  env : AnyOrder target.env.keys
  namedData : AnyOrder target.namedData.keys
  testCommands : AnyOrder (commandEntries (test.bind (·.commands)))

/-- The part of the stream for run time (lines 252–263). -/
def writtenRuntimeIn (state : HashState) (target : BuildTarget) (test : Option TestHash)
    (orders : MapOrders target test) : List (List Bytes) :=
  (combinedBuildInputsIn target.data target.namedData orders.namedData).map (utf8 ∘ toStr) ::
    test.elim [] fun t =>
      [t.outputs.map utf8, hashOptionalBool t.sandbox,
        [utf8 (commandForIn state.build (test.bind (·.commands)) t.command orders.testCommands)],
        [utf8 t.argsPlaceholder]]

/-- The strings `ruleHash` writes, field by field. -/
def writtenIn (state : HashState) (target : BuildTarget) (test : Option TestHash) (runtime : Bool)
    (orders : MapOrders target test) : List (List Bytes) :=
  [[utf8 target.label.toStr],
    (target.declaredDependencies.insertionSort labelLe).map (utf8 ∘ BuildLabel.toStr),
    target.visibility.map (utf8 ∘ BuildLabel.toStr),
    target.hashes.map utf8,
    (combinedBuildInputsIn target.sources target.namedSources orders.namedSources).map
      (utf8 ∘ toStr),
    target.outputs.map utf8,
    hashGroupsIn id target.namedOutputs orders.namedOutputs,
    target.licences.map utf8,
    target.optionalOutputs.map utf8,
    target.labels.map utf8,
    target.secrets.map utf8,
    hashBool target.isBinary,
    hashOptionalBool target.isSubrepo,
    hashOptionalBool target.sandbox,
    [utf8 (commandForIn state.build target.commands target.command orders.commands)],
    hashBool target.needsTransitiveDependencies,
    hashBool target.outputIsComplete,
    hashBool target.stamp,
    hashBool target.isFilegroup,
    hashBool target.isTextFile,
    hashBool target.isRemoteFile,
    hashBool target.isLocal,
    hashBool target.srcListFiles,
    hashOptionalBool target.exitOnError,
    target.requires.map utf8,
    hashGroupsIn BuildLabel.toStr (provided target) orders.provides,
    hashBool target.preBuildFunction,
    hashBool target.postBuildFunction,
    hashPassEnv state target,
    target.outputDirectories.map utf8,
    hashMapIn target.entryPoints orders.entryPoints,
    hashMapIn target.env orders.env,
    [utf8 target.fileContent]] ++
    if runtime then writtenRuntimeIn state target test orders else []

/-! ## The order of keys -/

/-- Sorted, the keys are those of the map in order. -/
theorem sort_keys {α : Type} {m : SortedMap String α} (order : AnyOrder m.keys) :
    order.1.insertionSort (· ≤ ·) = m.keys :=
  (((perm_insertionSort _ _).trans order.2).eq_of_pairwise'
    (pairwise_insertionSort (· ≤ ·) order.1) (m.keys_sorted.imp le_of_lt))

theorem flatMap_keys {α β : Type} (m : NamedLists α) (f : String → List α → List β) :
    (m.keys.flatMap fun k => f k ((m.lookup k).getD [])) = m.entries.flatMap fun e =>
      f e.1 e.2 := by
  have h := m.map_keys fun k v => f k (v.getD [])
  rw [flatMap_def, h, flatMap_def]
  rfl

theorem hashMapIn_eq (eps : SortedMap String String) (order : AnyOrder eps.keys) :
    hashMapIn eps order = hashMap eps := by
  rw [hashMapIn, sort_keys]
  exact eps.map_keys fun k v => utf8 (k ++ "=" ++ v.getD "")

theorem hashGroupsIn_eq {α : Type} (toStr : α → String) (m : NamedLists α)
    (order : AnyOrder m.keys) :
    hashGroupsIn toStr m order = m.entries.flatMap (hashGroup toStr) := by
  rw [hashGroupsIn, sort_keys]
  exact flatMap_keys m fun k v => hashGroup toStr (k, v)

theorem combinedBuildInputsIn_eq (unnamed : List BuildInput) (named : NamedLists BuildInput)
    (order : AnyOrder named.keys) :
    combinedBuildInputsIn unnamed named order = combinedBuildInputs unnamed named := by
  rw [combinedBuildInputsIn, sort_keys, flatMap_keys named fun _ v => v]
  rfl

theorem higher_comm {a b : String × String} (hlt : a.1 < b.1) (e : String × String) :
    higher (higher e a) b = higher (higher e b) a := by
  by_cases hb : e.1 < b.1
  · -- `b` is above both
    have hab : (higher e a).1 < b.1 := by
      rw [higher]
      split
      · exact hlt
      · exact hb
    rw [higher, if_pos hab, higher, higher, if_pos hb, if_neg hlt.asymm]
  · -- `e` is above both
    have ha : ¬e.1 < a.1 := fun h => hb (h.trans hlt)
    simp only [higher, if_neg ha, if_neg hb]

/-- Of entries with different names, the highest does not depend on their order. -/
theorem foldl_higher_eq {entries order : List (String × String)}
    (hnodup : (entries.map Prod.fst).Nodup) (h : order.Perm entries) (e : String × String) :
    order.foldl higher e = entries.foldl higher e := by
  refine h.foldl_eq' (fun a ha b hb e => ?_) e
  rcases lt_trichotomy a.1 b.1 with hlt | heq | hlt
  · exact higher_comm hlt e
  · rw [inj_on_of_nodup_map hnodup (h.mem_iff.mp ha) (h.mem_iff.mp hb) heq]
  · exact (higher_comm hlt e).symm

theorem commandForIn_eq (build : BuildConfig) (commands : Option (SortedMap String String))
    (singleCommand : String) (order : AnyOrder (commandEntries commands)) :
    commandForIn build commands singleCommand order = commandFor build commands singleCommand := by
  cases commands with
  | none => rfl
  | some commands =>
    rw [commandForIn, commandFor]
    have hfold : order.1.foldl higher ("", "") = commands.entries.foldl higher ("", "") :=
      foldl_higher_eq (commands.keys_sorted.imp ne_of_lt) order.2 _
    rw [hfold]
    rfl

/-- The strings for run time, with the maps in order. -/
def writtenRuntime (state : HashState) (target : BuildTarget) (test : Option TestHash) :
    List (List Bytes) :=
  target.allData.map (utf8 ∘ toStr) ::
    test.elim [] fun t =>
      [t.outputs.map utf8, hashOptionalBool t.sandbox,
        [utf8 (commandFor state.build (test.bind (·.commands)) t.command)],
          [utf8 t.argsPlaceholder]]

/-- The orders in which the maps are gone through make no difference. -/
theorem writtenIn_eq (state : HashState) (target : BuildTarget) (test : Option TestHash)
    (runtime : Bool) (orders : MapOrders target test) :
    writtenIn state target test runtime orders =
      written state target ++ if runtime then writtenRuntime state target test else [] := by
  have hruntime : writtenRuntimeIn state target test orders = writtenRuntime state target test := by
    simp only [writtenRuntimeIn, combinedBuildInputsIn_eq, commandForIn_eq]
    rfl
  simp only [writtenIn, hashMapIn_eq, hashGroupsIn_eq, combinedBuildInputsIn_eq,
    commandForIn_eq, hruntime]
  rfl

/-! ## The order of declarations -/

/-- The arguments of `AddMaybeExportedDependency`. -/
structure DependencyCall where
  dep : BuildLabel
  exported : Bool := false
  source : Bool := false
  internal : Bool := false
  runtime : Bool := false

/-- What is stored about a dependency that is declared again (build_target.go, lines 1780–1784). -/
def mergeDependency (call : DependencyCall) (info : DeclaredDependency) : DeclaredDependency :=
  { info with
    exported := info.exported || call.exported
    source := info.source && call.source
    internal := info.internal && call.internal
    runtime := info.runtime && call.runtime
    data := false }

/-- The dependencies with another one, which may be there already (build_target.go, lines
1770–1785). -/
def addDependency (deps : List DeclaredDependency) (call : DependencyCall) :
    List DeclaredDependency :=
  if call.dep ∈ deps.map (·.label) then
    deps.map fun info => if info.label = call.dep then mergeDependency call info else info
  else deps ++ [⟨call.dep, call.exported, call.internal, call.runtime, call.source, false⟩]

/-- `BuildTarget.AddMaybeExportedDependency` (build_target.go, lines 1760–1786). -/
def addMaybeExportedDependency (target : BuildTarget) (call : DependencyCall) :
    Except String BuildTarget :=
  if call.dep = target.label then
    .error ("Attempted to add " ++ call.dep.toStr ++ " as a dependency of itself.\n")
  else if call.runtime && !target.isBinary then
    .error (target.label.toStr ++ ": output must be marked as binary to have run-time dependencies")
  else .ok { target with
    runtimeDependencies :=
      if call.runtime then target.runtimeDependencies ++ [call.dep] else target.runtimeDependencies
    dependencies := addDependency target.dependencies call }

/-- What is declared of a target: its outputs, those with names, optional ones, and dependencies. -/
structure Declarations where
  outs : List String
  named : List (String × String)
  optional : List String
  deps : List DependencyCall

/-- The same declarations in another order. -/
structure Declarations.Reordered (d d' : Declarations) : Prop where
  outs : d.outs.Perm d'.outs
  named : d.named.Perm d'.named
  optional : d.optional.Perm d'.optional
  deps : d.deps.Perm d'.deps

/-- The declarations are made for a target that has none. -/
def declareAll (target : BuildTarget) (d : Declarations) : Except String BuildTarget := do
  let target := { target with
    outputs := [], namedOutputs := .empty, optionalOutputs := [], dependencies := [] }
  let target ← d.outs.foldlM addOutput target
  let target ← d.named.foldlM (fun t out => t.addNamedOutput out.1 out.2) target
  let target ← d.optional.foldlM addOptionalOutput target
  d.deps.foldlM addMaybeExportedDependency target

variable {t' t : BuildTarget} {os : List String}

/-- Outputs are added to a list that is kept in the target. -/
theorem foldlM_insertOutput (get : BuildTarget → List String)
    (set : BuildTarget → List String → BuildTarget) (hself : ∀ t, set t (get t) = t)
    (hget : ∀ t outs, get (set t outs) = outs)
    (hset : ∀ t outs outs', set (set t outs) outs' = set t outs')
    (h : os.foldlM (fun t o => set t <$> insertOutput (get t) o) t = .ok t') :
    t' = set t (insertAll os (get t)) := by
  induction os generalizing t with
  | nil => exact (Except.ok.inj h).symm.trans (hself t).symm
  | cons o os ih =>
    obtain ⟨t₁, ht₁, h⟩ := bind_eq_ok.mp h
    obtain ⟨outs, houts, rfl⟩ := map_eq_ok.mp ht₁
    obtain rfl := insertOutput_eq_ok houts
    rw [ih h, hget, hset]
    rfl

theorem foldlM_addOutput (h : os.foldlM addOutput t = .ok t') :
    t' = { t with outputs := insertAll os t.outputs } :=
  foldlM_insertOutput outputs (fun t outs => { t with outputs := outs }) (fun _ => rfl)
    (fun _ _ => rfl) (fun _ _ _ => rfl) h

theorem foldlM_addOptionalOutput
    (h : os.foldlM addOptionalOutput t = .ok t') :
    t' = { t with optionalOutputs := insertAll os t.optionalOutputs } :=
  foldlM_insertOutput optionalOutputs (fun t outs => { t with optionalOutputs := outs })
    (fun _ => rfl) (fun _ _ => rfl) (fun _ _ _ => rfl) h

/-- The outputs that are added under a name. -/
def namedOuts (named : List (String × String)) (name : String) : List String :=
  (named.filter (·.1 = name)).map (·.2)

theorem foldlM_addNamedOutput {named : List (String × String)}
    (h : named.foldlM (fun t out => t.addNamedOutput out.1 out.2) t = .ok t') :
    ∃ m, t' = { t with namedOutputs := m } ∧ ∀ name, m.lookup name =
      if namedOuts named name = [] then t.namedOutputs.lookup name
      else some (insertAll (namedOuts named name) ((t.namedOutputs.lookup name).getD [])) := by
  induction named generalizing t with
  | nil => exact ⟨t.namedOutputs, (Except.ok.inj h).symm, fun name => rfl⟩
  | cons out named ih =>
    obtain ⟨t₁, ht₁, h⟩ := bind_eq_ok.mp h
    obtain ⟨outs, houts, rfl⟩ := map_eq_ok.mp ht₁
    obtain rfl := insertOutput_eq_ok houts
    obtain ⟨m, rfl, hm⟩ := ih h
    refine ⟨m, rfl, fun name => ?_⟩
    rw [hm name, lookup_insert]
    by_cases hname : name = out.1
    · subst hname
      have hcons : namedOuts (out :: named) out.1 = out.2 :: namedOuts named out.1 := by
        simp [namedOuts]
      rw [if_pos rfl, hcons, if_neg (cons_ne_nil _ _)]
      split
      case isTrue hnil => rw [hnil]; rfl
      case isFalse => rfl
    · have hcons : namedOuts (out :: named) name = namedOuts named name := by
        simp [namedOuts, Ne.symm hname]
      rw [if_neg hname, hcons]

/-- A label is added to the declared ones once. -/
theorem labels_addDependency (deps : List DeclaredDependency) (call : DependencyCall) :
    (addDependency deps call).map (·.label) = if call.dep ∈ deps.map (·.label)
      then deps.map (·.label)
      else deps.map (·.label) ++ [call.dep] := by
  rw [addDependency]
  split
  case isTrue =>
    rw [map_map]
    refine map_congr_left fun info _ => ?_
    rw [Function.comp_apply]
    split <;> rfl
  case isFalse => rw [map_append, map_singleton]

theorem foldlM_addMaybeExportedDependency {calls : List DependencyCall}
    (h : calls.foldlM addMaybeExportedDependency t = .ok t')
      (hnodup : t.declaredDependencies.Nodup) :
    ∃ deps runs, t' = { t with dependencies := deps, runtimeDependencies := runs } ∧
      t'.declaredDependencies.Nodup ∧ ∀ l, l ∈ t'.declaredDependencies ↔
        l ∈ t.declaredDependencies ∨ ∃ call ∈ calls, l = call.dep := by
  induction calls generalizing t with
  | nil =>
    obtain rfl := Except.ok.inj h
    exact ⟨t.dependencies, t.runtimeDependencies, rfl, hnodup, by simp⟩
  | cons call _ ih =>
    obtain ⟨t₁, ht₁, h⟩ := bind_eq_ok.mp h
    rw [addMaybeExportedDependency] at ht₁
    split at ht₁
    · cases ht₁
    split at ht₁
    · cases ht₁
    obtain rfl := Except.ok.inj ht₁
    have hlabels := labels_addDependency t.dependencies call
    have hfirst : ((addDependency t.dependencies call).map (·.label)).Nodup ∧
        ∀ l, l ∈ (addDependency t.dependencies call).map (·.label) ↔
          l ∈ t.declaredDependencies ∨ l = call.dep := by
      rw [hlabels]
      split
      case isTrue hmem => exact ⟨hnodup, fun l => ⟨.inl, fun h => h.elim id fun h => h ▸ hmem⟩⟩
      case isFalse hmem =>
        refine ⟨concat_eq_append ▸ hnodup.concat hmem, fun l => ?_⟩
        rw [mem_append, mem_singleton]
        rfl
    obtain ⟨deps, runs, rfl, hnodup', hmem⟩ := ih h hfirst.1
    refine ⟨deps, runs, rfl, hnodup', fun l => (hmem l).trans ?_⟩
    rw [exists_mem_cons_iff, ← or_assoc]
    exact or_congr_left (hfirst.2 l)

theorem declareAll_eq_ok {d : Declarations} (h : declareAll t d = .ok t') :
    ∃ m deps runs, t' = { t with
        outputs := insertAll d.outs [], namedOutputs := m, optionalOutputs :=
          insertAll d.optional [],
        dependencies := deps, runtimeDependencies := runs } ∧
      (∀ name, m.lookup name =
        if namedOuts d.named name = [] then none
          else some (insertAll (namedOuts d.named name) [])) ∧
      t'.declaredDependencies.Nodup ∧
      ∀ l, l ∈ t'.declaredDependencies ↔ ∃ call ∈ d.deps, l = call.dep := by
  obtain ⟨t₁, ht₁, h⟩ := bind_eq_ok.mp h
  obtain rfl := foldlM_addOutput ht₁
  obtain ⟨t₂, ht₂, h⟩ := bind_eq_ok.mp h
  obtain ⟨m, rfl, hm⟩ := foldlM_addNamedOutput ht₂
  obtain ⟨t₃, ht₃, h⟩ := bind_eq_ok.mp h
  obtain rfl := foldlM_addOptionalOutput ht₃
  obtain ⟨deps, runs, rfl, hnodup, hmem⟩ := foldlM_addMaybeExportedDependency h nodup_nil
  exact ⟨m, deps, runs, rfl, hm, hnodup, fun l => (hmem l).trans (or_iff_right not_mem_nil)⟩

/-- For every state and target: what is written does not depend on the order in which dependencies
and outputs are declared, nor on the order in which maps are gone through. -/
theorem ruleHash_order_independent (state : HashState) (target : BuildTarget) {d d' : Declarations}
    (hd : d.Reordered d') {t t' : BuildTarget} (h : declareAll target d = .ok t)
    (h' : declareAll target d' = .ok t') (test : Option TestHash) (runtime : Bool)
    (orders : MapOrders t test) (orders' : MapOrders t' test) :
    (writtenIn state t test runtime orders).flatten.flatten =
      (writtenIn state t' test runtime orders').flatten.flatten := by
  rw [writtenIn_eq, writtenIn_eq]
  obtain ⟨m, deps, runs, rfl, hm, hnodup, hmem⟩ := declareAll_eq_ok h
  obtain ⟨m', deps', runs', rfl, hm', hnodup', hmem'⟩ := declareAll_eq_ok h'
  have hdeps : (deps.map (·.label)).insertionSort labelLe =
      (deps'.map (·.label)).insertionSort labelLe := by
    have hperm : (deps.map (·.label)).Perm (deps'.map (·.label)) := by
      refine (perm_ext_iff_of_nodup hnodup hnodup').mpr fun l => ?_
      refine (hmem l).trans (.trans ?_ (hmem' l).symm)
      simp only [hd.deps.mem_iff]
    exact ((perm_insertionSort _ _).trans
      (hperm.trans (perm_insertionSort _ _).symm)).eq_of_pairwise'
      (pairwise_insertionSort _ _) (pairwise_insertionSort _ _)
  have hnamed : m = m' := by
    refine ext_lookup fun name => ?_
    have hperm : (namedOuts d.named name).Perm (namedOuts d'.named name) :=
      (hd.named.filter _).map _
    have hnil : namedOuts d.named name = [] ↔ namedOuts d'.named name = [] := by
      rw [← length_eq_zero_iff, hperm.length_eq, length_eq_zero_iff]
    simp only [hm, hm', insertAll_congr fun _ => hperm.mem_iff, hnil]
  subst hnamed
  have hwritten := insertAll_congr fun _ => hd.outs.mem_iff
  have hoptional := insertAll_congr fun _ => hd.optional.mem_iff
  simp only [written, declaredDependencies, hdeps, hwritten, hoptional]
  rfl

/-- Every map in the order of its keys. -/
def keyOrders (target : BuildTarget) (test : Option TestHash) : MapOrders target test :=
  ⟨⟨_, .refl _⟩, ⟨_, .refl _⟩, ⟨_, .refl _⟩, ⟨_, .refl _⟩, ⟨_, .refl _⟩, ⟨_, .refl _⟩, ⟨_, .refl _⟩,
    ⟨_, .refl _⟩⟩

/-- Outputs in a given order, one with a name, and a dependency. -/
def declarationsOf (outs : List String) : Declarations :=
  ⟨outs, [("hdrs", "x.h")], [], [{ dep := ⟨"p", "dep", ""⟩ }]⟩

theorem ruleHash_order_independent_declarationsOf :
    ∃ t t', declareAll (withSources []) (declarationsOf ["a", "b"]) = .ok t ∧
      declareAll (withSources []) (declarationsOf ["b", "a"]) = .ok t' ∧
      (writtenIn optState t none false (keyOrders t none)).flatten.flatten =
        (writtenIn optState t' none false (keyOrders t' none)).flatten.flatten := by
  obtain ⟨t, h⟩ := exists_ok_of_isSome
    (x := declareAll (withSources []) (declarationsOf ["a", "b"])) (by decide +kernel)
  obtain ⟨t', h'⟩ := exists_ok_of_isSome
    (x := declareAll (withSources []) (declarationsOf ["b", "a"])) (by decide +kernel)
  have hd : (declarationsOf ["a", "b"]).Reordered (declarationsOf ["b", "a"]) :=
    ⟨.swap "b" "a" [], .refl _, .refl _, .refl _⟩
  exact ⟨t, t', h, h', ruleHash_order_independent optState _ hd h h' none false _ _⟩

end Please.Build
