import Please.Core.Target

/-!
# The environment of a rule

Model of `withUserProvidedEnv` (`src/core/build_env.go`, lines 140–156) and of `os.Expand`, which it
uses. The entries of `target.Env` are a Go map, and come in any order. Each value is expanded in the
environment as it is then: what an entry refers to may have been set by an earlier one or not.

* `userProvidedEnv_order_iff`: when the order makes no difference.
-/

namespace Please.Core

open Please.Lib List

/-! ## `os.Expand` -/

/-- A part of a string with references to variables. -/
inductive Segment
  | text (c : Char)
  | var (name : String)
deriving DecidableEq

/-- The characters of a name. -/
def isAlphaNum (c : Char) : Bool := c = '_' || c.isDigit || c.isAlpha

/-- The names of one character that the shell knows. -/
def isShellSpecialVar (c : Char) : Bool :=
  c ∈ ['*', '#', '$', '@', '!', '?', '-'] || c.isDigit

/-- `getShellName`: the name that a string begins with, and the number of characters that it takes.
A name in braces ends at the first closing one; without it, the opening one alone is taken. -/
def getShellName : List Char → List Char × ℕ
  | '\x7b' :: rest =>
    if rest.length > 1 && rest.head?.any isShellSpecialVar && rest[1]? = some '\x7d' then
      (rest.take 1, 3)
    else if '\x7d' ∈ rest then
      let name := rest.takeWhile (· ≠ '\x7d')
      (name, name.length + 2)
    else ([], 1)
  | c :: rest =>
    if isShellSpecialVar c then ([c], 1)
    else
      let name := (c :: rest).takeWhile isAlphaNum
      (name, name.length)
  | [] => ([], 0)

/-- What a string consists of for `os.Expand`, with a bound on the number of its characters. A
dollar sign without a name stays, one with bad braces is left out. -/
def segments : ℕ → List Char → List Segment
  | n + 1, '$' :: c :: rest =>
    let r := getShellName (c :: rest)
    (if r.1 = [] then if r.2 > 0 then [] else [.text '$'] else [.var (String.ofList r.1)]) ++
      segments n ((c :: rest).drop r.2)
  | n + 1, c :: rest => .text c :: segments n rest
  | _, _ => []

/-- What a string consists of. -/
def segmentsOf (s : String) : List Segment := segments s.toList.length s.toList

/-- What a part of a string becomes. -/
def Segment.expand (mapping : String → String) : Segment → List Char
  | .text c => [c]
  | .var name => (mapping name).toList

/-- `os.Expand`. -/
def expand (s : String) (mapping : String → String) : String :=
  String.ofList ((segmentsOf s).flatMap (Segment.expand mapping))

/-! ## `withUserProvidedEnv` -/

/-- `BuildEnv`. -/
abbrev BuildEnv := String → Option String

/-- The value of a variable, which stands for itself if it is not set (lines 146–149). -/
def BuildEnv.value (env : BuildEnv) (k : String) : String := (env k).getD ("$" ++ k)

/-- An assignment. -/
def BuildEnv.set (env : BuildEnv) (k v : String) : BuildEnv := fun k' =>
    if k' = k then some v else env k'

/-- One round of the loop (lines 144–153). -/
def setUserEnv (env : BuildEnv) (entry : String × String) : BuildEnv :=
  env.set entry.1 (if '$' ∈ entry.2.toList then expand entry.2 env.value else entry.2)

/-- `withUserProvidedEnv` (lines 143–156), with the entries in the order in which they come. -/
def withUserProvidedEnv (entries : List (String × String)) (env : BuildEnv) : BuildEnv :=
  entries.foldl setUserEnv env

/-! ## What a value refers to -/

/-- The string refers to the variable. -/
def RefersTo (s name : String) : Prop := .var name ∈ segmentsOf s

theorem segments_of_no_dollar {n : ℕ} {cs : List Char} (h : '$' ∉ cs) (hn : cs.length ≤ n) :
    segments n cs = cs.map .text := by
  induction cs generalizing n with
  | nil => cases n <;> rfl
  | cons c cs ih =>
    obtain ⟨n, rfl⟩ : ∃ m, n = m + 1 := ⟨n - 1, by simp at hn; omega⟩
    have hc : c ≠ '$' := fun heq => h (heq ▸ mem_cons_self)
    have hcs : '$' ∉ cs := fun hmem => h (mem_cons_of_mem _ hmem)
    rw [segments]
    · rw [ih hcs (by simpa using hn), map_cons]
    · exact fun c' rest heq _ => hc heq

variable (env : BuildEnv)

/-- A value without references is not changed by the expansion. -/
theorem setUserEnv_eq (entry : String × String) :
    setUserEnv env entry = env.set entry.1 (expand entry.2 env.value) := by
  rw [setUserEnv]
  split
  · rfl
  case isFalse h =>
    have hsegments : segmentsOf entry.2 = entry.2.toList.map .text := segments_of_no_dollar h le_rfl
    have htext : (entry.2.toList.map Segment.text).flatMap (Segment.expand env.value) =
        entry.2.toList := by
      rw [flatMap_map]
      exact flatMap_singleton' _
    rw [expand, hsegments, htext, String.ofList_toList]

/-- The expansion depends on the variables that are referred to. -/
theorem expand_congr {s : String} {f g : String → String}
    (h : ∀ name, RefersTo s name → f name = g name) :
    expand s f = expand s g := by
  rw [expand, expand]
  congr 1
  refine flatMap_congr fun seg hseg => ?_
  cases seg with
  | text => rfl
  | var name => exact congrArg String.toList (h name hseg)

theorem BuildEnv.value_set_self (k v : String) : (env.set k v).value k = v := by
  simp [BuildEnv.value, BuildEnv.set]

theorem BuildEnv.value_set_of_ne {k k' : String} (v : String) (h : k' ≠ k) :
    (env.set k v).value k' = env.value k' := by
  simp [BuildEnv.value, BuildEnv.set, h]

theorem BuildEnv.set_comm {k k' : String} (v v' : String) (h : k ≠ k') :
    (env.set k v).set k' v' = (env.set k' v').set k v := by
  funext x
  simp only [BuildEnv.set]
  by_cases hk : x = k
  · subst hk
    simp [h]
  · simp [hk]

/-! ## The order of the entries -/

/-- The entry refers to the other one, which does more than repeat what is there. -/
def DependsOn (entry other : String × String) : Prop :=
  RefersTo entry.2 other.1 ∧ segmentsOf other.2 ≠ [.var other.1]

/-- Another entry makes no difference for one that does not depend on it. -/
theorem expand_setUserEnv {entry other : String × String} (h : ¬DependsOn entry other)
    (env : BuildEnv) : expand entry.2 (setUserEnv env other).value = expand entry.2 env.value := by
  rw [setUserEnv_eq]
  refine expand_congr fun name hname => ?_
  by_cases hkey : name = other.1
  · subst hkey
    have hself : segmentsOf other.2 = [.var other.1] := not_not.mp fun hne => h ⟨hname, hne⟩
    rw [BuildEnv.value_set_self, expand, hself, flatMap_singleton, Segment.expand,
      String.ofList_toList]
  · exact env.value_set_of_ne _ hkey

theorem setUserEnv_comm {entry other : String × String} (hkey : entry.1 ≠ other.1)
    (h : ¬DependsOn entry other) (h' : ¬DependsOn other entry) (env : BuildEnv) :
    setUserEnv (setUserEnv env entry) other = setUserEnv (setUserEnv env other) entry := by
  rw [setUserEnv_eq (setUserEnv env entry), setUserEnv_eq (setUserEnv env other),
    expand_setUserEnv h, expand_setUserEnv h', setUserEnv_eq, setUserEnv_eq, env.set_comm _ _ hkey]

/-- The entries after it do not change what an entry sets. -/
theorem withUserProvidedEnv_of_notMem {entries : List (String × String)} {k : String}
    (h : k ∉ entries.map Prod.fst) (env : BuildEnv) :
      withUserProvidedEnv entries env k = env k := by
  induction entries generalizing env with
  | nil => rfl
  | cons _ _ ih =>
    rw [map_cons, mem_cons, not_or] at h
    refine (ih h.2 _).trans ?_
    exact if_neg h.1

section lengths

-- every variable but one has a value of one character
variable {k : String} {env : BuildEnv} (henv : ∀ name, name ≠ k → (env.value name).length = 1)
include henv

theorem length_expand_segment (seg : Segment) :
    (seg.expand env.value).length = if seg = .var k then (env.value k).length else 1 := by
  cases seg with
  | text => simp [Segment.expand]
  | var name =>
    by_cases hname : name = k
    · subst hname
      rw [if_pos rfl, Segment.expand, String.length_toList]
    · rw [if_neg (by simpa using hname)]
      exact henv name hname

theorem length_expand {s : String} :
    (expand s env.value).length = (segmentsOf s).countP (· ≠ .var k) +
      (segmentsOf s).count (.var k) * (env.value k).length := by
  rw [expand, String.length_ofList, length_flatMap]
  induction segmentsOf s with
  | nil => simp
  | cons seg _ ih =>
    rw [map_cons, sum_cons, ih, countP_cons, count_cons, length_expand_segment henv]
    by_cases hseg : seg = .var k
    · rw [if_pos hseg, if_neg (by simp [hseg]), if_pos (by simp [hseg]), Nat.add_mul, Nat.one_mul]
      omega
    · rw [if_neg hseg, if_pos (by simp [hseg]), if_neg (by simp [hseg]), Nat.add_zero (count _ _)]
      omega

end lengths

/-- If an entry depends on another, there is an environment in which their order makes a
difference: the number of characters tells them apart. -/
theorem exists_env_of_dependsOn {entry other : String × String} (hkey : entry.1 ≠ other.1)
    (h : DependsOn entry other) :
    ∃ env, setUserEnv (setUserEnv env entry) other entry.1 ≠
      setUserEnv (setUserEnv env other) entry entry.1 := by
  obtain ⟨href, hself⟩ := h
  let a := (segmentsOf other.2).countP (· ≠ .var other.1)
  let r := (segmentsOf other.2).count (.var other.1)
  let env : BuildEnv := fun name =>
    some (String.ofList (replicate (if name = other.1 then a + 1 else 1) 'z'))
  have hvalue (name : String) (hne : name ≠ other.1) : (env.value name).length = 1 := by
    simp only [env, BuildEnv.value, hne, if_false, Option.getD_some, String.length_ofList,
      length_replicate]
  have hvalue' (name : String) (hne : name ≠ other.1) :
      ((setUserEnv env other).value name).length = 1 := by
    rw [setUserEnv_eq, BuildEnv.value_set_of_ne _ _ hne, hvalue name hne]
  have hbefore : (env.value other.1).length = a + 1 := by simp [env, BuildEnv.value]
  have hafter : ((setUserEnv env other).value other.1).length = a + r * (a + 1) := by
    rw [setUserEnv_eq, BuildEnv.value_set_self, length_expand hvalue, hbefore]
  -- the value of the other variable changes its length
  have hlength : a + 1 ≠ a + r * (a + 1) := by
    intro heq
    have hr : r = 1 := by
      rcases Nat.lt_trichotomy r 1 with hr | hr | hr
      · simp [Nat.lt_one_iff.mp hr] at heq
      · exact hr
      · have hle : 2 * (a + 1) ≤ r * (a + 1) := Nat.mul_le_mul_right _ hr
        omega
    have ha : a = 0 := by
      rw [hr] at heq
      omega
    have hall : ∀ seg ∈ segmentsOf other.2, seg = .var other.1 := by
      simpa [a, countP_eq_zero] using ha
    have hlen : (segmentsOf other.2).length = 1 := by
      exact (count_eq_length.mpr fun seg hseg => (hall seg hseg).symm).symm.trans hr
    obtain ⟨seg, hseg⟩ := length_eq_one_iff.mp hlen
    exact hself (by rw [hseg, hall seg (hseg ▸ mem_cons_self)])
  have hcount : 0 < (segmentsOf entry.2).count (.var other.1) := count_pos_iff.mpr href
  refine ⟨env, fun heq => ?_⟩
  have hleft : setUserEnv (setUserEnv env entry) other entry.1 =
      some (expand entry.2 env.value) := by
    rw [setUserEnv_eq _ other, setUserEnv_eq]
    simp [BuildEnv.set, hkey]
  have hright : setUserEnv (setUserEnv env other) entry entry.1 =
      some (expand entry.2 (setUserEnv env other).value) := by
    rw [setUserEnv_eq _ entry]
    exact if_pos rfl
  rw [hleft, hright, Option.some.injEq] at heq
  have hlengths := congrArg String.length heq
  rw [length_expand hvalue, length_expand hvalue', hbefore, hafter] at hlengths
  exact hlength (Nat.eq_of_mul_eq_mul_left hcount (Nat.add_left_cancel hlengths))

/-- The result does not depend on the order of the entries, for any environment, if and only if no
entry depends on another one. -/
theorem userProvidedEnv_order_iff (target : BuildTarget) :
    (∀ env entries, entries.Perm target.env.entries →
      withUserProvidedEnv entries env = withUserProvidedEnv target.env.entries env) ↔
      ∀ entry ∈ target.env.entries, ∀ other ∈ target.env.entries, entry.1 ≠ other.1 →
        ¬DependsOn entry other := by
  have hnodup : (target.env.entries.map Prod.fst).Nodup :=
    (pairwise_map.mpr target.env.sorted).imp ne_of_lt
  constructor
  · intro h entry hentry other hother hkey hdepends
    obtain ⟨env, hne⟩ := exists_env_of_dependsOn hkey hdepends
    have hother' : other ∈ target.env.entries.erase entry :=
      (mem_erase_of_ne fun heq => hkey (congrArg Prod.fst heq).symm).mpr hother
    let rest := (target.env.entries.erase entry).erase other
    have hperm : (entry :: other :: rest).Perm target.env.entries :=
      ((perm_cons_erase hother').symm.cons entry).trans (perm_cons_erase hentry).symm
    have heq := (h env _ hperm).trans (h env _ ((List.Perm.swap entry other rest).trans hperm)).symm
    have hkeys : ((entry :: other :: rest).map Prod.fst).Nodup :=
      (hperm.map Prod.fst).nodup_iff.mpr hnodup
    have hrest : entry.1 ∉ rest.map Prod.fst := fun hmem =>
      (nodup_cons.mp hkeys).1 (mem_cons_of_mem _ hmem)
    have hvalue := congrFun heq entry.1
    rw [withUserProvidedEnv, withUserProvidedEnv] at hvalue
    exact hne ((withUserProvidedEnv_of_notMem hrest _).symm.trans
      (hvalue.trans (withUserProvidedEnv_of_notMem hrest _)))
  · intro h env entries hperm
    refine hperm.foldl_eq' (fun e he e' he' env => ?_) env
    have he := hperm.mem_iff.mp he
    have he' := hperm.mem_iff.mp he'
    by_cases hkey : e.1 = e'.1
    · rw [inj_on_of_nodup_map hnodup he he' hkey]
    · exact setUserEnv_comm hkey (h e he e' he' hkey) (h e' he' e he (Ne.symm hkey)) env

/-- A target whose entry `A` refers to `B`. -/
def chainedEnv : BuildTarget :=
  { BuildTarget.new ⟨"p", "t", ""⟩ with env := (SortedMap.empty.insert "A" "$B").insert "B" "x" }

theorem userProvidedEnv_chainedEnv :
    withUserProvidedEnv [("A", "$B"), ("B", "x")] (fun _ => none) "A" = some "$B" ∧
      withUserProvidedEnv [("B", "x"), ("A", "$B")] (fun _ => none) "A" = some "x" ∧
      chainedEnv.env.entries = [("A", "$B"), ("B", "x")] := by
  decide +kernel

end Please.Core
