import Please.Build.Incrementality
import Please.Lib.Slice
import Please.Lib.Utf8

/-!
# Checking the hashes of a rule

Model of `UnprefixedHashes` (`src/core/build_target.go`, lines 1334–1345) on a heap of slices and of
`checkRuleHashes` (`src/build/build_step.go`, lines 946–972), which `calculateAndCheckRuleHash`
(lines 829–850) calls before `writeRuleHash`.

`target.Hashes[:]` is a new header for the same array. So the loop that takes the prefixes away
takes them away from the hashes of the target, and from then on `ruleHash` writes other strings.

* `checkRuleHashes_frame_iff`: for which hashes the check changes nothing.
-/

namespace Please.Build

open Please.Core Please.Lib
open Please.Lib.Utf8 (trimSpace)

/-! ## The model -/

/-- What stands after the last colon of a hash, without the spaces around it. A hash without a colon
is left as it is. -/
def unprefixed (h : String) : String :=
  if ':' ∈ h.toList then String.ofList (trimSpace (h.toList.rtakeWhile (· ≠ ':'))) else h

/-- `BuildTarget.UnprefixedHashes` of a target whose field `Hashes` is the slice: what it returns,
and the heap. -/
def unprefixedHashes (heap : Heap String) (targetHashes : Slice) : Slice × Heap String :=
  let hashes := targetHashes.reslice 0 targetHashes.len
  (hashes, hashes.modifyEach unprefixed heap)

/-- `checkRuleHashes`: the error, and the heap. `hashStr` is the hash that was calculated and
`ofType` is `checkRuleHashesOfType` for the outputs of the target and the checkers of the
state. -/
def checkRuleHashes (label : BuildLabel) (hashStr : String)
    (ofType : List String → List String × Bool) (heap : Heap String) (targetHashes : Slice) :
    Except String Unit × Heap String :=
  if targetHashes.len = 0 then (.ok (), heap) -- nothing to check
  else
    let (hashes, heap) := unprefixedHashes heap targetHashes
    if hashStr ∈ hashes.contents heap then (.ok (), heap)
    else
      let (validHashes, valid) := ofType (hashes.contents heap)
      let was := "\n\t".intercalate validHashes
      if valid then (.ok (), heap)
      else if targetHashes.len = 1 then
        (.error ("Bad output hash for rule " ++ label.toStr ++ ", expected " ++
          (targetHashes.contents heap).headD "" ++ ", but was: \n\t" ++ was), heap)
      else
        (.error ("Bad output hash for rule " ++ label.toStr ++ ", expected one of: \n\t" ++
          "\n\t".intercalate (targetHashes.contents heap) ++ "\nbut was \n\t" ++ was), heap)

/-- The target with the slice as its field `Hashes`. -/
def HashedTarget.read (target : HashedTarget) (heap : Heap String)
    (hashes : Slice) : HashedTarget :=
  { target with hashes := hashes.contents heap }

/-- If there is a rule hash on the target, it is that of the target. If the build could modify the
target, it may be that of the target before it did. -/
def HashedTarget.MemoFits (state : BuildState) (target : HashedTarget) : Prop :=
  target.buildCouldModifyTarget = false →
    ∀ hash ∈ target.memo, hash = ruleHash state.sum state.hashState target.toBuildTarget

/-! ## What the check does to the hashes -/

theorem length_trimSpace_le (cs : List Char) : (trimSpace cs).length ≤ cs.length :=
  (List.rdropWhile_prefix _ _).length_le.trans (List.dropWhile_suffix _).length_le

/-- A hash is left as it is if and only if it has no colon. -/
theorem unprefixed_eq_self_iff {h : String} : unprefixed h = h ↔ ':' ∉ h.toList := by
  rw [unprefixed]
  split
  case isFalse hno => exact iff_of_true rfl hno
  case isTrue hcolon =>
    refine iff_of_false (fun heq => ?_) (not_not.mpr hcolon)
    have htrimmed : trimSpace (h.toList.rtakeWhile (· ≠ ':')) = h.toList := by
      rw [← String.toList_ofList (l := trimSpace _), heq]
    -- what is taken is as long as the hash, so that it is all of it and has no colon
    have hle := length_trimSpace_le (h.toList.rtakeWhile (· ≠ ':'))
    rw [htrimmed] at hle
    have hall := (List.rtakeWhile_suffix (· ≠ ':') h.toList).eq_of_length_le hle
    simpa using List.rtakeWhile_eq_self_iff.mp hall ':' hcolon

theorem contents_unprefixedHashes (heap : Heap String) (hashes : Slice) :
    hashes.contents (unprefixedHashes heap hashes).2 = (hashes.contents heap).map unprefixed :=
  hashes.contents_modifyEach unprefixed heap

variable (label : BuildLabel) (hashStr : String) (ofType : List String → List String × Bool)

theorem contents_checkRuleHashes (heap : Heap String) (hashes : Slice) :
    hashes.contents (checkRuleHashes label hashStr ofType heap hashes).2 =
      (hashes.contents heap).map unprefixed := by
  by_cases hlen : hashes.len = 0
  · rw [checkRuleHashes, if_pos hlen]
    simp [Slice.contents, hlen]
  · have hheap : (checkRuleHashes label hashStr ofType heap hashes).2 =
        (unprefixedHashes heap hashes).2 := by
      rw [checkRuleHashes, if_neg hlen]
      dsimp only
      split_ifs <;> rfl
    rw [hheap, contents_unprefixedHashes]

theorem map_unprefixed_eq_self_iff {hashes : List String} :
    hashes.map unprefixed = hashes ↔ ∀ h ∈ hashes, ':' ∉ h.toList := by
  rw [← forall₂_congr fun h _ => unprefixed_eq_self_iff]
  simpa using List.map_inj_left (l := hashes) (f := unprefixed) (g := id)

/-! ## What the check does to the rule hash -/

theorem HashedTarget.MemoFits.ruleHashOf {state : BuildState} {target : HashedTarget}
    (hfits : target.MemoFits state) :
    state.ruleHashOf target true = ruleHash state.sum state.hashState target.toBuildTarget := by
  rw [BuildState.ruleHashOf, Bool.true_and]
  split
  case isTrue => rfl
  case isFalse hmodify =>
    cases hmemo : target.memo with
    | none => rfl
    | some hash => exact hfits (Bool.eq_false_of_not_eq_true hmodify) hash hmemo

/-- Checking the hashes leaves them as they are, with the same rule hash and a record of the rule
hash that the next run computes, if and only if none of them has a prefix. -/
theorem checkRuleHashes_frame_iff (state : BuildState) (heap : Heap String) (hashes : Slice)
    (target next : HashedTarget) (hsame : next.toBuildTarget = target.toBuildTarget)
    (htarget : (target.read heap hashes).MemoFits state)
    (hnext : (next.read heap hashes).MemoFits state) :
    (hashes.contents (unprefixedHashes heap hashes).2 = hashes.contents heap ∧
      ruleHash state.sum state.hashState
          (target.read (checkRuleHashes label hashStr ofType heap hashes).2 hashes).toBuildTarget =
        ruleHash state.sum state.hashState (target.read heap hashes).toBuildTarget ∧
      ∀ record,
        state.recordedHash (target.read
          (checkRuleHashes label hashStr ofType heap hashes).2 hashes) =
          .ok record →
        record.part 1 = state.ruleHashOf (next.read heap hashes) true) ↔
      ∀ h ∈ hashes.contents heap, ':' ∉ h.toList := by
  rw [← map_unprefixed_eq_self_iff, ← contents_unprefixedHashes]
  refine ⟨And.left, fun hcontents => ?_⟩
  have hread : target.read (checkRuleHashes label hashStr ofType heap hashes).2 hashes =
      target.read heap hashes := by
    rw [HashedTarget.read, contents_checkRuleHashes, ← contents_unprefixedHashes, hcontents]
    rfl
  rw [hread]
  refine ⟨hcontents, rfl, fun record hrecord => ?_⟩
  calc record.part 1
      = state.ruleHashOf (target.read heap hashes) true :=
        (fits_recordedHash state _ hrecord true).rule
    _ = ruleHash state.sum state.hashState (target.read heap hashes).toBuildTarget :=
        htarget.ruleHashOf
    _ = ruleHash state.sum state.hashState (next.read heap hashes).toBuildTarget := by
        rw [HashedTarget.read, HashedTarget.read, hsame]
    _ = state.ruleHashOf (next.read heap hashes) true := hnext.ruleHashOf.symm

/-! ## Two lists of hashes -/

/-- `//pkg:lib` with an output and a post-build function. -/
def hashedLib : HashedTarget := { withPostBuild with outputs := ["lib.a"] }

/-- A slice of one hash. -/
def oneHash : Slice := { array := 0, offset := 0, len := 1, cap := 1 }

theorem checkRuleHashes_frame_iff_plain :
    oneHash.contents (unprefixedHashes [["abc"]] oneHash).2 = ["abc"] ∧
      plainState.ruleHashOf (hashedLib.read
          (checkRuleHashes hashedLib.label "abc" (·, false) [["abc"]] oneHash).2 oneHash) true =
        plainState.ruleHashOf (hashedLib.read [["abc"]] oneHash) true := by
  have hfits : (hashedLib.read [["abc"]] oneHash).MemoFits plainState :=
    fun h => absurd h (by decide)
  obtain ⟨hcontents, hrule, -⟩ := (checkRuleHashes_frame_iff hashedLib.label "abc" (·, false)
    plainState [["abc"]] oneHash hashedLib hashedLib rfl hfits hfits).mpr (by decide)
  exact ⟨hcontents, hrule⟩

/-- A hash with a prefix loses it when it is checked, also where the check succeeds. The rule hash
is another one then, and the target is rebuilt by the next run. -/
theorem checkRuleHashes_prefixed :
    (checkRuleHashes hashedLib.label "abc" (·, false) [["sha1: abc"]] oneHash).1.isOk = true ∧
      oneHash.contents (unprefixedHashes [["sha1: abc"]] oneHash).2 = ["abc"] ∧
      ruleHash plainState.sum plainState.hashState (hashedLib.read
          (checkRuleHashes hashedLib.label "abc" (·, false) [["sha1: abc"]] oneHash).2
          oneHash).toBuildTarget ≠
        ruleHash plainState.sum plainState.hashState
          (hashedLib.read [["sha1: abc"]] oneHash).toBuildTarget ∧
      ∃ attrs, writeRuleHash plainState (hashedLib.read
          (checkRuleHashes hashedLib.label "abc" (·, false) [["sha1: abc"]] oneHash).2 oneHash)
          noAttrs = some attrs ∧
        needsBuilding plainState (hashedLib.read [["sha1: abc"]] oneHash) attrs true = true := by
  refine ⟨by decide, by decide, by decide, _, rfl, ?_⟩
  decide

end Please.Build
