import Please.Core.LabelOrder
import Please.Lib.Except
import Please.Lib.Reach

/-!
# Transitive subincludes

Model of `TransitiveSubincludes` and `RegisterTransitiveSubinclude` (`src/core/graph.go`, lines
186–219). Sets of labels are Go maps, whose elements come in any order when they are gone through.

* `transitiveSubincludes_exact`: it ends, and gives the closure, sorted and without duplicates.
-/

namespace Please.Core

open Please.Core.BuildGraph (labelLe)
open Please.Lib.Except
open Please.Lib.Reach List

/-! ## The model -/

/-- `subincludeSubincludes`: the set for each label; there is none for a label that is not a key. -/
abbrev SubincludeMap := BuildLabel → List BuildLabel

/-- `RegisterTransitiveSubinclude` (lines 209–219). -/
def registerTransitiveSubinclude (m : SubincludeMap) (call : BuildLabel × BuildLabel) :
    SubincludeMap :=
  fun l => if l = call.1 then if call.2 ∈ m l then m l else m l ++ [call.2] else m l

/-- The map after a sequence of calls. -/
def registerAll (calls : List (BuildLabel × BuildLabel)) : SubincludeMap :=
  calls.foldl registerTransitiveSubinclude fun _ => []

/-- `findTransitiveSubincludes` (lines 199–207), with calls nested at most `fuel` deep. A set is
gone through in the order that `order` gives. -/
def findTransitiveSubincludes (order : SubincludeMap) :
    ℕ → List BuildLabel → BuildLabel → Option (List BuildLabel)
  | 0, _, _ => none
  | fuel + 1, includes, label =>
    if label ∈ includes then some includes
    else (order label).foldlM (findTransitiveSubincludes order fuel) (label :: includes)

/-- `TransitiveSubincludes` (lines 187–197); `keys` is the order in which the set that was found is
collected. -/
def transitiveSubincludes (order : SubincludeMap) (keys : List BuildLabel → List BuildLabel)
    (fuel : ℕ) (l : BuildLabel) : Option (List BuildLabel) :=
  (findTransitiveSubincludes order fuel [] l).map fun incs => (keys incs).insertionSort labelLe

/-! ## What is registered -/

theorem mem_foldl_register {calls : List (BuildLabel × BuildLabel)} {m : SubincludeMap}
    {l l' : BuildLabel} :
    l' ∈ calls.foldl registerTransitiveSubinclude m l ↔ l' ∈ m l ∨ (l, l') ∈ calls := by
  induction calls generalizing m with
  | nil => simp
  | cons call _ ih =>
    have hstep : l' ∈ registerTransitiveSubinclude m call l ↔ l' ∈ m l ∨ (l, l') = call := by
      rw [registerTransitiveSubinclude, Prod.ext_iff]
      split
      case isTrue hl =>
        split
        case isTrue hmem =>
          exact ⟨.inl, fun h => h.elim id fun h => (congrArg (· ∈ m l) h.2).mpr hmem⟩
        case isFalse => simp [hl]
      case isFalse hl => simp [hl]
    rw [foldl_cons, ih, hstep, mem_cons, or_assoc]

/-! ## The search -/

/-- With a bound above the number of labels without a mark, the search ends with the marks. -/
theorem findTransitiveSubincludes_eq_visit {order : SubincludeMap} {u : Finset BuildLabel}
    (hu : Closed order (u : Set BuildLabel)) {fuel : ℕ} {includes : List BuildLabel}
    {l : BuildLabel} (hl : l ∈ u) (hfuel : unmarked u includes < fuel) :
    findTransitiveSubincludes order fuel includes l = some (visit order fuel includes l) := by
  induction fuel generalizing includes l with
  | zero => omega
  | succ fuel ih =>
    rw [findTransitiveSubincludes, visit]
    split
    case isTrue => rfl
    case isFalse hnew =>
      have hlt := unmarked_cons_lt hl hnew
      -- marks are kept, so that the bound stays enough
      let R (s t : List BuildLabel) : Prop := s = t ∧ unmarked u s < fuel
      have hstep : ∀ l' ∈ order l, ∀ s t, R s t →
          ∃ s', findTransitiveSubincludes order fuel s l' = some s' ∧
            R s' (visit order fuel t l') := by
        rintro l' hl' s _ ⟨rfl, hs⟩
        have hl' : l' ∈ u := hu l hl l' hl'
        exact ⟨_, ih hl' hs, rfl, (unmarked_le (marks_visit hu hl' hs.le).kept).trans_lt hs⟩
      obtain ⟨s, hs, rfl, -⟩ := exists_foldlM_eq_foldl hstep (s := l :: includes) ⟨rfl, by omega⟩
      exact hs

/-- For every sequence of registrations, every order in which sets are gone through and every label:
from some bound on the search ends, with exactly what the label leads to, sorted and once each. -/
theorem transitiveSubincludes_exact (calls : List (BuildLabel × BuildLabel)) (order : SubincludeMap)
    (horder : ∀ l, (order l).Perm (registerAll calls l)) (keys : List BuildLabel → List BuildLabel)
    (hkeys : ∀ ls, (keys ls).Perm ls) (l : BuildLabel) :
    ∃ n, ∀ fuel, n ≤ fuel → ∃ ls, transitiveSubincludes order keys fuel l = some ls ∧
      ls.Pairwise (fun a b => a.less b = true) ∧
      ∀ l', l' ∈ ls ↔ Relation.ReflTransGen (fun a b => (a, b) ∈ calls) l l' := by
  have hmem {a b : BuildLabel} : b ∈ order a ↔ (a, b) ∈ calls :=
    (horder a).mem_iff.trans (by rw [registerAll, mem_foldl_register, or_iff_right not_mem_nil])
  let u : Finset BuildLabel := insert l (calls.map Prod.snd).toFinset
  have hl : l ∈ u := Finset.mem_insert_self l _
  have hu : Closed order (u : Set BuildLabel) := by
    intro a _ b hb
    refine Finset.mem_coe.mpr (Finset.mem_insert_of_mem (mem_toFinset.mpr ?_))
    exact mem_map.mpr ⟨(a, b), hmem.mp hb, rfl⟩
  refine ⟨u.card + 1, fun fuel hfuel => ?_⟩
  have hbound : unmarked u [] < fuel := (Finset.card_le_card Finset.sdiff_subset).trans_lt hfuel
  rw [transitiveSubincludes, findTransitiveSubincludes_eq_visit hu hl hbound]
  refine ⟨_, rfl, ?_, ?_⟩
  · exact BuildLabel.pairwise_less_insertionSort
      ((hkeys _).nodup_iff.mpr (nodup_visit nodup_nil))
  · intro l'
    have hvisit : l' ∈ visitAll order fuel [] [l] ↔ l' ∈ [] ∨ ∃ a ∈ [l], Reaches order a l' :=
      mem_visitAll hu (by simpa using hl) (by omega) (forall_mem_nil _)
    rw [mem_insertionSort, (hkeys _).mem_iff]
    refine hvisit.trans ?_
    have hedge : Edge order = fun a b => (a, b) ∈ calls := by
      ext a b
      exact hmem
    simp [Reaches, hedge]

theorem transitiveSubincludes_selfEdge :
    ∃ n, ∀ fuel, n ≤ fuel → ∃ ls,
      transitiveSubincludes (registerAll [(⟨"p", "a", ""⟩, ⟨"p", "a", ""⟩)]) id fuel
        ⟨"p", "a", ""⟩ =
        some ls ∧ ls.Pairwise (fun a b => a.less b = true) ∧
      ∀ l', l' ∈ ls ↔ Relation.ReflTransGen
        (fun a b => (a, b) ∈ [((⟨"p", "a", ""⟩ : BuildLabel), (⟨"p", "a", ""⟩ : BuildLabel))])
        ⟨"p", "a", ""⟩ l' :=
  transitiveSubincludes_exact _ _ (fun _ => .refl _) id (fun _ => .refl _) _

end Please.Core
