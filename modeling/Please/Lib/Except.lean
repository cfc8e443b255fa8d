import Mathlib.Data.List.Forall2

/-!
# Computations that may fail

How a sequence of computations in `Except` is taken apart, and the results of a computation in
`Option` for each element of a list.

`Ends E Q x`: the computation `x` ends in a value that satisfies `Q` or in an error that satisfies
`E`. It composes along `>>=`.
-/

namespace Please.Lib.Except

open List

variable {ε α β : Type} {f : α → Except ε β} {x : Except ε α}

theorem bind_eq_ok {b : β} : x >>= f = .ok b ↔ ∃ a, x = .ok a ∧ f a = .ok b := by
  cases x with
  | error e | ok a => simp [Bind.bind, Except.bind]

theorem map_eq_ok {f : α → β} {b : β} : f <$> x = .ok b ↔ ∃ a, x = .ok a ∧ f a = b := by
  cases x with
  | error e | ok a => simp [Functor.map, Except.map]

@[simp]
theorem ok_bind (a : α) (f : α → Except ε β) : (Except.ok a >>= f) = f a := rfl

@[simp]
theorem error_bind (e : ε) (f : α → Except ε β) : (Except.error e >>= f) = .error e := rfl

theorem exists_ok_of_isSome (h : x.toOption.isSome = true) : ∃ a, x = .ok a := by
  cases x with
  | error => cases h
  | ok a => exact ⟨a, rfl⟩

variable {xs : List α} {ys : List β}

theorem mapM_eq_ok : xs.mapM f = .ok ys ↔ List.Forall₂ (fun x y => f x = .ok y) xs ys := by
  induction xs generalizing ys with
  | nil =>
    rw [mapM_nil, forall₂_nil_left_iff]
    exact ⟨fun h => (Except.ok.inj h).symm, fun h => congrArg _ h.symm⟩
  | cons x xs ih =>
    rw [mapM_cons, forall₂_cons_left_iff, bind_eq_ok]
    constructor
    · rintro ⟨y, hy, h⟩
      obtain ⟨ys', hys', hys⟩ := bind_eq_ok.mp h
      exact ⟨y, ys', hy, ih.mp hys', (Except.ok.inj hys).symm⟩
    · rintro ⟨y, ys', hy, hys', rfl⟩
      exact ⟨y, hy, bind_eq_ok.mpr ⟨ys', ih.mpr hys', rfl⟩⟩

/-! ## How a computation ends -/

/-- The computation ends in a value that satisfies `Q`, or in an error that satisfies `E`. -/
def Ends (E : ε → Prop) (Q : α → Prop) : Except ε α → Prop
  | .ok a => Q a
  | .error e => E e

variable {E : ε → Prop} {Q Q' : α → Prop} {R : β → Prop} {x : Except ε α}

theorem Ends.mono (h : Ends E Q x) (hQ : ∀ a, Q a → Q' a) : Ends E Q' x := by
  cases x with
  | error => exact h
  | ok a => exact hQ a h

theorem Ends.bind (h : Ends E Q x) (hf : ∀ a, Q a → Ends E R (f a)) : Ends E R (x >>= f) := by
  cases x with
  | error => exact h
  | ok a => exact hf a h

theorem Ends.map {f : α → β} (h : Ends E Q x) (hf : ∀ a, Q a → R (f a)) : Ends E R (f <$> x) := by
  cases x with
  | error => exact h
  | ok a => exact hf a h

/-! ## Lists -/

variable {f : α → Option β}

theorem mapM_eq_some : xs.mapM f = some ys ↔ xs.map f = ys.map some := by
  induction xs generalizing ys with
  | nil => cases ys <;> simp
  | cons x xs ih =>
    rw [mapM_cons, map_cons]
    cases hx : f x with
    | none => cases ys <;> simp
    | some =>
      cases hxs : xs.mapM f with
      | none =>
        have hne (zs : List β) : xs.map f ≠ zs.map some := fun h => by
          simpa [hxs] using ih.mpr h
        cases ys <;> simp [hne]
      | some =>
        have hzs := ih.mp hxs
        cases ys with
        | nil => simp
        | cons => simp [hzs, map_inj_right (fun _ _ => Option.some.inj)]

theorem exists_mapM_eq_some (h : ∀ x ∈ xs, ∃ y, f x = some y) : ∃ ys, xs.mapM f = some ys := by
  induction xs with
  | nil => exact ⟨[], rfl⟩
  | cons x xs ih =>
    obtain ⟨y, hy⟩ := h x mem_cons_self
    obtain ⟨ys, hys⟩ := ih fun x' hx' => h x' (mem_cons_of_mem _ hx')
    exact ⟨y :: ys, by simp [hy, hys]⟩

/-- The results are the results of the elements. -/
theorem mem_of_mapM_eq_some (h : xs.mapM f = some ys) {y : β} :
    y ∈ ys ↔ ∃ x ∈ xs, f x = some y := by
  have hmem : y ∈ ys ↔ some y ∈ ys.map some := by simp
  rw [hmem, ← mapM_eq_some.mp h, mem_map]

theorem mem_flatten_of_mapM_eq_some {f : α → Option (List β)} {ys : List (List β)}
    (h : xs.mapM f = some ys) {y : β} :
    y ∈ ys.flatten ↔ ∃ x ∈ xs, ∃ r, f x = some r ∧ y ∈ r := by
  simp only [mem_flatten, mem_of_mapM_eq_some h]
  constructor
  · rintro ⟨r, ⟨x, hx, hr⟩, hy⟩
    exact ⟨x, hx, r, hr, hy⟩
  · rintro ⟨x, hx, r, hr, hy⟩
    exact ⟨r, ⟨x, hx, hr⟩, hy⟩

variable {σ : Type*} {f : σ → α → Option σ}

theorem rel_bind_some {τ ρ : Type*} {R : σ → τ → Prop} {S : ρ → τ → Prop} {g : σ → ρ} {o : Option σ}
    {o' : Option τ} (h : Option.Rel R o o') (hg : ∀ s t, R s t → S (g s) t) :
    Option.Rel S (o.bind fun s => some (g s)) o' := by
  cases h with
  | none => exact .none
  | some h => exact .some (hg _ _ h)

/-- Two folds that may fail go along with each other, if their steps do. -/
theorem rel_foldlM {τ : Type*} {R : σ → τ → Prop} {g : τ → α → Option τ}
    (hf : ∀ x ∈ xs, ∀ s t, R s t → Option.Rel R (f s x) (g t x)) {s : σ} {t : τ} (h : R s t) :
    Option.Rel R (xs.foldlM f s) (xs.foldlM g t) := by
  induction xs generalizing s t with
  | nil => exact .some h
  | cons x xs ih =>
    have hx := hf x mem_cons_self s t h
    rw [foldlM_cons, foldlM_cons]
    generalize f s x = o, g t x = o' at hx
    cases hx with
    | none => exact .none
    | some h => exact ih (forall_mem_cons.mp hf).2 h

theorem foldlM_flatMap {next : β → List α} {ys : List β} {s : σ} :
    (ys.flatMap next).foldlM f s = ys.foldlM (fun s y => (next y).foldlM f s) s := by
  induction ys generalizing s with
  | nil => rfl
  | cons y ys ih =>
    rw [flatMap_cons, foldlM_append, foldlM_cons]
    exact congrArg _ (funext fun s => ih)

/-- It does not matter when it is seen that an element is missing. -/
theorem foldlM_bind {os : List (Option α)} {s : σ} :
    os.foldlM (fun s o => o.bind (f s)) s = (os.mapM id).bind fun xs => xs.foldlM f s := by
  induction os generalizing s with
  | nil => rfl
  | cons o os ih =>
    rw [foldlM_cons, mapM_cons]
    cases o with
    | none => rfl
    | some x =>
      simp only [ih, Option.bind_some, id_eq, Option.bind_eq_bind]
      cases hos : os.mapM id <;> cases hx : f s x <;> simp [hx, foldlM_cons]

/-- A fold that may fail does not, and goes along with another fold, if each step goes along with
the steps for some elements. -/
theorem exists_foldlM_eq_some {τ : Type*} {R : σ → τ → Prop} {g : τ → β → τ} {next : α → List β}
    (hf : ∀ x ∈ xs, ∀ s t, R s t → ∃ s', f s x = some s' ∧ R s' ((next x).foldl g t)) {s : σ}
    {t : τ} (h : R s t) :
    ∃ s', xs.foldlM f s = some s' ∧ R s' ((xs.flatMap next).foldl g t) := by
  induction xs generalizing s t with
  | nil => exact ⟨s, rfl, h⟩
  | cons x xs ih =>
    obtain ⟨s₁, hs₁, h₁⟩ := hf x mem_cons_self s t h
    obtain ⟨s₂, hs₂, h₂⟩ := ih (forall_mem_cons.mp hf).2 h₁
    refine ⟨s₂, ?_, ?_⟩
    · rw [foldlM_cons, hs₁]
      exact hs₂
    · rw [flatMap_cons, foldl_append]
      exact h₂

theorem exists_foldlM_eq_foldl {τ : Type*} {R : σ → τ → Prop} {g : τ → α → τ}
    (hf : ∀ x ∈ xs, ∀ s t, R s t → ∃ s', f s x = some s' ∧ R s' (g t x)) {s : σ} {t : τ}
      (h : R s t) :
    ∃ s', xs.foldlM f s = some s' ∧ R s' (xs.foldl g t) := by
  have hfold : ∃ s', xs.foldlM f s = some s' ∧ R s' ((xs.flatMap fun x => [x]).foldl g t) :=
    exists_foldlM_eq_some hf h
  rwa [flatMap_singleton'] at hfold

/-- A fold that may fail does not, if each step keeps a property under which it does not. -/
theorem exists_foldlM_of_forall {I : σ → Prop}
    (hf : ∀ x ∈ xs, ∀ s, I s → ∃ s', f s x = some s' ∧ I s') {s : σ} (h : I s) :
    ∃ s', xs.foldlM f s = some s' ∧ I s' :=
  exists_foldlM_eq_foldl (R := fun s (_ : Unit) => I s) (g := fun u _ => u)
    (fun x hx s _ h => hf x hx s h) (t := ()) h

/-- A fold that may fail does not, if no step does. -/
theorem exists_foldlM_of_total (hf : ∀ x ∈ xs, ∀ s, ∃ s', f s x = some s') (s : σ) :
    ∃ s', xs.foldlM f s = some s' := by
  obtain ⟨s', hs', -⟩ := exists_foldlM_of_forall (I := fun _ : σ => True)
    (fun x hx s _ => (hf x hx s).imp fun _ h => ⟨h, trivial⟩) (s := s) trivial
  exact ⟨s', hs'⟩

/-- A fold that has a result: a property of the state that every step keeps, and what every step
shows. -/
theorem foldlM_eq_some_spec {I : σ → Prop}
    (hf : ∀ x ∈ xs, ∀ s s', I s → f s x = some s' → I s' ∧ Q x) {s s' : σ} (hs : I s)
    (h : xs.foldlM f s = some s') : I s' ∧ ∀ x ∈ xs, Q x := by
  induction xs generalizing s with
  | nil =>
    obtain rfl := Option.some.inj h
    exact ⟨hs, by simp⟩
  | cons x xs ih =>
    obtain ⟨s₁, hs₁, hrest⟩ := Option.bind_eq_some_iff.mp h
    obtain ⟨h₁, hx⟩ := hf x mem_cons_self s s₁ hs hs₁
    obtain ⟨h₂, hxs⟩ := ih (forall_mem_cons.mp hf).2 h₁ hrest
    exact ⟨h₂, forall_mem_cons.mpr ⟨hx, hxs⟩⟩

/-- A fold that has a result: every step goes along a reflexive and transitive relation, along which
what the steps show stays. -/
theorem foldlM_eq_some_rel {R : σ → σ → Prop} {P : α → σ → Prop} (hrefl : ∀ s, R s s)
    (htrans : ∀ {s s₁ s'}, R s s₁ → R s₁ s' → R s s') (hmono : ∀ {x s s'}, R s s' → P x s → P x s')
    (hf : ∀ x ∈ xs, ∀ s s', f s x = some s' → R s s' ∧ P x s') {s s' : σ}
    (h : xs.foldlM f s = some s') : R s s' ∧ ∀ x ∈ xs, P x s' := by
  induction xs generalizing s with
  | nil =>
    obtain rfl := Option.some.inj h
    exact ⟨hrefl s, by simp⟩
  | cons x xs ih =>
    obtain ⟨s₁, hs₁, hrest⟩ := Option.bind_eq_some_iff.mp h
    obtain ⟨h₁, hx⟩ := hf x mem_cons_self s s₁ hs₁
    obtain ⟨h₂, hxs⟩ := ih (forall_mem_cons.mp hf).2 hrest
    exact ⟨htrans h₁ h₂, forall_mem_cons.mpr ⟨hmono h₂ hx, hxs⟩⟩

end Please.Lib.Except
