import Please.Asp.StringLiterals
import Please.Asp.JoinOptimisation

/-!
# Adjacent string literals

`parseValueExpression` on a sequence of string literals (`src/parse/asp/grammar_parse.go`, lines
431–522): the literals are concatenated from the right, two syntax nodes at a time, and what follows
the last one is attached to its node only. `concatStrings` returns one of the two nodes, and only an
f-string with a variable on the right keeps what is attached there.

* `joinsAdjacent_iff`: when the concatenation has the value of the literals one after the
  other, with what follows applied to the whole.
-/

namespace Please.Asp.Interp

open Please.Fs (Bytes)
open Please.Build (utf8)
open Please.Lib Interp
open Please.Asp.Syntax List

/-! ## Literals -/

/-- What may follow a value. -/
structure Trailers where
  slices : Node Ann (.listOf .slice)
  property : Node Ann (.optional .identExpr)
  call : Node Ann (.optional .call)

/-- Nothing follows. -/
def Trailers.none : Trailers := ⟨.nil, .absent, .absent⟩

/-- A literal with what follows it. -/
def Trailers.on (t : Trailers) (literal : Node Ann .literal) : Node Ann .valueExpression :=
  .valueExpression literal t.slices t.property t.call

variable {literal : Node Ann .literal}

theorem Trailers.eq_of_on_eq {t t' : Trailers} {literal' : Node Ann .literal}
    (h : t.on literal = t'.on literal') : t = t' := by
  obtain ⟨slices', property', call'⟩ := t'
  cases h
  rfl

/-- A string literal; a plain one has its quotes. -/
def IsString : Node Ann .literal → Prop
  | .string s => 2 ≤ s.length
  | .fString _ => True
  | _ => False

def isPlain : Node Ann .literal → Bool
  | .string _ => true
  | _ => false

def hasVar : Node Ann .literal → Bool
  | .fString f => f.vars ≠ []
  | _ => false

/-- The concatenation of literals, from the right. -/
def concatAll (t : Trailers) : List (Node Ann .literal) → Except Error (Node Ann .valueExpression)
  | [] => .error .outOfRange
  | [literal] => .ok (t.on literal)
  | literal :: literals => do
    let rhs ← concatAll t literals
    concatStrings (Trailers.none.on literal) rhs

/-- No plain literal stands before f-strings that have no variable. -/
def Concatenable : List (Node Ann .literal) → Prop
  | [] => True
  | literal :: literals =>
    (isPlain literal → literals.all isPlain ∨ literals.any hasVar) ∧ Concatenable literals

/-- What follows stays with the whole: there is one literal, or the last one has a variable. -/
def KeepsTrailers (literals : List (Node Ann .literal)) : Prop :=
  literals.length = 1 ∨ ∃ literal ∈ literals.getLast?, hasVar literal

/-! ## Values -/

section values

variable {H : Type} (R : Runtime H) (N : Natives H) (s : ℕ)

/-- The text of a variable in a store. -/
def varText (st : Store H) (v : FStringVar) : Except Bytes Bytes :=
  match v.var with
  | [] => .error (utf8 "runtime error: index out of range")
  | name :: keys => do
    let obj ← st.lookup s name
    let obj ← keys.foldlM (fun obj key => property R obj key st) obj
    R.toStr st obj

/-- The text of a literal in a store. -/
def literalText (st : Store H) : Node Ann .literal → Except Bytes Bytes
  | .string t => .ok (stringLiteral t)
  | .fString f => do
    let texts ← f.vars.mapM (varText R s st)
    pure (insertTexts f texts)
  | _ => .error (utf8 "not a string")

/-- The value of a string. -/
def textOf : Obj → Except Bytes Bytes
  | .str t => .ok t
  | _ => .error (utf8 "not a string")

/-- The values of the literals, one after the other. -/
def concatLiterals (literals : List (Node Ann .literal)) : P H Bytes :=
  literals.foldlM (fun b literal => do
    let obj ← interpretValueExpression R N (denote R N (Trailers.none.on literal)) s
    let t ← readOr fun _ => textOf obj
    pure (b ++ t)) []

/-- What follows a value, as `interpretValueExpression` applies it (lines 805–819). -/
def interpretTrailers (t : Trailers) (obj : Obj) : P H Obj := do
  let slices : List (SliceDen H) := denote R N t.slices
  let obj ← slices.foldlM (interpretSuffix R s) obj
  let ident : Option (IdentDen H) := denote R N t.property
  let call : Option (Args H) := denote R N t.call
  match ident, call with
  | some ident, _ => do
    let obj ← readOr (property R obj ident.name)
    interpretIdent ident s obj
  | none, some args => callObject N [] obj s args
  | none, none => pure obj

end values

variable {H : Type} {R : Runtime H} {N : Natives H} {s : ℕ} {st : Store H}

theorem interpretValueExpression_on (t : Trailers) (literal : Node Ann .literal) :
    interpretValueExpression R N (denote R N (t.on literal)) s =
      interpretLiteral R (denote R N literal) s >>= interpretTrailers R N s t := rfl

theorem evaluates_stringVar (v : FStringVar) :
    Evaluates st (stringVar R s v) (varText R s st v) := by
  obtain ⟨before, var⟩ := v
  cases var with
  | nil => exact fun _ _ => rfl
  | cons name keys =>
    refine (evaluates_readOr (fun st => st.lookup s name) st).seq fun obj => ?_
    refine (Evaluates.foldlM (fun obj key => evaluates_readOr (property R obj key) st) keys obj).seq
      fun obj => ?_
    exact evaluates_readOr _ st

theorem evaluates_forM_error {vars : List FStringVar} {e : Bytes}
    (h : vars.mapM (varText R s st) = .error e) :
    Evaluates st (vars.forM fun v => do
      let _ ← stringVar R s v
      pure ()) (.error e) := by
  induction vars with
  | nil => cases h
  | cons v vars ih =>
    have hv : Evaluates st (do
        let _ ← stringVar R s v
        pure ()) ((varText R s st v).map fun _ => ()) := (evaluates_stringVar v).map fun _ => ()
    rw [mapM_cons] at h
    cases htext : varText R s st v with
    | error =>
      rw [htext] at h hv
      cases h
      exact hv.bind_error
    | ok =>
      rw [htext] at h hv
      refine hv.bind (ih ?_)
      cases hrest : vars.mapM (varText R s st) with
      | error =>
        rw [hrest] at h
        exact h
      | ok =>
        rw [hrest] at h
        cases h

theorem evaluates_fString (f : FString) :
    Evaluates st (interpretFString R f s)
      ((f.vars.mapM (varText R s st)).map fun texts => .str (insertTexts f texts)) := by
  cases h : f.vars.mapM (varText R s st) with
  | ok =>
    refine evaluates_interpretFString ((Except.mapM_eq_ok.mp h).imp fun v text hv => ?_)
    exact hv ▸ evaluates_stringVar v
  | error => exact (evaluates_forM_error h).bind_error

theorem evaluates_literal (hl : IsString literal) :
    Evaluates st (interpretLiteral R (denote R N literal) s)
      ((literalText R s st literal).map .str) := by
  cases literal with
  | string => exact .pure _ st
  | fString f =>
    have h : Evaluates st (interpretFString R f s) _ := evaluates_fString f
    rw [literalText]
    cases hm : f.vars.mapM (varText R s st) <;> rw [hm] at h <;> exact h
  | _ => exact hl.elim

/-! ## Two literals -/

/-- One text after the other. -/
def appendText (x y : Except Bytes Bytes) : Except Bytes Bytes := do
  let a ← x
  let b ← y
  pure (a ++ b)

theorem literalText_suffix (R : Runtime H) (s : ℕ) (st : Store H) (f : FString) (t : Bytes) :
    literalText R s st (.fString { f with suffix := f.suffix ++ t }) =
      appendText (literalText R s st (.fString f)) (.ok t) := by
  simp only [literalText, appendText]
  cases f.vars.mapM (varText R s st) with
  | error => rfl
  | ok => simp [insertTexts]

/-- Text before the first variable. -/
theorem literalText_before (R : Runtime H) (s : ℕ) (st : Store H) (v : FStringVar)
    (vars : List FStringVar) (suffix t : Bytes) :
    literalText R s st (.fString ⟨{ v with before := t ++ v.before } :: vars, suffix⟩) =
      appendText (.ok t) (literalText R s st (.fString ⟨v :: vars, suffix⟩)) := by
  have hv : varText R s st { v with before := t ++ v.before } = varText R s st v := rfl
  simp only [literalText, appendText, mapM_cons, hv]
  cases varText R s st v with
  | error => rfl
  | ok =>
    cases vars.mapM (varText R s st) with
    | error => rfl
    | ok => simp [insertTexts]

/-- Two f-strings; the text after the variables of the first stands before those of the second. -/
theorem literalText_append (R : Runtime H) (s : ℕ) (st : Store H) (l r : FString)
    (hsuffix : l.suffix = []) :
    literalText R s st (.fString ⟨l.vars ++ r.vars, r.suffix⟩) =
      appendText (literalText R s st (.fString l)) (literalText R s st (.fString r)) := by
  simp only [literalText, appendText, mapM_append]
  cases hl : l.vars.mapM (varText R s st) with
  | error => rfl
  | ok texts =>
    have hlen : l.vars.length = texts.length := (Except.mapM_eq_ok.mp hl).length_eq
    cases r.vars.mapM (varText R s st) with
    | error => rfl
    | ok => simp [insertTexts, zipWith_append hlen, hsuffix]

theorem appendText_assoc (x y z : Except Bytes Bytes) :
    appendText (appendText x y) z = appendText x (appendText y z) := by
  cases x <;> cases y <;> cases z <;> simp [appendText]

theorem literalText_fString_fString (R : Runtime H) (s : ℕ) (st : Store H) (l : FString)
    (v : FStringVar) (vars : List FStringVar) (suffix : Bytes) :
    literalText R s st
        (.fString ⟨l.vars ++ { v with before := l.suffix ++ v.before } :: vars, suffix⟩) =
      appendText (literalText R s st (.fString l))
        (literalText R s st (.fString ⟨v :: vars, suffix⟩)) := by
  have hl := literalText_suffix R s st ⟨l.vars, []⟩ l.suffix
  have hlr := literalText_append R s st ⟨l.vars, []⟩
    ⟨{ v with before := l.suffix ++ v.before } :: vars, suffix⟩ rfl
  rw [literalText_before, ← appendText_assoc, ← hl] at hlr
  exact hlr

/-- A node that has the two literals one after the other. -/
structure IsConcat (left right result : Node Ann .literal) : Prop where
  isString : IsString result
  isPlain : isPlain result = (isPlain left && isPlain right)
  hasVar : hasVar result = (hasVar left || hasVar right)
  text {H : Type} (R : Runtime H) (s : ℕ) (st : Store H) :
    literalText R s st result = appendText (literalText R s st left) (literalText R s st right)

theorem unquote_eq {t : Bytes} (ht : 2 ≤ t.length) : unquote t = .ok (stringLiteral t) := by
  rw [unquote, if_neg (by omega), stringLiteral, drop_one]

/-- A plain literal before an f-string that has no variable is out of range. -/
theorem concatStrings_error {left right : Node Ann .literal} (hr : IsString right)
    (hleft : isPlain left = true) (hplain : isPlain right = false) (hvar : hasVar right = false)
    (t : Trailers) :
    concatStrings (Trailers.none.on left) (t.on right) = .error .outOfRange := by
  cases left with
  | string =>
    cases right with
    | string => cases hplain
    | fString r =>
      obtain ⟨vars, suffix⟩ := r
      obtain rfl : vars = [] := by simpa [hasVar] using hvar
      rfl
    | _ => exact hr.elim
  | _ => cases hleft

/-- Other literals are concatenated; only a variable on the right keeps what follows. -/
theorem concatStrings_ok {left right : Node Ann .literal} (hl : IsString left) (hr : IsString right)
    (h : isPlain left = true → isPlain right = true ∨ hasVar right = true) (t : Trailers) :
    ∃ result, IsConcat left right result ∧
      concatStrings (Trailers.none.on left) (t.on right) =
        .ok ((if hasVar right then t else Trailers.none).on result) := by
  cases left with
  | string u =>
    cases right with
    | string u' =>
      refine ⟨.string (byte '"' :: stringLiteral u ++ stringLiteral u' ++ [byte '"']),
        ⟨?_, rfl, rfl, fun R s st => ?_⟩, ?_⟩
      · show 2 ≤ length _
        simp only [length_append, length_cons, length_nil]
        omega
      · simp [literalText, appendText, stringLiteral]
      · simp only [concatStrings, Trailers.on, unquote_eq hl, unquote_eq hr]
        rfl
    | fString r =>
      obtain ⟨vars, suffix⟩ := r
      cases vars with
      | nil => cases h rfl <;> contradiction
      | cons v vars =>
        refine ⟨.fString ⟨{ v with before := stringLiteral u ++ v.before } :: vars, suffix⟩,
          ⟨trivial, rfl, rfl, fun R s st => literalText_before R s st v vars suffix _⟩, ?_⟩
        simp only [concatStrings, Trailers.on, unquote_eq hl]
        rfl
    | _ => exact hr.elim
  | fString l =>
    cases right with
    | string u' =>
      refine ⟨.fString { l with suffix := l.suffix ++ stringLiteral u' },
        ⟨trivial, rfl, (Bool.or_false _).symm, fun R s st => literalText_suffix R s st l _⟩, ?_⟩
      simp only [concatStrings, Trailers.on, unquote_eq hr]
      rfl
    | fString r =>
      obtain ⟨vars, suffix⟩ := r
      cases vars with
      | nil =>
        exact ⟨.fString { l with suffix := l.suffix ++ suffix },
          ⟨trivial, rfl, (Bool.or_false _).symm, fun R s st =>
            literalText_suffix R s st l suffix⟩, rfl⟩
      | cons v vars =>
        refine ⟨.fString ⟨l.vars ++ { v with before := l.suffix ++ v.before } :: vars, suffix⟩,
          ⟨trivial, rfl, ?_, fun R s st => literalText_fString_fString R s st l v vars suffix⟩, rfl⟩
        simp [hasVar]
    | _ => exact hr.elim
  | _ => exact hl.elim

/-! ## Sequences of literals -/

/-- The texts of the literals, one after the other. -/
def textAll (R : Runtime H) (s : ℕ) (st : Store H) (literals : List (Node Ann .literal)) :
    Except Bytes Bytes :=
  literals.foldr (fun literal => appendText (literalText R s st literal)) (.ok [])

/-- A node that has all the literals one after the other. -/
structure IsConcatAll (literals : List (Node Ann .literal))
    (result : Node Ann .literal) : Prop where
  isString : IsString result
  isPlain : isPlain result = literals.all isPlain
  hasVar : hasVar result = literals.any hasVar
  text {H : Type} (R : Runtime H) (s : ℕ) (st : Store H) :
    literalText R s st result = textAll R s st literals

theorem isConcatAll_singleton (hl : IsString literal) : IsConcatAll [literal] literal where
  isString := hl
  isPlain := (Bool.and_true _).symm
  hasVar := (Bool.or_false _).symm
  text R s st := by
    simp only [textAll, foldr_cons, foldr_nil, appendText]
    cases literalText R s st literal <;> simp

variable {literals : List (Node Ann .literal)}

theorem IsConcat.cons {right result : Node Ann .literal} (h : IsConcat literal right result)
    (hr : IsConcatAll literals right) :
    IsConcatAll (literal :: literals) result where
  isString := h.isString
  isPlain := by rw [h.isPlain, hr.isPlain, all_cons]
  hasVar := by rw [h.hasVar, hr.hasVar, any_cons]
  text R s st := by rw [h.text, hr.text, textAll, textAll, foldr_cons]

theorem keepsTrailers_cons (literal next : Node Ann .literal)
    (literals : List (Node Ann .literal)) :
    KeepsTrailers (literal :: next :: literals) ↔
      (next :: literals).any hasVar = true ∧ KeepsTrailers (next :: literals) := by
  have hlast : (literal :: next :: literals).getLast? = (next :: literals).getLast? :=
    getLast?_cons_cons
  unfold KeepsTrailers
  constructor
  · rintro (h | ⟨l, hl, hvar⟩)
    · simp at h
    · exact ⟨any_eq_true.mpr ⟨l, mem_of_getLast? hl, hvar⟩, .inr ⟨l, hl, hvar⟩⟩
  · rintro ⟨hany, h | h⟩
    · obtain rfl : literals = [] := by simpa using h
      exact .inr ⟨next, rfl, by simpa using hany⟩
    · exact .inr h

theorem concatAll_cons (t : Trailers) (literal next : Node Ann .literal)
    (literals : List (Node Ann .literal)) :
    concatAll t (literal :: next :: literals) =
      concatAll t (next :: literals) >>= concatStrings (Trailers.none.on literal) := by
  rw [concatAll]
  simp

/-- Literals that can be concatenated; what follows is kept or lost. -/
theorem concatAll_ok (hne : literals ≠ []) (hs : ∀ literal ∈ literals, IsString literal)
    (hc : Concatenable literals) (t : Trailers) :
    ∃ result t', concatAll t literals = .ok (t'.on result) ∧ IsConcatAll literals result ∧
      (KeepsTrailers literals → t' = t) ∧ (¬ KeepsTrailers literals → t' = Trailers.none) := by
  induction literals with
  | nil => exact absurd rfl hne
  | cons literal literals ih =>
    have hl := hs literal mem_cons_self
    cases literals with
    | nil => exact ⟨literal, t, rfl, isConcatAll_singleton hl, fun _ => rfl, fun h =>
        (h (.inl rfl)).elim⟩
    | cons =>
      obtain ⟨hjoin, hc⟩ := hc
      obtain ⟨right, t', hright, hconcat, hkeeps, hloses⟩ :=
        ih (cons_ne_nil _ _) (forall_mem_cons.mp hs).2 hc
      obtain ⟨result, hresult, hok⟩ := concatStrings_ok hl hconcat.isString
        (fun hplain => by rw [hconcat.isPlain, hconcat.hasVar]; exact hjoin hplain) t'
      refine ⟨result, if hasVar right then t' else Trailers.none, ?_, hresult.cons hconcat, ?_, ?_⟩
      · rw [concatAll_cons, hright]
        exact hok
      · rw [keepsTrailers_cons, ← hconcat.hasVar]
        rintro ⟨hvar, hkept⟩
        rw [if_pos hvar, hkeeps hkept]
      · rw [keepsTrailers_cons, ← hconcat.hasVar]
        intro h
        split_ifs with hvar
        · exact hloses fun hkept => h ⟨hvar, hkept⟩
        · rfl

theorem concatAll_error (hs : ∀ literal ∈ literals, IsString literal) (hc : ¬ Concatenable literals)
    (t : Trailers) :
    ∃ e, concatAll t literals = .error e := by
  induction literals with
  | nil => exact absurd trivial hc
  | cons literal literals ih =>
    cases literals with
    | nil => exact absurd ⟨fun _ => .inl rfl, trivial⟩ hc
    | cons next literals =>
      have hs' : ∀ l ∈ next :: literals, IsString l := (forall_mem_cons.mp hs).2
      rw [concatAll_cons]
      by_cases hc' : Concatenable (next :: literals)
      · obtain ⟨right, t', hright, hconcat, -⟩ := concatAll_ok (cons_ne_nil _ _) hs' hc' t
        have hjoin : ¬ (isPlain literal = true →
            (next :: literals).all isPlain = true ∨ (next :: literals).any hasVar = true) :=
          fun hjoin => hc ⟨hjoin, hc'⟩
        rw [← hconcat.isPlain, ← hconcat.hasVar] at hjoin
        obtain ⟨hplain, hno⟩ := Classical.not_imp.mp hjoin
        rw [not_or, Bool.not_eq_true, Bool.not_eq_true] at hno
        rw [hright]
        exact ⟨_, concatStrings_error hconcat.isString hplain hno.1 hno.2 t'⟩
      · obtain ⟨e, he⟩ := ih hs' hc'
        exact ⟨e, by rw [he]; rfl⟩

theorem keepsTrailers_concatenable (h : KeepsTrailers literals) : Concatenable literals := by
  induction literals with
  | nil => trivial
  | cons literal literals ih =>
    cases literals with
    | nil => exact ⟨fun _ => .inl rfl, trivial⟩
    | cons next literals =>
      obtain ⟨hvar, h⟩ := (keepsTrailers_cons literal next literals).mp h
      exact ⟨fun _ => .inr hvar, ih h⟩

/-- The value of a literal, after what has been gathered. -/
theorem evaluates_concatStep (hl : IsString literal) (b : Bytes) :
    Evaluates st (do
      let obj ← interpretValueExpression R N (denote R N (Trailers.none.on literal)) s
      let t ← readOr fun _ => textOf obj
      pure (b ++ t)) ((literalText R s st literal).map (b ++ ·)) := by
  have hvalue : interpretValueExpression R N (denote R N (Trailers.none.on literal)) s =
      interpretLiteral R (denote R N literal) s := interpretValueExpression_literal R N _ s
  have hlit : Evaluates st (interpretLiteral R (denote R N literal) s) _ := evaluates_literal hl
  rw [hvalue]
  cases htext : literalText R s st literal with
  | error =>
    rw [htext] at hlit
    exact hlit.bind_error
  | ok t =>
    rw [htext] at hlit
    exact hlit.bind ((evaluates_readOr (fun _ => textOf (.str t)) st).bind (.pure _ st))

/-- The values of the literals are their texts. -/
theorem evaluates_concatLiterals (hs : ∀ literal ∈ literals, IsString literal) :
    Evaluates st (concatLiterals R N s literals) (textAll R s st literals) := by
  have hfold (b : Bytes) : Evaluates st (literals.foldlM (fun b literal => do
      let obj ← interpretValueExpression R N (denote R N (Trailers.none.on literal)) s
      let t ← readOr fun _ => textOf obj
      pure (b ++ t)) b) (appendText (.ok b) (textAll R s st literals)) := by
    induction literals generalizing b with
    | nil =>
      rw [textAll, foldr_nil, appendText]
      simpa using .pure b st
    | cons literal literals ih =>
      have hstep : Evaluates st (do
          let obj ← interpretValueExpression R N (denote R N (Trailers.none.on literal)) s
          let t ← readOr fun _ => textOf obj
          pure (b ++ t)) _ := evaluates_concatStep (hs literal mem_cons_self) b
      have hassoc : appendText (.ok b) (textAll R s st (literal :: literals)) =
          appendText ((literalText R s st literal).map (b ++ ·)) (textAll R s st literals) := by
        rw [textAll, foldr_cons, ← appendText_assoc]
        cases literalText R s st literal <;> rfl
      rw [hassoc, foldlM_cons]
      cases htext : literalText R s st literal with
      | error =>
        rw [htext] at hstep
        exact hstep.bind_error
      | ok t =>
        rw [htext] at hstep
        exact hstep.bind (ih (forall_mem_cons.mp hs).2 (b ++ t))
  have hnil : appendText (.ok []) (textAll R s st literals) = textAll R s st literals := by
    cases textAll R s st literals <;> rfl
  exact hnil ▸ hfold []

/-! ## Parsing -/

section parsing

variable {σ : Type} [TokenSource σ]

/-- The strings that come next are these literals, and after them there is none. -/
inductive ReadsLiterals : Parser σ → List (Node Ann .literal) → Parser σ → Prop
  | last {p q : Parser σ} {tok following : Syntax.Token} {literal : Node Ann .literal}
      (hpeek : TokenSource.peek p.l = .ok tok) (htype : tok.type = .string)
      (hquotes : 2 ≤ tok.value.length) (hparse : parseString tok p = .ok (literal, q))
      (hfollowing : TokenSource.peek q.l = .ok following) (hend : following.type ≠ .string) :
      ReadsLiterals p [literal] q
  | cons {p q q' : Parser σ} {tok : Syntax.Token} {literal : Node Ann .literal}
      {literals : List (Node Ann .literal)} (hpeek : TokenSource.peek p.l = .ok tok)
      (htype : tok.type = .string) (hquotes : 2 ≤ tok.value.length)
      (hparse : parseString tok p = .ok (literal, q)) (hrest : ReadsLiterals q literals q') :
      ReadsLiterals p (literal :: literals) q'

variable {p q q' : Parser σ} {literals : List (Node Ann .literal)}

theorem ReadsLiterals.peek (h : ReadsLiterals p literals q) :
    ∃ tok, Syntax.peek p = .ok (tok, p) ∧ tok.type = .string := by
  cases h with
  | last hpeek htype | cons hpeek htype => exact ⟨_, peek_eq_ok.mpr ⟨hpeek, rfl⟩, htype⟩

theorem isString_of_parseString {tok : Syntax.Token} {literal : Node Ann .literal}
    (hquotes : 2 ≤ tok.value.length) (h : parseString tok p = .ok (literal, q)) :
    IsString literal := by
  unfold parseString at h
  split_ifs at h
  · obtain ⟨f, -, rfl⟩ := Parse.map_eq_ok.mp h
    trivial
  · obtain ⟨_, _, -, hret⟩ := Parse.bind_eq_ok.mp h
    cases hret
    exact hquotes

theorem ReadsLiterals.isString (h : ReadsLiterals p literals q) :
    ∀ literal ∈ literals, IsString literal := by
  induction h with
  | last _ _ hquotes hparse =>
    intro literal hl
    rw [mem_singleton.mp hl]
    exact isString_of_parseString hquotes hparse
  | cons _ _ hquotes hparse _ ih =>
    intro literal hl
    rcases mem_cons.mp hl with rfl | hl
    · exact isString_of_parseString hquotes hparse
    · exact ih literal hl

theorem ReadsLiterals.ne_nil (h : ReadsLiterals p literals q) : literals ≠ [] := by
  cases h with
  | last | cons => exact cons_ne_nil _ _

/-- The literals are concatenated, with what follows the last one. -/
theorem ReadsLiterals.value (mark : ℕ → Ann) {n : ℕ} {t : Trailers}
    (h : ReadsLiterals p literals q)
    (ht : ∀ literal, parseTrailers mark (recursive mark n) n literal q = .ok (t.on literal, q')) :
    (recursive mark (n + literals.length)).value p = (concatAll t literals).map (·, q') := by
  induction h with
  | @last p q tok following literal hpeek htype hquotes hparse hfollowing hend =>
    have hp := peek_eq_ok.mpr ⟨hpeek, rfl⟩
    have hq := peek_eq_ok.mpr ⟨hfollowing, rfl⟩
    show parseValueExpression mark (recursive mark n) n p = _
    rw [parseValueExpression, Parse.bind_of_ok hp, if_pos htype, Parse.bind_of_ok hparse,
      Parse.bind_of_ok hq, if_neg hend, ht]
    rfl
  | @cons p q q₁ tok literal literals hpeek htype hquotes hparse hrest ih =>
    have hp := peek_eq_ok.mpr ⟨hpeek, rfl⟩
    obtain ⟨following, hq, hstring⟩ := hrest.peek
    obtain ⟨next, literals, rfl⟩ := exists_cons_of_ne_nil hrest.ne_nil
    show parseValueExpression mark (recursive mark (n + (next :: literals).length)) _ p = _
    rw [parseValueExpression, Parse.bind_of_ok hp, if_pos htype, Parse.bind_of_ok hparse,
      Parse.bind_of_ok hq, if_pos hstring, concatAll_cons]
    have hvalue := ih ht
    cases hc : concatAll t (next :: literals) with
    | error =>
      rw [hc] at hvalue
      rw [Parse.bind_of_error hvalue]
      rfl
    | ok rhs =>
      rw [hc] at hvalue
      rw [Parse.bind_of_ok hvalue]
      cases concatStrings (Trailers.none.on literal) rhs <;> rfl

/-- Two programs do the same. -/
def SameRuns {H α : Type} (f g : P H α) : Prop :=
  ∀ (answer : Prog.Handler Answer (Store H) (List Closure) Bytes) (st : Store H)
      (fs : List Closure),
    f.run answer (st, fs) = g.run answer (st, fs)

/-- The literals and what follows them are accepted, as one value to which what follows is attached.
It is the values of the literals one after the other, and what follows is applied to the whole. -/
def JoinsAdjacent (mark : ℕ → Ann) (n : ℕ) (p : Parser σ) (literals : List (Node Ann .literal))
    (t : Trailers) (q : Parser σ) : Prop :=
  ∃ result, (recursive mark (n + literals.length)).value p = .ok (t.on result, q) ∧
    ∀ (H : Type) (R : Runtime H) (N : Natives H) (s : ℕ),
      SameRuns (interpretValueExpression R N (denote R N (t.on result)) s) (do
        let b ← concatLiterals R N s literals
        interpretTrailers R N s t (.str b))

theorem sameRuns_of_isConcatAll {result : Node Ann .literal}
    (hs : ∀ literal ∈ literals, IsString literal) (h : IsConcatAll literals result) (t : Trailers)
    (R : Runtime H) (N : Natives H) (s : ℕ) :
    SameRuns (interpretValueExpression R N (denote R N (t.on result)) s) (do
      let b ← concatLiterals R N s literals
      interpretTrailers R N s t (.str b)) := by
  intro answer st fs
  have hleft : Evaluates st (interpretLiteral R (denote R N result) s) _ :=
    evaluates_literal h.isString
  have hright : Evaluates st (concatLiterals R N s literals) _ := evaluates_concatLiterals hs
  rw [h.text] at hleft
  rw [interpretValueExpression_on, Prog.run_bind, Prog.run_bind, hleft answer fs, hright answer fs]
  cases textAll R s st literals <;> rfl

/-- Adjacent literals are joined exactly if what follows stays with the whole, or if nothing follows
and they can be concatenated. -/
theorem joinsAdjacent_iff (mark : ℕ → Ann) {n : ℕ} {t : Trailers} (h : ReadsLiterals p literals q)
    (ht : ∀ literal, parseTrailers mark (recursive mark n) n literal q = .ok (t.on literal, q')) :
    JoinsAdjacent mark n p literals t q' ↔
      KeepsTrailers literals ∨ t = Trailers.none ∧ Concatenable literals := by
  have hvalue := h.value mark ht
  constructor
  · rintro ⟨result, hok, -⟩
    rw [hok] at hvalue
    by_cases hc : Concatenable literals
    · obtain ⟨result', t', hconcat, -, -, hloses⟩ := concatAll_ok h.ne_nil h.isString hc t
      by_cases hkeeps : KeepsTrailers literals
      · exact .inl hkeeps
      · rw [hconcat, hloses hkeeps] at hvalue
        exact .inr ⟨Trailers.eq_of_on_eq (congrArg Prod.fst (Except.ok.inj hvalue)), hc⟩
    · obtain ⟨e, he⟩ := concatAll_error h.isString hc t
      rw [he] at hvalue
      cases hvalue
  · intro hcond
    have hc : Concatenable literals := by
      rcases hcond with hkeeps | ⟨-, hc⟩
      · exact keepsTrailers_concatenable hkeeps
      · exact hc
    obtain ⟨result, t', hconcat, hresult, hkeeps, hloses⟩ := concatAll_ok h.ne_nil h.isString hc t
    have ht' : t' = t := by
      rcases hcond with hkept | ⟨hnone, -⟩
      · exact hkeeps hkept
      · by_cases hkept : KeepsTrailers literals
        · exact hkeeps hkept
        · rw [hloses hkept, hnone]
    rw [hconcat, ht'] at hvalue
    exact ⟨result, hvalue, fun H R N s => sameRuns_of_isConcatAll h.isString hresult t R N s⟩

end parsing

/-- Tokens that have been read ahead. -/
@[reducible] def tokensAhead : TokenSource (List Syntax.Token) where
  peek tokens := match tokens with
    | [] => .error .outOfRange
    | tok :: _ => .ok tok
  next tokens := .ok tokens.tail
  assignFollows tokens := .ok (false, tokens)

/-- `"a" f"{x}"[:]` -/
theorem joinsAdjacent_slice :
    letI := tokensAhead
    JoinsAdjacent (fun pos => ⟨pos, none⟩) 3
      (⟨[⟨.string, utf8 "\"a\"", 1⟩, ⟨.string, utf8 "f\"\x7bx\x7d\"", 5⟩, ⟨.char '[', utf8 "[", 11⟩,
        ⟨.char ':', utf8 ":", 12⟩, ⟨.char ']', utf8 "]", 13⟩, ⟨.eof, [], 14⟩], 0, false⟩ :
        Parser (List Syntax.Token))
      [.string (utf8 "\"a\""), .fString ⟨[⟨[], [utf8 "x"]⟩], []⟩]
      ⟨.cons (.slice .absent true .absent) .nil, .absent, .absent⟩
      ⟨[⟨.eof, [], 14⟩], 14, false⟩ :=
  letI := tokensAhead
  (joinsAdjacent_iff _ (.cons rfl rfl (by decide) rfl
      (.last rfl rfl (by decide) rfl rfl (by decide)))
    fun _ => rfl).mpr (.inl (.inr ⟨_, rfl, rfl⟩))

/-- `'a' f'b'` is not accepted, and the property in `'ab' 'cd'.foo` is lost, which strings do not
have. -/
theorem adjacent_strings_not_joined :
    (@parseText Utf8.Unicode.ascii 60 (utf8 "x = 'a' f'b'\n")).map (valueOf (utf8 "x")) =
      .error .outOfRange ∧
    (@parseText Utf8.Unicode.ascii 60 (utf8 "x = 'ab' 'cd'.foo\n")).map (valueOf (utf8 "x")) =
      .ok (.ok (.str (utf8 "abcd"))) := by
  decide +kernel

end Please.Asp.Interp
