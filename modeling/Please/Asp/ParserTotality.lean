import Please.Asp.LexerBounds
import Please.Asp.LoopSyntax

/-!
# The parser terminates and stays in the lexer's buffer

`parseFileInput` ends on every byte string, in statements or in an error; the lexer reads no byte
outside its buffer on the way, and the parser takes the end of the file at most once.

The parser runs on a lexer under watch (`Watched`), which ends in an error `e` of its own where the
lexer would read outside its buffer or where the end of the file would be taken a second time.
`parseFileInput_total`: with a bound that is linear in the length of the text, the recursion and
the loops of the parser do not run out, and the watched run ends in the same result, for every
`e`. So nothing that is watched for happens.

`Mirror` is any source of tokens that does what a lexer does; the watched lexer is one.
`Mirror.Tracks` relates a computation on such a source to one on the lexer: they do the same, the
tokens they take are counted, and what they return satisfies a condition.

`placed_of_parseFileInput`: in what the parser accepts, `break` and `continue` stand in loops.
-/

namespace Please.Asp.Syntax

open Please.Lib.Utf8 Please.Lib.Except Syntax TokenType Parse Pure
open Please.Fs (Bytes)
open Please.Build (utf8)
open List

variable [Unicode] {e : Error} {σ α β P : Type} [TokenSource σ]

/-! ## A lexer under watch -/

/-- A lexer, and whether the end of the file has been taken. -/
structure Watched (e : Error) where
  lex : Lex
  ended : Bool

/-- A read outside the buffer becomes the error `e`. -/
def watch (e : Error) : Except Error α → Except Error α
  | .error .outOfRange => .error e
  | r => r

instance : TokenSource (Watched e) where
  peek w := .ok w.lex.peek
  next w := do
    if w.ended ∧ w.lex.peek.type = .eof then throw e
    let lex ← watch e w.lex.toScan.next
    return ⟨lex, w.ended || w.lex.peek.type = .eof⟩
  assignFollows w := do
    let (follows, lex) ← watch e w.lex.assignFollows
    return (follows, { w with lex })

/-- `parseFileInput` on the lexer under watch. -/
def watchedParseFileInput (e : Error) (mark : ℕ → P) (n : ℕ) (b : Bytes) :
    Except Error (List (Statement P)) := do
  let lex ← watch e (newLexer b)
  let l : Watched e := ⟨lex, false⟩
  let (stmts, _) ← parseFile mark n { l, endPos := 0, inFor := false }
  return stmts

omit [Unicode] in
theorem watch_eq_self {Q : α → Prop} {x : Except Error α} (h : Ends Error.IsFail Q x) :
    watch e x = x := by
  match x, h with
  | .ok a, _ => rfl
  | .error (.fail pos message), _ => rfl

/-- No condition on a token. -/
def anyToken : Token → Prop := fun _ => True

/-! ## Sources that do what a lexer does -/

/-- Two computations end in the same error, or both succeed with results that satisfy `R`. -/
def EndAlike {γ δ : Type} (R : γ → δ → Prop) (x : Except Error γ) (y : Except Error δ) : Prop :=
  (∃ err, x = .error err ∧ y = .error err) ∨ ∃ c d, x = .ok c ∧ y = .ok d ∧ R c d

/-- A source of tokens with a lexer `lex` that does the same. It is `Good` until the end of the file
is taken. Its bounds may run out, with those of the lexer, if it is `short`. The parser reads it
with the flag `inFor`. -/
structure Mirror (σ : Type) [TokenSource σ] where
  lex : σ → Lex
  Good : σ → Prop
  short : Prop
  inFor : Bool
  peek_eq : ∀ s, TokenSource.peek s = .ok (lex s).peek
  next_eq : ∀ {s}, Good s → (lex s).Live → EndAlike
    (fun s' l' => lex s' = l' ∧ ((lex s).peek.type ≠ .eof → Good s')) (TokenSource.next s)
    (lex s).toScan.next
  assignFollows_eq : ∀ {s}, Good s → (lex s).Live → (lex s).peek.type = .ident → EndAlike
    (fun x y => x.1 = y.1 ∧ lex x.2 = y.2 ∧ Good x.2) (TokenSource.assignFollows s)
    (lex s).assignFollows

namespace Mirror

/-- The parser on the lexer of a source. -/
def plain (M : Mirror σ) (p : Parser σ) : Parser Lex :=
  { l := M.lex p.l, endPos := p.endPos, inFor := p.inFor }

/-- The same source, with another flag. -/
def within (M : Mirror σ) (inFor : Bool) : Mirror σ := { M with inFor }

variable (M : Mirror σ)

/-- The parser is at a token that satisfies `T`, and less than `k` tokens are to come. -/
structure Ready (T : Token → Prop) (k : ℕ) (p : Parser σ) : Prop where
  live : (M.lex p.l).Live
  good : M.Good p.l
  inFor : p.inFor = M.inFor
  size : (M.lex p.l).size < k
  tok : T (M.lex p.l).peek

/-- The parser went from `p` to `q` and took at least `d` tokens, not the end of the file. -/
structure Goes (d : ℕ) (p q : Parser σ) : Prop where
  live : (M.lex q.l).Live
  good : M.Good q.l
  inFor : q.inFor = M.inFor
  size : (M.lex q.l).size + d ≤ (M.lex p.l).size

/-- From every state that is ready, the two computations end in the same error, or in the same
result after the same tokens. The result satisfies `Q`. -/
def Tracks (T : Token → Prop) (k d : ℕ) (m : Parse σ α) (m' : Parse Lex α)
    (Q : α → Prop := fun _ => True) : Prop :=
  ∀ p, Ready M T k p →
    (∃ err, (err = .outOfFuel → M.short) ∧ m p = .error err ∧ m' (M.plain p) = .error err) ∨
    ∃ a q, m p = .ok (a, q) ∧ m' (M.plain p) = .ok (a, M.plain q) ∧ Goes M d p q ∧ Q a

/-- The bounds `n` and `n'` are enough for `k` tokens, or they are the same and may run out. -/
def Bound (k n n' : ℕ) : Prop := (k ≤ n ∧ k ≤ n') ∨ M.short ∧ n = n'

section rules

variable {M} {T : Token → Prop} {k d : ℕ} {m : Parse σ α} {m' : Parse Lex α} {Q : α → Prop}
  {R : β → Prop} {f : α → Parse σ β} {f' : α → Parse Lex β} {p q r : Parser σ}

theorem Bound.mono {n n' k' : ℕ} (h : Bound M k n n') (hk : k' ≤ k) : Bound M k' n n' :=
  h.imp (fun h => ⟨hk.trans h.1, hk.trans h.2⟩) fun h => h

theorem Bound.less {n n' : ℕ} (h : Bound M k n n') : Bound M (k - 1) n n' := h.mono (Nat.sub_le k 1)

theorem Bound.of_zero {n' : ℕ} (h : Bound M k 0 n') (hk : 0 < k) : M.short ∧ n' = 0 := by
  obtain ⟨hn, -⟩ | ⟨hshort, rfl⟩ := h
  · omega
  · exact ⟨hshort, rfl⟩

theorem Bound.of_succ {n n' : ℕ} (h : Bound M k (n + 1) n') (hk : 0 < k) :
    ∃ j, n' = j + 1 ∧ Bound M (k - 1) n j := by
  obtain ⟨hn, hn'⟩ | ⟨hshort, rfl⟩ := h
  · exact ⟨n' - 1, by omega, .inl ⟨by omega, by omega⟩⟩
  · exact ⟨n, rfl, .inr ⟨hshort, rfl⟩⟩

/-- A loop that is not at its end makes a round, or both bounds have run out. -/
theorem Bound.cases {n n' : ℕ} (h : Bound M (k + 1) n n') :
    (M.short ∧ n = 0 ∧ n' = 0) ∨ ∃ j j', n = j + 1 ∧ n' = j' + 1 ∧ Bound M k j j' := by
  cases n with
  | zero => exact .inl ⟨(h.of_zero k.succ_pos).1, rfl, (h.of_zero k.succ_pos).2⟩
  | succ n =>
    obtain ⟨j, hj, hless⟩ := h.of_succ k.succ_pos
    exact .inr ⟨n, j, rfl, hj, hless⟩

theorem Goes.refl (h : Ready M T k p) : Goes M 0 p p := ⟨h.live, h.good, h.inFor, le_rfl⟩

theorem Goes.trans {d' : ℕ} (h : Goes M d p q) (h' : Goes M d' q r) : Goes M (d + d') p r :=
  ⟨h'.live, h'.good, h'.inFor, by have := h.size; have := h'.size; omega⟩

theorem Goes.ready (h : Goes M d p q) (hp : Ready M T k p) : Ready M anyToken (k - d) q :=
  ⟨h.live, h.good, h.inFor, by have := h.size; have := hp.size; omega, trivial⟩

theorem Tracks.mono {T' : Token → Prop} {k' : ℕ} (h : Tracks M T k d m m' Q) (hk : k' ≤ k)
    (hT : ∀ t, T' t → T t) : Tracks M T' k' d m m' Q :=
  fun p hp => h p ⟨hp.live, hp.good, hp.inFor, hp.size.trans_le hk, hT _ hp.tok⟩

theorem Tracks.any (h : Tracks M anyToken k d m m' Q) : Tracks M T k d m m' Q :=
  h.mono le_rfl fun _ _ => trivial

theorem Tracks.less (h : Tracks M T k d m m' Q) : Tracks M T (k - 1) d m m' Q :=
  h.mono (Nat.sub_le k 1) fun _ ht => ht

/-- The token that is taken may be forgotten. -/
theorem Tracks.keep (h : Tracks M T k 1 m m' Q) : Tracks M T k 0 m m' Q := by
  intro p hp
  obtain h | ⟨a, q, hm, hm', hgo, ha⟩ := h p hp
  · exact .inl h
  · exact .inr ⟨a, q, hm, hm', ⟨hgo.live, hgo.good, hgo.inFor, by have := hgo.size; omega⟩, ha⟩

theorem Tracks.pure {a : α} (ha : Q a) : Tracks M T k 0 (pure a) (pure a) Q := by
  intro p hp
  exact .inr ⟨a, p, rfl, rfl, Goes.refl hp, ha⟩

theorem Tracks.raise {err : Error} (herr : err = .outOfFuel → M.short) :
    Tracks M T k d (raise err : Parse σ α) (raise err) Q :=
  fun _ _ => .inl ⟨err, herr, rfl, rfl⟩

theorem Tracks.fail (tok : Token) (message : Bytes) :
    Tracks M T k d (fail tok message : Parse σ α) (fail tok message) Q :=
  .raise (fun h => by cases h)

theorem Tracks.zero : Tracks M T 0 d m m' Q := fun _ hp => absurd hp.size (Nat.not_lt_zero _)

/-- One computation after another, which has `d` tokens less to come. -/
theorem Tracks.bind {d' : ℕ} (h : Tracks M T k d m m' Q)
    (hf : ∀ a, Q a → Tracks M anyToken (k - d) d' (f a) (f' a) R) :
    Tracks M T k (d + d') (m >>= f) (m' >>= f') R := by
  intro p hp
  obtain ⟨err, herr, hm, hm'⟩ | ⟨a, q, hm, hm', hgo, ha⟩ := h p hp
  · exact .inl ⟨err, herr, bind_of_error hm, bind_of_error hm'⟩
  · rw [bind_of_ok hm, bind_of_ok hm']
    obtain herr | ⟨b, r, hf, hf', hgo', hb⟩ := hf a ha q (hgo.ready hp)
    · exact .inl herr
    · exact .inr ⟨b, r, hf, hf', hgo.trans hgo', hb⟩

/-- The first computation takes the tokens. -/
theorem Tracks.eat (h : Tracks M T k d m m' Q)
    (hf : ∀ a, Q a → Tracks M anyToken (k - d) 0 (f a) (f' a) R) :
    Tracks M T k d (m >>= f) (m' >>= f') R :=
  h.bind hf

theorem Tracks.seq (h : Tracks M T k 0 m m' Q)
    (hf : ∀ a, Q a → Tracks M anyToken k d (f a) (f' a) R) :
    Tracks M T k d (m >>= f) (m' >>= f') R := by
  have h := h.bind hf
  rwa [Nat.zero_add] at h

theorem Tracks.map {g : α → β} (h : Tracks M T k d m m' Q) (hg : ∀ a, Q a → R (g a)) :
    Tracks M T k d (g <$> m) (g <$> m') R :=
  h.eat fun a ha => .pure (hg a ha)

theorem Tracks.ite {c : Prop} [Decidable c] {m₁ : Parse σ α} {m₁' : Parse Lex α}
    (h : c → Tracks M T k d m m' Q) (h₁ : ¬ c → Tracks M T k d m₁ m₁' Q) :
    Tracks M T k d (if c then m else m₁) (if c then m' else m₁') Q := by
  by_cases hc : c
  · rw [if_pos hc, if_pos hc]
    exact h hc
  · rw [if_neg hc, if_neg hc]
    exact h₁ hc

theorem peek_eq_peek (p : Parser σ) : peek p = .ok ((M.lex p.l).peek, p) := by
  show (do let t ← TokenSource.peek p.l; return (t, p)) = _
  rw [M.peek_eq]
  rfl

/-- At the token that `Peek` returns. -/
theorem Tracks.peek {f : Token → Parse σ β} {f' : Token → Parse Lex β}
    (hf : ∀ tok, T tok → (¬ tok.type.InLine → tok.value = []) →
      Tracks M (· = tok) k d (f tok) (f' tok) R) :
    Tracks M T k d (peek >>= f) (peek >>= f') R := by
  intro p hp
  rw [bind_of_ok (peek_eq_peek p)]
  exact hf _ hp.tok hp.live.value p ⟨hp.live, hp.good, hp.inFor, hp.size, rfl⟩

/-- After a computation that leaves the lexer and the flag alone. -/
theorem Tracks.still
    (h : ∀ p, ∃ a q, m p = .ok (a, q) ∧ m' (M.plain p) = .ok (a, M.plain q) ∧ q.l = p.l ∧
      q.inFor = p.inFor ∧ (p.inFor = M.inFor → Q a))
    (hf : ∀ a, Q a → Tracks M T k d (f a) (f' a) R) : Tracks M T k d (m >>= f) (m' >>= f') R := by
  intro p hp
  obtain ⟨a, q, hm, hm', hl, hin, ha⟩ := h p
  rw [bind_of_ok hm, bind_of_ok hm']
  have hq : Ready M T k q := by
    refine ⟨?_, ?_, hin.trans hp.inFor, ?_, ?_⟩ <;> rw [hl]
    exacts [hp.live, hp.good, hp.size, hp.tok]
  obtain herr | ⟨b, r, hf, hf', hgo, hb⟩ := hf a (ha hp.inFor) q hq
  · exact .inl herr
  · exact .inr ⟨b, r, hf, hf', ⟨hgo.live, hgo.good, hgo.inFor, hl ▸ hgo.size⟩, hb⟩

theorem Tracks.getEndPos {f : ℕ → Parse σ β} {f' : ℕ → Parse Lex β}
    (hf : ∀ endPos, Tracks M T k d (f endPos) (f' endPos) R) :
    Tracks M T k d (getEndPos >>= f) (getEndPos >>= f') R :=
  .still (Q := fun _ => True)
    (fun p => ⟨p.endPos, p, rfl, rfl, rfl, rfl, fun _ => trivial⟩) fun endPos _ => hf endPos

theorem Tracks.setEndPos {endPos : ℕ} {m : Parse σ β} {m' : Parse Lex β}
    (h : Tracks M T k d m m' R) :
    Tracks M T k d (do setEndPos endPos; m) (do setEndPos endPos; m') R :=
  .still (Q := fun _ => True)
    (fun p => ⟨(), { p with endPos }, rfl, rfl, rfl, rfl, fun _ => trivial⟩) fun _ _ => h

end rules

/-! ## Tokens -/

section tokens

variable {M} {T : Token → Prop} {k d : ℕ} {Q : α → Prop}

theorem advance_cases {p : Parser σ} (hp : Ready M T k p) :
    (∃ err, err ≠ .outOfFuel ∧ advance p = .error err ∧ advance (M.plain p) = .error err) ∨
    ∃ q, advance p = .ok ((M.lex p.l).peek, q) ∧
      advance (M.plain p) = .ok ((M.lex p.l).peek, M.plain q) ∧
      ((M.lex p.l).peek.type ≠ .eof → Goes M 1 p q) := by
  have hnext := hp.live.next_ends
  have hadvance : advance p = (do
      let l ← TokenSource.next p.l
      return ((M.lex p.l).peek, { p with l })) := by
    show (do
      let t ← TokenSource.peek p.l
      let l ← TokenSource.next p.l
      return (t, { p with l })) = _
    rw [M.peek_eq]
    rfl
  have hplain : advance (M.plain p) = (do
      let l ← (M.lex p.l).toScan.next
      return ((M.lex p.l).peek, { M.plain p with l })) := rfl
  rw [hadvance, hplain]
  obtain ⟨err, hs, hl⟩ | ⟨s, l, hs, hl, rfl, hgood⟩ := M.next_eq hp.good hp.live
  · rw [hl] at hnext
    rw [hs, hl]
    refine .inl ⟨err, ?_, rfl, rfl⟩
    rintro rfl
    exact hnext
  · rw [hl] at hnext
    rw [hs, hl]
    exact .inr ⟨_, rfl, rfl, fun htype => ⟨hnext.2 htype, hgood htype, hp.inFor, hnext.1⟩⟩

variable {tok : Token}

/-- What follows an assertion is at the same token. -/
theorem Tracks.assert {c : Bool} {message : Bytes} {m : Parse σ α}
    {m' : Parse Lex α} (h : c → Tracks M T k d m m' Q) :
    Tracks M T k d (do assert c tok message; m) (do assert c tok message; m') Q := by
  cases c with
  | true => exact h rfl
  | false => exact fun p _ => .inl ⟨.fail tok.pos message, (fun h => by cases h), rfl, rfl⟩

/-- After a token that is not the end of the file there is more to do; after another the computation
fails, so that this is the last token taken. -/
theorem Tracks.takes {f : Token → Parse σ β} {f' : Token → Parse Lex β} {R : β → Prop}
    (h : ∀ tok, T tok → (¬ tok.type.InLine → tok.value = []) →
      tok.type ≠ .eof ∧ Tracks M anyToken (k - 1) 0 (f tok) (f' tok) R ∨
      ∃ err, err ≠ .outOfFuel ∧ f tok = Syntax.raise err ∧ f' tok = Syntax.raise err) :
    Tracks M T k 1 (advance >>= f) (advance >>= f') R := by
  intro p hp
  obtain ⟨err, herr, hm, hm'⟩ | ⟨q, hm, hm', hgo⟩ := advance_cases hp
  · exact .inl ⟨err, fun h => absurd h herr, bind_of_error hm, bind_of_error hm'⟩
  rw [bind_of_ok hm, bind_of_ok hm']
  obtain ⟨htype, hf⟩ | ⟨err, herr, hf, hf'⟩ := h _ hp.tok hp.live.value
  · obtain herr | ⟨b, r, hfq, hfq', hgo', hb⟩ := hf q ((hgo htype).ready hp)
    · exact .inl herr
    · exact .inr ⟨b, r, hfq, hfq', (hgo htype).trans hgo', hb⟩
  · rw [hf, hf']
    exact .inl ⟨err, fun h => absurd h herr, rfl, rfl⟩

/-- A token is taken and then checked. -/
theorem tracks_checked {c : Token → Bool} {message : Token → Bytes}
    (hc : ∀ tok, (¬ tok.type.InLine → tok.value = []) → c tok → tok.type ≠ .eof) :
    Tracks M T k 1
      (do
        let tok ← advance
        assert (c tok) tok (message tok)
        return tok)
      (do
        let tok ← advance
        assert (c tok) tok (message tok)
        return tok) := by
  refine .takes fun tok _ htok => ?_
  by_cases hcheck : c tok
  · exact .inl ⟨hc tok htok hcheck, .assert fun _ => .pure trivial⟩
  · rw [Bool.not_eq_true] at hcheck
    rw [hcheck]
    exact .inr ⟨.fail tok.pos (message tok), (fun h => by cases h), rfl, rfl⟩

theorem tracks_assert (c : Bool) (tok : Token) (message : Bytes) :
    Tracks M T k 0 (assert c tok message) (assert c tok message) :=
  .ite (fun _ => .pure trivial) fun _ => .fail tok message

variable {type : TokenType}

theorem tracks_next (htype : type ≠ .eof) : Tracks M T k 1 (next type) (next type) := by
  refine tracks_checked fun tok _ h => ?_
  rw [decide_eq_true_eq] at h
  exact h ▸ htype

omit [Unicode] in
theorem ne_eof_of_value {v : Bytes} (htok : ¬ tok.type.InLine → tok.value = [])
    (h : tok.value = v) (hv : v ≠ []) : tok.type ≠ .eof := by
  rintro htype
  exact hv (h.symm.trans (htok fun hin => hin.1 htype))

theorem tracks_nextv {v : Bytes} (hv : v ≠ []) : Tracks M T k 1 (nextv v) (nextv v) :=
  tracks_checked fun _ htok h => ne_eof_of_value htok (decide_eq_true_eq.mp h) hv

theorem tracks_oneof {types : List TokenType} (h : ∀ type ∈ types, type ≠ .eof) :
    Tracks M T k 1 (oneof types) (oneof types) :=
  tracks_checked fun _ _ hc => h _ (contains_iff_mem.mp hc)

theorem tracks_oneofval {values : List Bytes} (h : [] ∉ values) :
    Tracks M T k 1 (oneofval values) (oneofval values) := by
  refine tracks_checked fun tok htok hc => ?_
  have hmem := contains_iff_mem.mp hc
  exact ne_eof_of_value htok rfl fun hnil => h (hnil ▸ hmem)

/-- The token `tok`, at which the parser is, is taken. -/
theorem tracks_take (htok : tok.type ≠ .eof) : Tracks M (· = tok) k 1 advance advance := by
  have h : Tracks M (· = tok) k 1 (advance >>= pure) (advance >>= pure) :=
    .takes fun tok' h _ => .inl (h ▸ ⟨htok, .pure trivial⟩)
  simpa only [bind_pure] using h

theorem tracks_setEndPos (endPos : ℕ) : Tracks M T k 0 (setEndPos endPos) (setEndPos endPos) := by
  intro p hp
  exact .inr ⟨(), { p with endPos }, rfl, rfl, ⟨hp.live, hp.good, hp.inFor, le_rfl⟩, trivial⟩

theorem tracks_ending (htype : type ≠ .eof) : Tracks M T k 1 (ending type) (ending type) :=
  (tracks_next htype).eat fun _ _ => .setEndPos (.pure trivial)

theorem tracks_consume (htok : tok.type ≠ .eof) :
    Tracks M (· = tok) k 1 (consume tok) (consume tok) :=
  (tracks_take htok).eat fun _ _ => tracks_setEndPos tok.endPos

variable {f' : Bool → Parse Lex β}

section

variable {f : Bool → Parse σ β} {R : β → Prop}

/-- A token that is taken if it satisfies `c`: what follows then has less tokens to come. -/
theorem Tracks.option {c : Token → Prop} [DecidablePred c]
    (hc : ∀ tok, (¬ tok.type.InLine → tok.value = []) → c tok → tok.type ≠ .eof)
    (htrue : Tracks M anyToken (k - 1) 0 (f true) (f' true) R)
    (hfalse : Tracks M anyToken k 0 (f false) (f' false) R) :
    Tracks M T k 0
      ((do
        let tok ← Syntax.peek
        if c tok then
          let _ ← advance
          return true
        else return false) >>= f)
      ((do
        let tok ← Syntax.peek
        if c tok then
          let _ ← advance
          return true
        else return false) >>= f') R := by
  simp only [bind_assoc, apply_ite (· >>= f), apply_ite (· >>= f'), pure_bind]
  refine .peek fun tok _ htok => .ite (fun h => ?_) fun _ => hfalse.any
  exact ((tracks_take (hc tok htok h)).eat fun _ _ => htrue).keep

theorem Tracks.optional (htype : type ≠ .eof)
    (htrue : Tracks M anyToken (k - 1) 0 (f true) (f' true) R)
    (hfalse : Tracks M anyToken k 0 (f false) (f' false) R) :
    Tracks M T k 0 (Syntax.optional type >>= f) (Syntax.optional type >>= f') R :=
  .option (fun _ _ h => h ▸ htype) htrue hfalse

theorem Tracks.optionalv {v : Bytes} (hv : v ≠ [])
    (htrue : Tracks M anyToken (k - 1) 0 (f true) (f' true) R)
    (hfalse : Tracks M anyToken k 0 (f false) (f' false) R) :
    Tracks M T k 0 (optionalv v >>= f) (optionalv v >>= f') R :=
  .option (fun _ htok h => ne_eof_of_value htok h hv) htrue hfalse

end

theorem tracks_optional (htype : type ≠ .eof) : Tracks M T k 0 (optional type) (optional type) := by
  have h : Tracks M T k 0 (optional type >>= pure) (optional type >>= pure) :=
    .optional htype (.pure trivial) (.pure trivial)
  simpa only [bind_pure] using h

theorem tracks_optionally_optional {m : Parse σ α} {m' : Parse Lex α} (htype : type ≠ .eof)
    (h : Tracks M anyToken (k - 1) 0 m m' Q) :
    Tracks M T k 0 (optionally (optional type) m) (optionally (optional type) m')
      fun x => ∀ a ∈ x, Q a :=
  .optional htype (h.map fun _ ha _ h => Option.some.inj h ▸ ha) (.pure (by simp))

theorem tracks_optionally_optionalv {v : Bytes} {m : Parse σ α} {m' : Parse Lex α}
    (hv : v ≠ []) (h : Tracks M anyToken (k - 1) 0 m m' Q) :
    Tracks M T k 0 (optionally (optionalv v) m) (optionally (optionalv v) m')
      fun x => ∀ a ∈ x, Q a :=
  .optionalv hv (h.map fun _ ha _ h => Option.some.inj h ▸ ha) (.pure (by simp))

/-- `AssignFollows`, at an identifier, takes no token. -/
theorem tracks_assignFollows (hT : ∀ tok, T tok → tok.type = .ident) :
    Tracks M T k 0 assignFollows assignFollows := by
  intro p hp
  have htok := hT _ hp.tok
  have hassign := hp.live.assignFollows_ends htok
  have hm : assignFollows p = (do
      let r ← TokenSource.assignFollows p.l
      return (r.1, { p with l := r.2 })) := rfl
  have hm' : assignFollows (M.plain p) = (do
      let r ← (M.lex p.l).assignFollows
      return (r.1, { M.plain p with l := r.2 })) := rfl
  rw [hm, hm']
  obtain ⟨err, hs, hl⟩ | ⟨⟨follows, s⟩, ⟨_, _⟩, hs, hl, rfl, rfl, hgood⟩ :=
    M.assignFollows_eq hp.good hp.live htok
  · rw [hl] at hassign
    rw [hs, hl]
    refine .inl ⟨err, ?_, rfl, rfl⟩
    rintro rfl
    exact hassign.elim
  · rw [hl] at hassign
    rw [hs, hl]
    exact .inr ⟨follows, _, rfl, rfl, ⟨hassign.1, hgood, hp.inFor, hassign.2.1⟩, trivial⟩

/-! ## Loops -/

variable {n n' : ℕ}

variable {continues : Token → Bool}

theorem tracks_commaSeparated {item : List α → Parse σ α}
    {item' : List α → Parse Lex α}
    (hitem : ∀ tok, continues tok → ∀ items, Tracks M (· = tok) k 0 (item items) (item' items) Q)
    (hn : Bound M k n n') {items : List α} (hitems : ∀ x ∈ items, Q x) :
    Tracks M T k 0 (commaSeparated continues item n items)
      (commaSeparated continues item' n' items) fun xs => ∀ x ∈ xs, Q x := by
  induction k generalizing n n' items T with
  | zero => exact .zero
  | succ k ih =>
    obtain ⟨hshort, rfl, rfl⟩ | ⟨n, n', rfl, rfl, hless⟩ := hn.cases
    · exact .raise fun _ => hshort
    refine .peek fun tok _ _ => .ite (fun h => ?_) fun _ => .pure hitems
    refine (hitem tok h items).seq fun a ha => ?_
    have hmore : ∀ x ∈ items ++ [a], Q x :=
      forall_mem_append.mpr ⟨hitems, forall_mem_singleton.mpr ha⟩
    -- the next round is after a comma
    refine .optional (by decide) ?_ (.pure hmore)
    exact ih (fun tok h items => (hitem tok h items).less) hless hmore

theorem tracks_separatedBy {sep : TokenType} {item : Parse σ α} {item' : Parse Lex α}
    (hsep : sep ≠ .eof) (hitem : Tracks M anyToken k 1 item item') (hn : Bound M k n n') :
    Tracks M anyToken k 1 (separatedBy sep item n) (separatedBy sep item' n') := by
  induction k generalizing n n' with
  | zero => exact .zero
  | succ k ih =>
    obtain ⟨hshort, rfl, rfl⟩ | ⟨n, n', rfl, rfl, hless⟩ := hn.cases
    · exact .raise fun _ => hshort
    refine hitem.eat fun a _ => .optional hsep ?_ (.pure trivial)
    exact (ih hitem.less hless).keep.less.seq fun items _ => .pure trivial

theorem tracks_repeatWhile {item : Parse σ α} {item' : Parse Lex α}
    (hitem : Tracks M anyToken k 1 item item' Q) (hn : Bound M k n n') :
    Tracks M T k 0 (repeatWhile continues item n) (repeatWhile continues item' n')
      fun xs => ∀ x ∈ xs, Q x := by
  induction k generalizing n n' T with
  | zero => exact .zero
  | succ k ih =>
    obtain ⟨hshort, rfl, rfl⟩ | ⟨n, n', rfl, rfl, hless⟩ := hn.cases
    · exact .raise fun _ => hshort
    refine .peek fun tok _ _ => .ite (fun h => ?_) fun _ => .pure (by simp)
    refine (hitem.any.eat fun a ha => ?_).keep
    exact (ih hitem.less hless).seq fun items hitems =>
      .pure (forall_mem_cons.mpr ⟨ha, hitems⟩)

theorem tracks_identName :
    Tracks M T k 1 (Token.value <$> next .ident : Parse σ Bytes) (Token.value <$> next .ident) :=
  (tracks_next (by decide)).map fun _ h => h

theorem tracks_parseIdentList (hn : Bound M k n n') :
    Tracks M anyToken k 1 (parseIdentList n) (parseIdentList n') :=
  tracks_separatedBy (by decide) tracks_identName hn

end tokens

/-! ## Expressions -/

section expressions

variable {M} {T : Token → Prop} {k d n n' : ℕ} {mark : ℕ → P} {A : P → Prop}
  {r : Recursive σ P} {r' : Recursive Lex P}

theorem tracks_ofExcept {Q : α → Prop} {x : Except Error α}
    (h : Ends (fun err => err ≠ .outOfFuel) Q x) :
    Tracks M T k 0 (ofExcept x : Parse σ α) (ofExcept x) Q := by
  intro p hp
  match x, h with
  | .error err, h => exact .inl ⟨err, fun heq => absurd heq h, rfl, rfl⟩
  | .ok a, ha => exact .inr ⟨a, p, rfl, rfl, Goes.refl hp, ha⟩

/-- The parse functions that are called before they are defined, on less than `k` tokens. -/
structure RecTracks M (A : P → Prop) (k : ℕ) (r : Recursive σ P) (r' : Recursive Lex P) : Prop where
  expression {T : Token → Prop} : Tracks M T k 1 r.expression r'.expression (Annotated A)
  unconditional {T : Token → Prop} : Tracks M T k 1 r.unconditional r'.unconditional (Annotated A)
  value {T : Token → Prop} : Tracks M T k 1 r.value r'.value (Annotated A)
  identExpr {T : Token → Prop} : Tracks M T k 1 r.identExpr r'.identExpr (Annotated A ·.1)

theorem RecTracks.less (hr : RecTracks M A k r r') : RecTracks M A (k - 1) r r' :=
  ⟨hr.expression.less, hr.unconditional.less, hr.value.less, hr.identExpr.less⟩

omit [Unicode] in
/-- Each round of `parseFString` takes a brace at least. -/
theorem fStringVars_ends {pos : ℕ} {s : Bytes} (hn : s.length < n) :
    Ends (fun err => err ≠ .outOfFuel) (fun _ => True) (fStringVars n pos s) := by
  induction n generalizing pos s with
  | zero => omega
  | succ n ih =>
    rw [fStringVars]
    split
    · trivial
    · rename_i idx _
      dsimp only
      split
      · exact fun h => by cases h
      · rename_i hterm
        have hidx : (s.drop (idx + 1)).length ≠ 0 := fun h => hterm (by
          rw [h, eq_nil_of_length_eq_zero h]
          rfl)
        rw [length_drop] at hidx
        exact (ih (by rw [length_drop]; omega)).bind fun f _ => trivial

theorem tracks_parseFString : Tracks M T k 1 (parseFString : Parse σ FString) parseFString :=
  (tracks_ending (by decide)).eat fun tok _ =>
    tracks_ofExcept (fStringVars_ends (Nat.lt_succ_self _))

variable {tok : Token}

theorem tracks_isNamed : Tracks M (· = tok) k 0 (isNamed tok : Parse σ Bool) (isNamed tok) :=
  .ite (fun h => tracks_assignFollows fun _ ht => ht ▸ h) fun _ => .pure trivial

theorem tracks_parseInt (htok : tok.type ≠ .eof) :
    Tracks M (· = tok) k 1
      (parseInt tok : Parse σ (Node P .literal)) (parseInt tok) (Annotated A) := by
  refine .assert fun _ => ?_
  cases atoi tok.value with
  | none => exact .fail _ _
  | some => exact (tracks_consume htok).eat fun _ _ => .pure trivial

section

variable (hr : RecTracks M A k r r')
include hr

theorem tracks_parseCallArgument (args : List (Node P .callArgument)) :
    Tracks M T k 0 (parseCallArgument mark r args)
      (parseCallArgument mark r' args) (Annotated A) := by
  refine .peek fun tok _ _ => tracks_isNamed.seq fun named _ => ?_
  refine .ite (fun _ => ?_) fun _ => ?_
  · refine (tracks_next (by decide)).keep.seq fun _ _ => ?_
    refine (tracks_next (by decide)).keep.seq fun _ _ => ?_
    refine (tracks_assert _ _ _).seq fun _ _ => ?_
    exact hr.expression.keep.seq fun value hv => .pure hv
  · exact hr.expression.keep.seq fun value hv => .pure hv

theorem tracks_parseDictItem :
    Tracks M T k 0 (parseDictItem r) (parseDictItem r') (Annotated A) := by
  refine hr.expression.keep.seq fun key hk => ?_
  refine (tracks_next (by decide)).keep.seq fun _ _ => ?_
  exact hr.expression.keep.seq fun value hv => .pure ⟨hk, hv⟩

theorem tracks_parseSliceStart :
    Tracks M T k 0 (parseSliceStart r) (parseSliceStart r')
      fun x => ∀ e ∈ x.1, Annotated A e := by
  refine .optional (by decide) (.pure (by simp)) ?_
  refine hr.expression.keep.seq fun start hs => ?_
  exact (tracks_optional (by decide)).seq fun colon _ =>
    .pure fun _ h => Option.some.inj h ▸ hs

theorem tracks_parseLambdaArgument (htok : tok.type = .ident) :
    Tracks M (· = tok) k 0 (parseLambdaArgument r) (parseLambdaArgument r') (Annotated A) := by
  refine (tracks_take (htok ▸ by decide)).keep.seq fun tok _ => ?_
  exact (tracks_optionally_optional (by decide) hr.less.expression.keep).seq
    fun value hv => .pure (annotated_ofOption hv)

variable (hn : Bound M k n n')
include hn

theorem tracks_parseCall :
    Tracks M T k 1 (parseCall mark r n) (parseCall mark r' n') (Annotated A ·.1) := by
  refine (tracks_commaSeparated (fun _ _ args => tracks_parseCallArgument hr args) hn
    (by simp)).seq fun args hargs => ?_
  exact (tracks_ending (by decide)).eat fun tok _ => .pure (annotated_ofList hargs)

theorem tracks_parseActions {j j' : ℕ} (hj : Bound M k j j') (endPos : ℕ) :
    Tracks M T k 0 (parseActions mark r n j endPos)
      (parseActions mark r' n' j' endPos) fun x => ∀ a ∈ x.1, Annotated A a := by
  induction k generalizing j j' endPos T with
  | zero => exact .zero
  | succ k ih =>
    obtain ⟨hshort, rfl, rfl⟩ | ⟨j, j', rfl, rfl, hless⟩ := hj.cases
    · exact .raise fun _ => hshort
    have hrest (endPos : ℕ) : Tracks M anyToken k 0 (parseActions mark r n j endPos)
        (parseActions mark r' n' j' endPos) fun x => ∀ a ∈ x.1, Annotated A a :=
      ih hr.less hn.less hless endPos
    refine .peek fun tok _ _ => .ite (fun h => ?_) fun _ => .ite (fun h => ?_)
      fun _ => .pure (by simp)
    · refine ((tracks_take (h ▸ by decide)).eat fun _ _ => ?_).keep
      exact hr.less.identExpr.keep.seq fun x hx => (hrest x.2).seq fun y hy =>
        .pure (forall_mem_cons.mpr ⟨hx, hy⟩)
    · refine ((tracks_take (h ▸ by decide)).eat fun _ _ => ?_).keep
      exact (tracks_parseCall hr.less hn.less).keep.seq fun x hx => (hrest x.2).seq fun y hy =>
        .pure (forall_mem_cons.mpr ⟨hx, hy⟩)

theorem tracks_parseForClause :
    Tracks M anyToken k 1 (parseForClause r n) (parseForClause r' n') (Annotated A ·.2) := by
  refine (tracks_parseIdentList hn).eat fun names _ => ?_
  refine (tracks_nextv (by decide)).keep.seq fun _ _ => ?_
  exact hr.less.unconditional.keep.seq fun expr he => .pure he

theorem tracks_parseComprehension :
    Tracks M T k 1 (parseComprehension r n) (parseComprehension r' n') (Annotated A) := by
  have hclause := tracks_parseForClause hr hn
  have hsecond := hclause.keep.less.less.map (R := Annotated A)
    (g := fun (x : List Bytes × Expression P) => Node.secondComprehension x.1 x.2) fun _ h => h
  refine (tracks_nextv (by decide)).eat fun _ _ => ?_
  refine hclause.keep.less.seq fun first hfirst => ?_
  refine (tracks_optionally_optionalv (by decide) hsecond).seq fun second hs => ?_
  refine (tracks_optionally_optionalv (by decide) hr.less.less.unconditional.keep).seq
    fun cond hc => .pure ⟨hfirst, annotated_ofOption hs, annotated_ofOption hc⟩

theorem tracks_parseOptionalComprehension (single : Bool) (message : Bytes) :
    Tracks M T k 0 (parseOptionalComprehension r n single message)
      (parseOptionalComprehension r' n' single message) fun c => ∀ x ∈ c, Annotated A x := by
  refine .peek fun tok _ _ => .ite (fun _ => ?_) fun _ => .pure (by simp)
  refine (tracks_assert _ _ _).seq fun _ _ => ?_
  exact (tracks_parseComprehension hr hn).keep.map fun _ ha _ h => Option.some.inj h ▸ ha

end

section

variable (hr : RecTracks M A (k - 1) r r')
include hr

theorem tracks_parseSlice : Tracks M T k 1 (parseSlice r) (parseSlice r') (Annotated A) := by
  refine (tracks_next (by decide)).eat fun _ _ => ?_
  refine (tracks_parseSliceStart hr).seq fun start hs => ?_
  refine .peek fun tok _ _ => .ite (fun h => ?_) fun _ => ?_
  · exact (tracks_consume (h ▸ by decide)).keep.seq fun _ _ =>
      .pure ⟨annotated_ofOption hs, trivial⟩
  · refine hr.expression.keep.seq fun stop hstop => ?_
    exact (tracks_ending (by decide)).keep.seq fun _ _ =>
      .pure ⟨annotated_ofOption hs, hstop⟩

variable (hn : Bound M (k - 1) n n')
include hn

theorem tracks_parseIdentExpr :
    Tracks M T k 1 (parseIdentExpr mark r n) (parseIdentExpr mark r' n') (Annotated A ·.1) := by
  refine (tracks_next (by decide)).eat fun tok _ => ?_
  exact (tracks_parseActions hr hn hn 0).seq fun x hx => .pure (annotated_ofList hx)

theorem tracks_parseIdent :
    Tracks M T k 1 (parseIdent mark r n) (parseIdent mark r' n') (Annotated A) :=
  (tracks_parseIdentExpr hr hn).eat fun _ hx => .setEndPos (.pure hx)

theorem tracks_parseList (opening closing : Char) :
    Tracks M T k 1 (parseList r n opening closing)
      (parseList r' n' opening closing) (Annotated A) := by
  refine (tracks_next (by simp)).eat fun _ _ => ?_
  refine (tracks_commaSeparated (fun _ _ _ => hr.expression.keep) hn (by simp)).seq
    fun values hv => ?_
  refine (tracks_parseOptionalComprehension hr hn _ _).seq fun c hc => ?_
  exact (tracks_ending (by simp)).keep.seq fun _ _ =>
    .pure ⟨annotated_ofList hv, annotated_ofOption hc⟩

theorem tracks_parseDict : Tracks M T k 1 (parseDict r n) (parseDict r' n') (Annotated A) := by
  refine (tracks_next (by decide)).eat fun _ _ => ?_
  refine (tracks_commaSeparated (fun _ _ _ => tracks_parseDictItem hr) hn (by simp)).seq
    fun items hi => ?_
  refine (tracks_parseOptionalComprehension hr hn _ _).seq fun c hc => ?_
  exact (tracks_ending (by decide)).keep.seq fun _ _ =>
    .pure ⟨annotated_ofList hi, annotated_ofOption hc⟩

theorem tracks_parseLambda :
    Tracks M T k 1 (parseLambda r n) (parseLambda r' n') (Annotated A) := by
  refine (tracks_nextv (by decide)).eat fun _ _ => ?_
  refine (tracks_commaSeparated (fun tok h _ => tracks_parseLambdaArgument hr (by simpa using h))
    hn (by simp)).seq fun arguments ha => ?_
  refine (tracks_next (by decide)).keep.seq fun _ _ => ?_
  exact hr.expression.keep.seq fun expr he => .pure ⟨annotated_ofList ha, he⟩

theorem tracks_parseLiteral (htok : ¬ tok.type.InLine → tok.value = []) :
    Tracks M (· = tok) k 1 (parseLiteral mark r n tok)
      (parseLiteral mark r' n' tok) (Annotated A) := by
  have hconst {v : Bytes} (hv : v ≠ []) (h : tok.value = v) {literal : Node P .literal}
      (hl : Annotated A literal) : Tracks M (· = tok) k 1
      (parseConstant tok literal : Parse σ (Node P .literal)) (parseConstant tok literal)
      (Annotated A) := (tracks_consume (ne_eof_of_value htok h hv)).eat fun _ _ => .pure hl
  refine .ite (fun h => tracks_parseInt (h ▸ by decide)) fun _ => ?_
  refine .ite (fun h => hconst (by decide) h trivial) fun _ => ?_
  refine .ite (fun h => hconst (by decide) h trivial) fun _ => ?_
  refine .ite (fun h => hconst (by decide) h trivial) fun _ => ?_
  refine .ite (fun _ => (tracks_parseList hr hn _ _).map fun _ h => h) fun _ => ?_
  refine .ite (fun _ => (tracks_parseList hr hn _ _).map fun _ h => h) fun _ => ?_
  refine .ite (fun _ => (tracks_parseDict hr hn).map fun _ h => h) fun _ => ?_
  refine .ite (fun _ => (tracks_parseLambda hr hn).map fun _ h => h) fun _ => ?_
  refine .ite (fun _ => (tracks_parseIdent hr hn).map fun _ h => h) fun _ => ?_
  exact .fail _ _

end

theorem tracks_parseTrailers (hr : RecTracks M A k r r') (hn : Bound M k n n')
    {literal : Node P .literal} (hl : Annotated A literal) :
    Tracks M T k 0 (parseTrailers mark r n literal)
      (parseTrailers mark r' n' literal) (Annotated A) := by
  refine (tracks_repeatWhile (tracks_parseSlice hr.less) hn).seq fun slices hs => ?_
  refine .optional (by decide) ?_ ?_
  · exact (tracks_parseIdent hr.less.less hn.less.less).keep.seq fun property hp =>
      .pure ⟨hl, annotated_ofList hs, hp, trivial⟩
  refine .optional (by decide) ?_
    (.pure ⟨hl, annotated_ofList hs, trivial, trivial⟩)
  exact (tracks_parseCall hr.less hn.less).keep.seq fun call hc =>
    .pure ⟨hl, annotated_ofList hs, trivial, hc⟩

theorem tracks_parseString (htok : tok.type = .string) :
    Tracks M (· = tok) k 1
      (parseString tok : Parse σ (Node P .literal)) (parseString tok) (Annotated A) := by
  refine .ite (fun _ => tracks_parseFString.map fun _ _ => trivial) fun _ => ?_
  exact (tracks_consume (htok ▸ by decide)).eat fun _ _ => .pure trivial

omit [Unicode] in
theorem concatStrings_ends {lhs rhs : Node P .valueExpression} (hl : Annotated A lhs)
    (hr : Annotated A rhs) :
    Ends (fun err => err ≠ .outOfFuel) (Annotated A) (concatStrings lhs rhs) := by
  have hunquote (s : Bytes) :
      Ends (fun err => err ≠ Error.outOfFuel) (fun _ => True) (unquote s) := by
    unfold unquote
    split
    · exact fun h => by cases h
    · trivial
  cases lhs with
  | valueExpression _ slices prop call =>
    cases rhs with
    | valueExpression _ slices' prop' call' =>
      have hleft : Annotated A slices ∧ Annotated A prop ∧ Annotated A call := hl.2
      have hright : Annotated A slices' ∧ Annotated A prop' ∧ Annotated A call' := hr.2
      unfold concatStrings
      dsimp only
      split
      · split
        · exact ⟨trivial, hleft⟩
        · exact ⟨trivial, hright⟩
      · exact (hunquote _).bind fun _ _ => ⟨trivial, hleft⟩
      · split
        · exact fun h => by cases h
        · exact (hunquote _).bind fun _ _ => ⟨trivial, hright⟩
      · exact (hunquote _).bind fun _ _ => (hunquote _).bind fun _ _ => ⟨trivial, hleft⟩
      · exact fun h => by cases h

theorem tracks_parseValueExpression (hr : RecTracks M A (k - 1) r r')
    (hn : Bound M (k - 1) n n') :
    Tracks M T k 1 (parseValueExpression mark r n)
      (parseValueExpression mark r' n') (Annotated A) := by
  refine .peek fun tok _ htok => .ite (fun h => ?_) fun _ => ?_
  · refine (tracks_parseString (A := A) h).eat fun literal hl => .peek fun following _ _ => ?_
    refine .ite (fun _ => ?_) fun _ => tracks_parseTrailers hr hn hl
    have hlhs : Annotated A (.valueExpression literal .nil .absent .absent) :=
      ⟨hl, trivial, trivial, trivial⟩
    exact hr.value.keep.seq fun rhs hrhs => tracks_ofExcept (concatStrings_ends hlhs hrhs)
  · exact (tracks_parseLiteral hr hn htok).eat fun literal hl => tracks_parseTrailers hr hn hl

theorem tracks_parseUnary (htok : ¬ tok.type.InLine → tok.value = []) :
    Tracks M (· = tok) k 0
      (parseUnary tok : Parse σ (List (Node P .opExpression))) (parseUnary tok)
      fun ops => ∀ op ∈ ops, Annotated A op := by
  refine .ite (fun h => ?_) fun _ => .ite (fun h => ?_) fun _ => .pure (by simp)
  · exact (tracks_take (h ▸ by decide)).keep.seq fun _ _ =>
      .pure (forall_mem_singleton.mpr trivial)
  · exact (tracks_take (ne_eof_of_value htok h (by decide))).keep.seq fun _ _ =>
      .pure (forall_mem_singleton.mpr trivial)

/-- The operator that is recognised is a token with a text, which has not been taken yet. -/
theorem tracks_parseOperatorValue {f : Bytes → Parse σ β} {f' : Bytes → Parse Lex β}
    {R : β → Prop} (hf : ∀ value tok, (value ≠ [] → tok.type ≠ .eof) →
      Tracks M (· = tok) k 0 (f value) (f' value) R) :
    Tracks M T k 0 (parseOperatorValue >>= f) (parseOperatorValue >>= f') R := by
  simp only [parseOperatorValue, bind_assoc, apply_ite (· >>= f), apply_ite (· >>= f'), pure_bind]
  refine .peek fun tok _ htok => .ite (fun h => ?_) fun _ => ?_
  · refine (tracks_take (ne_eof_of_value htok h (by decide))).keep.seq fun _ _ => ?_
    refine .peek fun tok' _ htok' => .assert fun hin => .setEndPos ?_
    exact hf _ tok' fun _ => ne_eof_of_value htok' (by simpa using hin) (by decide)
  · exact hf _ tok fun hne => ne_eof_of_value htok rfl hne

theorem tracks_parseIs (op : Operator) :
    Tracks M T k 0 (parseIs op : Parse σ Operator) (parseIs op) := by
  refine .ite (fun _ => ?_) fun _ => .pure trivial
  refine .peek fun tok _ htok => .ite (fun h => ?_) fun _ => .pure trivial
  refine .setEndPos ?_
  exact (tracks_take (ne_eof_of_value htok h (by decide))).keep.seq fun _ _ => .pure trivial

theorem tracks_parseUnconditionalExpression (hmark : ∀ pos, A (mark pos))
    (hvalue : Tracks M anyToken k 1 r.value r'.value (Annotated A))
    (hrest : Tracks M anyToken (k - 1) 1 r.unconditional r'.unconditional (Annotated A)) :
    Tracks M T k 1 (parseUnconditionalExpression mark r)
      (parseUnconditionalExpression mark r') (Annotated A) := by
  refine .peek fun tok _ htok => (tracks_parseUnary (A := A) htok).seq fun unary hunary => ?_
  refine hvalue.eat fun val hval => tracks_parseOperatorValue fun value tok' hvalue => ?_
  cases hop : operators value with
  | none => exact .pure ⟨hmark _, hval, annotated_ofList hunary, trivial⟩
  | some op =>
    have hne : value ≠ [] := by
      rintro rfl
      have hnone : operators [] = none := by decide
      cases hop
    refine (tracks_take (hvalue hne)).keep.seq fun _ _ => (tracks_parseIs op).seq fun op _ => ?_
    refine hrest.keep.seq fun operand ho => .pure ⟨hmark _, hval, ?_, trivial⟩
    cases unary with
    | nil => exact annotated_hoist ho
    | cons u => exact ⟨hunary u mem_cons_self, annotated_hoist ho⟩

theorem tracks_parseInlineIf
    (he : Tracks M anyToken (k - 1) 1 r.expression r'.expression (Annotated A)) :
    Tracks M T k 0 (parseInlineIf r) (parseInlineIf r') fun x => ∀ a ∈ x, Annotated A a := by
  refine tracks_optionally_optionalv (by decide) ?_
  refine he.keep.seq fun condition hc => ?_
  refine (tracks_nextv (by decide)).keep.seq fun _ _ => ?_
  exact he.keep.seq fun otherwise ho => .pure ⟨hc, ho⟩

theorem tracks_parseExpression
    (hu : Tracks M T k 1 r.unconditional r'.unconditional (Annotated A))
    (he : Tracks M anyToken (k - 1) 1 r.expression r'.expression (Annotated A)) :
    Tracks M T k 1 (parseExpression mark r) (parseExpression mark r') (Annotated A) := by
  refine hu.eat fun expr hexpr => (tracks_parseInlineIf he.less).seq fun inlineIf hif => ?_
  refine .getEndPos fun endPos => .pure ?_
  obtain ⟨pos, endPos, val, ops, _⟩ := expr
  exact ⟨hexpr.1, hexpr.2.1, hexpr.2.2.1, annotated_ofOption hif⟩

/-- The bounds that the parse functions need on less than `k` tokens. Calls of
`parseExpression`, `parseUnconditionalExpression` and `parseValueExpression` are nested before
a token is taken. -/
structure Deep (M : Mirror σ) (A : P → Prop) (n n' k : ℕ) (r : Recursive σ P)
    (r' : Recursive Lex P) : Prop where
  expression : Bound M (3 * k) n n' → ∀ T, Tracks M T k 1 r.expression r'.expression (Annotated A)
  unconditional : Bound M (3 * k - 1) n n' →
    ∀ T, Tracks M T k 1 r.unconditional r'.unconditional (Annotated A)
  value : Bound M (3 * k - 2) n n' → ∀ T, Tracks M T k 1 r.value r'.value (Annotated A)
  identExpr : Bound M (3 * k - 2) n n' →
    ∀ T, Tracks M T k 1 r.identExpr r'.identExpr (Annotated A ·.1)

theorem Deep.tracks (h : Deep M A n n' k r r') (hn : Bound M (3 * k) n n') : RecTracks M A k r r' :=
  ⟨h.expression hn _, h.unconditional (hn.mono (by omega)) _, h.value (hn.mono (by omega)) _,
    h.identExpr (hn.mono (by omega)) _⟩

theorem Deep.zero : Deep M A n n' 0 r r' :=
  ⟨fun _ _ => .zero, fun _ _ => .zero, fun _ _ => .zero, fun _ _ => .zero⟩

theorem deep_recursive (hmark : ∀ pos, A (mark pos)) (k : ℕ) :
    Deep M A n n' k (recursive mark n : Recursive σ P) (recursive mark n') := by
  induction n generalizing n' k with
  | zero =>
    obtain rfl | hk := k.eq_zero_or_pos
    · exact Deep.zero
    refine ⟨fun hn _ => ?_, fun hn _ => ?_, fun hn _ => ?_, fun hn _ => ?_⟩ <;>
      obtain ⟨hshort, rfl⟩ := hn.of_zero (by omega) <;> exact .raise fun _ => hshort
  | succ n ih =>
    obtain rfl | hk := k.eq_zero_or_pos
    · exact Deep.zero
    refine ⟨fun hn T => ?_, fun hn T => ?_, fun hn T => ?_, fun hn T => ?_⟩ <;>
      obtain ⟨n', rfl, hless⟩ := hn.of_succ (by omega)
    · exact tracks_parseExpression ((ih k).unconditional (hless.mono (by omega)) T)
        ((ih (k - 1)).expression (hless.mono (by omega)) _)
    · exact tracks_parseUnconditionalExpression hmark ((ih k).value (hless.mono (by omega)) _)
        ((ih (k - 1)).unconditional (hless.mono (by omega)) _)
    · exact tracks_parseValueExpression ((ih (k - 1)).tracks (hless.mono (by omega)))
        (hless.mono (by omega))
    · exact tracks_parseIdentExpr ((ih (k - 1)).tracks (hless.mono (by omega)))
        (hless.mono (by omega))

theorem tracks_recursive (hmark : ∀ pos, A (mark pos)) (hn : Bound M (3 * k) n n') :
    RecTracks M A k (recursive mark n : Recursive σ P) (recursive mark n') :=
  (deep_recursive hmark k).tracks hn

end expressions

/-! ## Statements -/

section statements

variable {M} {T : Token → Prop} {k n n' : ℕ} {mark : ℕ → P} {A : P → Prop}
  {r : Recursive σ P} {r' : Recursive Lex P}

omit [Unicode] in
/-- Nothing that follows an identifier ends the line. -/
theorem parseIdentAction_of_mark {σ : Type} [TokenSource σ] (r : Recursive σ P) (name : Bytes)
    {tok : Token} (hmark : ¬ tok.type.InLine) (hvalue : tok.value = []) :
    parseIdentAction mark r n name tok = raise (.fail tok.pos
      (utf8 "Unexpected token " ++ tok.string ++ utf8 ", expected one of , [ . ( = +=")) := by
  have hne (c : Char) : tok.type ≠ .char c := fun h => hmark (h ▸ inLine_char c)
  have hplus : decide (tok.value = utf8 "+=") = false := by
    rw [hvalue]
    decide
  rw [parseIdentAction, if_neg (hne _), if_neg (hne _), if_neg (hne _), if_neg (hne _),
    if_neg (hne _), hplus]
  rfl

variable {b : Bool} {tok : Token}

theorem tracks_parseReturnType :
    Tracks M T k 0 (parseReturnType : Parse σ Bytes)
      parseReturnType := by
  refine .peek fun tok _ _ => .ite (fun _ => ?_) fun _ => .pure trivial
  refine (tracks_next (by decide)).keep.seq fun _ _ => ?_
  refine (tracks_next (by decide)).keep.seq fun _ _ => ?_
  exact ((tracks_oneofval (by decide)).map fun _ h => h).keep

theorem tracks_eol : Tracks M T k 1 (next .eol : Parse σ Token) (next .eol) :=
  tracks_next (by decide)

theorem tracks_parseDocstring : Tracks M T k 0 (parseDocstring : Parse σ Bytes) parseDocstring := by
  refine .peek fun tok _ _ => .ite (fun h => ?_) fun _ => .pure trivial
  refine (tracks_consume (h ▸ by decide)).keep.seq fun _ _ => ?_
  exact tracks_eol.keep.seq fun _ _ => .pure trivial

theorem tracks_parseElseHeader :
    Tracks M T k 1 (parseElseHeader : Parse σ (ℕ × ℕ)) parseElseHeader := by
  refine (tracks_nextv (by decide)).eat fun tok _ => ?_
  refine (tracks_next (by decide)).keep.seq fun colon _ => ?_
  exact tracks_eol.keep.seq fun _ _ => .pure trivial

theorem tracks_parseKeyword (htok : tok.type ≠ .eof) {body : Body P} (hbody : PlacedBody A b body) :
    Tracks M (· = tok) k 1 (parseKeyword tok body : Parse σ (Body P))
      (parseKeyword tok body) (PlacedBody A b) :=
  (tracks_consume htok).eat fun _ _ => .pure hbody

/-- The flag is read and checked before the keyword is accepted. -/
theorem tracks_parseLoopKeyword (htok : tok.type ≠ .eof) (message : Bytes) {body : Body P}
    (hbody : M.inFor = true → PlacedBody A M.inFor body) :
    Tracks M (· = tok) k 1
      (parseLoopKeyword tok message body : Parse σ (Body P))
      (parseLoopKeyword tok message body) (PlacedBody A M.inFor) :=
  .still (Q := (· = M.inFor)) (fun p => ⟨p.inFor, p, rfl, rfl, rfl, rfl, fun h => h⟩)
    fun _ hin => .assert fun hc => tracks_parseKeyword htok (hbody (hin ▸ hc))

section

variable (hr : RecTracks M A k r r')
include hr

theorem tracks_parseIndexAssignment (name : Bytes) :
    Tracks M T k 0 (parseIndexAssignment r name)
      (parseIndexAssignment r' name) (AnnotatedIdent A) := by
  refine hr.expression.keep.seq fun index hi => ?_
  refine (tracks_ending (by decide)).keep.seq fun _ _ => ?_
  refine (tracks_oneofval (by decide)).keep.seq fun tok _ => ?_
  refine hr.expression.keep.seq fun value hv => .pure ?_
  split
  · exact ⟨hi, hv⟩
  · exact ⟨hi, hv⟩

theorem tracks_parseDefault (name : Bytes) (types aliases : List Bytes) :
    Tracks M T k 0 (parseDefault r name types aliases)
      (parseDefault r' name types aliases) (Annotated A) :=
  hr.expression.keep.seq fun _ he => .pure he

theorem tracks_parseCondition {keyword : Bytes} (hk : keyword ≠ []) :
    Tracks M T k 1 (parseCondition r keyword) (parseCondition r' keyword)
      (Annotated A ·.2.2) := by
  refine (tracks_nextv hk).eat fun tok _ => ?_
  refine hr.less.expression.keep.seq fun condition hc => ?_
  refine (tracks_next (by decide)).keep.seq fun colon _ => ?_
  exact tracks_eol.keep.seq fun _ _ => .pure hc

theorem tracks_parseRaise (htok : tok.type ≠ .eof) :
    Tracks M (· = tok) k 1 (parseRaise r) (parseRaise r') (PlacedBody A b) :=
  (tracks_take htok).eat fun _ _ => hr.less.expression.keep.map fun _ h => h

theorem tracks_parseAssert (htok : tok.type ≠ .eof) :
    Tracks M (· = tok) k 1 (parseAssert r) (parseAssert r') (PlacedBody A b) := by
  refine (tracks_take htok).eat fun _ _ => ?_
  refine hr.less.expression.keep.seq fun expr he => ?_
  exact (tracks_optionally_optional (by decide) hr.less.less.expression.keep).seq
    fun message hm => .pure ⟨he, hm⟩

variable (hn : Bound M k n n')
include hn

theorem tracks_parseIdentAction (name : Bytes) (tok : Token) :
    Tracks M T k 0 (parseIdentAction mark r n name tok)
      (parseIdentAction mark r' n' name tok) (AnnotatedIdent A) := by
  refine .ite (fun _ => ?_) fun _ => ?_
  · refine (tracks_parseIdentList hn).keep.any.seq fun names _ => ?_
    refine (tracks_next (by decide)).keep.seq fun _ _ => ?_
    exact hr.expression.keep.seq fun expr he => .pure he
  refine .ite (fun _ => tracks_parseIndexAssignment hr name) fun _ => ?_
  refine .ite (fun _ => (tracks_parseIdent hr.less hn.less).keep.map fun _ h => h) fun _ => ?_
  refine .ite (fun _ => ?_) fun _ => ?_
  · have hcall : Tracks M T k 0 (Prod.fst <$> parseCall mark r n)
        (Prod.fst <$> parseCall mark r' n') (Annotated A) :=
      (tracks_parseCall hr hn).keep.map fun _ h => h
    exact hcall.map fun _ h => h
  refine .ite (fun _ => hr.expression.keep.map fun _ h => h) fun _ => ?_
  exact .assert fun _ => hr.expression.keep.map fun _ h => h

theorem tracks_parseIdentStatement :
    Tracks M T k 1 (parseIdentStatement mark r n)
      (parseIdentStatement mark r' n') (AnnotatedIdent A) := by
  refine (tracks_next (by decide)).eat fun tok _ => ?_
  refine (tracks_assert _ _ _).seq fun _ _ => Tracks.peek fun action _ haction => ?_
  refine Tracks.ite (fun _ => Tracks.pure trivial) fun _ =>
    (Tracks.takes fun action _ haction => ?_).keep
  by_cases hin : action.type.InLine
  · exact .inl ⟨hin.1, tracks_parseIdentAction hr.less.less hn.less.less _ _⟩
  · exact .inr ⟨_, fun h => (by cases h), parseIdentAction_of_mark r _ hin (haction hin),
      parseIdentAction_of_mark r' _ hin (haction hin)⟩

theorem tracks_parseReturn (htok : tok.type ≠ .eof) :
    Tracks M (· = tok) k 1 (parseReturn r n tok) (parseReturn r' n' tok) (PlacedBody A b) := by
  refine (tracks_consume htok).eat fun _ _ => ?_
  exact (tracks_commaSeparated (fun _ _ _ => hr.less.expression.keep) hn.less (by simp)).map
    fun _ h => h

theorem tracks_parseAliases (name : Bytes) (types : List Bytes) :
    Tracks M T k 0 (parseAliases r n name types)
      (parseAliases r' n' name types) (Annotated A) := by
  refine (tracks_separatedBy (by decide) tracks_identName hn).keep.any.seq fun aliases _ => ?_
  refine .peek fun tok _ _ => .ite (fun _ => .pure trivial) fun _ => ?_
  refine (tracks_next (by decide)).keep.seq fun _ _ => ?_
  exact tracks_parseDefault hr _ _ _

theorem tracks_parseArgument :
    Tracks M T k 0 (parseArgument r n) (parseArgument r' n') (Annotated A) := by
  have htypes : Tracks M anyToken k 1
      (Token.value <$> (oneofval argumentTypeNames : Parse σ Token))
      (Token.value <$> oneofval argumentTypeNames) :=
    (tracks_oneofval (by decide)).map fun _ h => h
  refine tracks_identName.keep.seq fun name _ => ?_
  refine .peek fun tok _ _ => .ite (fun _ => .pure trivial) fun _ => ?_
  refine (tracks_oneof (by decide)).keep.seq fun tok _ => .ite (fun _ => ?_) fun _ => ?_
  · refine (tracks_separatedBy (by decide) htypes hn).keep.seq fun types _ => ?_
    refine .peek fun tok _ _ => .ite (fun _ => .pure trivial) fun _ => ?_
    refine (tracks_oneof (by decide)).keep.seq fun tok _ => .ite (fun _ => ?_) fun _ => ?_
    · exact tracks_parseAliases hr hn _ _
    · exact tracks_parseDefault hr _ _ _
  · refine .ite (fun _ => tracks_parseAliases hr hn _ _) fun _ => ?_
    exact tracks_parseDefault hr _ _ _

theorem tracks_parseFuncHeader :
    Tracks M T k 1 (parseFuncHeader r n) (parseFuncHeader r' n')
      fun x => ∀ arg ∈ x.2.1, Annotated A arg := by
  refine (tracks_nextv (by decide)).eat fun _ _ => ?_
  refine tracks_identName.keep.seq fun name _ => ?_
  refine (tracks_next (by decide)).keep.seq fun _ _ => ?_
  refine (tracks_commaSeparated (fun _ _ _ => tracks_parseArgument hr.less hn.less) hn.less
    (by simp)).seq fun arguments ha => ?_
  refine (tracks_next (by decide)).keep.seq fun _ _ => ?_
  refine tracks_parseReturnType.seq fun ret _ => ?_
  refine (tracks_next (by decide)).keep.seq fun colon _ => ?_
  exact tracks_eol.keep.seq fun _ _ => .pure ha

theorem tracks_parseForHeader :
    Tracks M T k 1 (parseForHeader r n) (parseForHeader r' n') (Annotated A ·.2) := by
  refine (tracks_nextv (by decide)).eat fun _ _ => ?_
  refine (tracks_parseIdentList hn.less).keep.any.seq fun names _ => ?_
  refine (tracks_nextv (by decide)).keep.seq fun _ _ => ?_
  refine hr.less.expression.keep.seq fun expr he => ?_
  refine (tracks_next (by decide)).keep.seq fun colon _ => ?_
  exact tracks_eol.keep.seq fun _ _ => .pure he

theorem tracks_parseSimple (htok : ¬ tok.type.InLine → tok.value = []) :
    Tracks M (· = tok) k 1 (parseSimple mark r n tok)
      (parseSimple mark r' n' tok) (PlacedBody A M.inFor) := by
  have hin {v : Bytes} (h : tok.value = v) (hv : v ≠ []) := ne_eof_of_value htok h hv
  refine .ite (fun h => tracks_parseKeyword (hin h (by decide)) trivial) fun _ => ?_
  refine .ite (fun h => tracks_parseLoopKeyword (hin h (by decide)) _ fun h => h) fun _ => ?_
  refine .ite (fun h => tracks_parseLoopKeyword (hin h (by decide)) _ fun h => h) fun _ => ?_
  refine .ite (fun h => tracks_parseReturn hr hn (hin h (by decide))) fun _ => ?_
  refine .ite (fun h => tracks_parseRaise hr (hin h (by decide))) fun _ => ?_
  refine .ite (fun h => tracks_parseAssert hr (hin h (by decide))) fun _ => ?_
  refine .ite (fun _ => (tracks_parseIdentStatement hr hn).map fun _ h => h) fun _ => ?_
  exact hr.expression.map fun _ h => h

end

variable {block : Parse σ (List (Statement P))} {block' : Parse Lex (List (Statement P))}

section

variable (hr : RecTracks M A k r r')
include hr

/-- The body of a function is in no loop. -/
theorem tracks_parseFuncDef (hn : Bound M k n n')
    (hblock : Tracks M anyToken (k - 1) 0 block block' (Placed A false)) :
    Tracks M T k 1 (parseFuncDef r n block) (parseFuncDef r' n' block') (PlacedBody A b) := by
  refine (tracks_parseFuncHeader hr hn).eat fun header ha => ?_
  refine tracks_parseDocstring.seq fun docstring _ => ?_
  exact hblock.seq fun statements hs => .pure ⟨ha, hs⟩

theorem tracks_parseClause (hblock : Tracks M anyToken (k - 1) 0 block block' (Placed A b))
    {keyword : Bytes} (hk : keyword ≠ []) :
    Tracks M T k 1 (parseClause r block keyword) (parseClause r' block' keyword)
      (PlacedClause A b) :=
  (tracks_parseCondition hr hk).eat fun _ hc => hblock.seq fun _ hs => .pure ⟨hc, hs⟩

theorem tracks_parseIf (hn : Bound M k n n')
    (hblock : Tracks M anyToken (k - 1) 0 block block' (Placed A b)) :
    Tracks M T k 1 (parseIf r n block) (parseIf r' n' block') (PlacedBody A b) := by
  refine (tracks_parseClause hr hblock (by decide)).eat fun first hfirst => ?_
  refine (tracks_repeatWhile (tracks_parseClause hr hblock (by decide)) hn).less.seq
    fun elif helif => ?_
  have hclauses := placedClauses_iff.mpr helif
  refine .peek fun tok _ _ => .ite (fun _ => ?_) fun _ =>
    .pure ⟨hfirst, hclauses, trivial⟩
  refine tracks_parseElseHeader.keep.seq fun header _ => ?_
  exact hblock.seq fun statements hs => .pure ⟨hfirst, hclauses, hs⟩

theorem tracks_parseFor (hn : Bound M k n n')
    (hblock : Tracks M anyToken (k - 1) 0 block block' (Placed A true)) :
    Tracks M T k 1 (parseFor r n block) (parseFor r' n' block') (PlacedBody A b) :=
  (tracks_parseForHeader hr hn).eat fun _ he => hblock.seq fun _ hs => .pure ⟨he, hs⟩

end

theorem tracks_withInFor {d : ℕ} {m : Parse σ α} {m' : Parse Lex α} {Q : α → Prop}
    {inFor : Bool} (h : Tracks (M.within inFor) T k d m m' Q) :
    Tracks M T k d (withInFor inFor m) (withInFor inFor m') Q := by
  intro p hp
  have hrun {τ : Type} (m : Parse τ α) (p : Parser τ) : withInFor inFor m p = (do
      let r ← m { p with inFor }
      return (r.1, { r.2 with inFor := p.inFor })) := rfl
  rw [hrun, hrun]
  obtain ⟨err, herr, hm, hm'⟩ | ⟨a, q, hm, hm', hgo, ha⟩ :=
    h { p with inFor } ⟨hp.live, hp.good, rfl, hp.size, hp.tok⟩
  · have hm' : m' { M.plain p with inFor } = .error err := hm'
    rw [hm, hm']
    exact .inl ⟨err, herr, rfl, rfl⟩
  · have hm' : m' { M.plain p with inFor } = .ok (a, M.plain q) := hm'
    rw [hm, hm']
    exact .inr ⟨a, { q with inFor := p.inFor }, rfl, rfl,
      ⟨hgo.live, hgo.good, hp.inFor, hgo.size⟩, ha⟩

theorem tracks_parseStatement (hr : ∀ b, RecTracks (M.within b) A k r r') (hn : Bound M k n n')
    (hblock : ∀ b, Tracks (M.within b) anyToken (k - 1) 0 block block' (Placed A b)) :
    Tracks M T k 1 (parseStatement mark r n block) (parseStatement mark r' n' block')
      (PlacedStatement A M.inFor) := by
  refine .peek fun tok _ htok => ?_
  have hbody : Tracks M (· = tok) k 1 (parseBody mark r n block tok)
      (parseBody mark r' n' block' tok) (PlacedBody A M.inFor) := by
    refine .ite
      (fun _ => tracks_withInFor (tracks_parseFuncDef (hr false) hn (hblock false))) fun _ => ?_
    refine .ite
      (fun _ => tracks_withInFor (tracks_parseFor (hr true) hn (hblock true))) fun _ => ?_
    refine .ite (fun _ => tracks_parseIf (hr M.inFor) hn (hblock M.inFor)) fun _ => ?_
    refine (tracks_parseSimple (hr M.inFor) hn htok).eat fun body hb => ?_
    exact tracks_eol.keep.seq fun _ _ => .pure hb
  refine hbody.eat fun body hb => ?_
  exact .getEndPos fun endPos => .pure hb

end statements

/-! ## Files -/

section files

variable {M} {T : Token → Prop} {k n n' : ℕ} {mark : ℕ → P} {A : P → Prop}

theorem Tracks.anythingBut {d : ℕ} {type : TokenType} {f : Bool → Parse σ α}
    {f' : Bool → Parse Lex α} {Q : α → Prop} (h : ∀ b, Tracks M T k d (f b) (f' b) Q) :
    Tracks M T k d (anythingBut type >>= f) (anythingBut type >>= f') Q := by
  refine .still (Q := fun _ => True) (fun p =>
    ⟨decide ((M.lex p.l).peek.type ≠ type), p, ?_, rfl, rfl, rfl, fun _ => trivial⟩) fun b _ => h b
  show (do let tok ← Syntax.peek; return decide (tok.type ≠ type) : Parse σ Bool) p = _
  rw [bind_of_ok (peek_eq_peek p)]
  rfl

theorem tracks_parseStatements (hmark : ∀ pos, A (mark pos)) (hn : Bound M (3 * k + 1) n n') :
    Tracks M T k 0 (parseStatements mark n : Parse σ (List (Statement P)))
      (parseStatements mark n') (Placed A M.inFor) := by
  induction n generalizing n' k T M with
  | zero =>
    obtain ⟨hshort, rfl⟩ := hn.of_zero (Nat.succ_pos _)
    exact .raise fun _ => hshort
  | succ n ih =>
    obtain rfl | hk := k.eq_zero_or_pos
    · exact .zero
    obtain ⟨n', rfl, hless⟩ := hn.of_succ (Nat.succ_pos _)
    have hrest (b : Bool) : Tracks (M.within b) anyToken (k - 1) 0
        (parseStatements mark n : Parse σ (List (Statement P))) (parseStatements mark n')
        (Placed A b) :=
      ih (hless.mono (by omega))
    refine .anythingBut fun b => .ite (fun _ => ?_) fun _ => ?_
    · have hr (b : Bool) : RecTracks (M.within b) A k (recursive mark n : Recursive σ P)
          (recursive mark n') := tracks_recursive hmark hless
      refine ((tracks_parseStatement hr (hless.mono (by omega)) hrest).eat fun stmt hs => ?_).keep
      exact (hrest M.inFor).seq fun stmts hss => .pure ⟨hs, hss⟩
    · exact (tracks_next (by decide)).keep.seq fun _ _ => .pure trivial

theorem tracks_parseFile (hmark : ∀ pos, A (mark pos)) (hn : Bound M (3 * k + 1) n n') :
    Tracks M T k 0 (parseFile mark n : Parse σ (List (Statement P))) (parseFile mark n')
      (Placed A M.inFor) := by
  induction n generalizing n' k T with
  | zero =>
    obtain ⟨hshort, rfl⟩ := hn.of_zero (Nat.succ_pos _)
    exact .raise fun _ => hshort
  | succ n ih =>
    obtain rfl | hk := k.eq_zero_or_pos
    · exact .zero
    obtain ⟨n', rfl, hless⟩ := hn.of_succ (Nat.succ_pos _)
    refine .anythingBut fun b => .ite (fun _ => ?_) fun _ => .pure trivial
    have hr (b : Bool) : RecTracks (M.within b) A k (recursive mark n : Recursive σ P)
        (recursive mark n') := tracks_recursive hmark hless
    refine ((tracks_parseStatement hr (hless.mono (by omega))
      fun b => tracks_parseStatements hmark (hless.mono (by omega))).eat fun stmt hs => ?_).keep
    exact (ih (hless.mono (by omega))).seq fun stmts hss => .pure ⟨hs, hss⟩

end files

end Mirror

/-! ## The lexer under watch -/

section watched

variable {n n' : ℕ}

/-- The lexer under watch does what the lexer does. -/
def watching : Mirror (Watched e) where
  lex := Watched.lex
  Good w := w.ended = false
  short := False
  inFor := false
  peek_eq _ := rfl
  next_eq := by
    intro w hended hlive
    have hwatch : (TokenSource.next w : Except Error (Watched e)) = do
        let lex ← w.lex.toScan.next
        return ⟨lex, w.ended || w.lex.peek.type = eof⟩ := by
      change (do
        if w.ended ∧ w.lex.peek.type = eof then throw e
        let lex ← watch e w.lex.toScan.next
        return (⟨lex, w.ended || w.lex.peek.type = eof⟩ : Watched e)) = _
      rw [if_neg (by rw [hended]; simp), watch_eq_self hlive.next_ends]
    rw [hwatch]
    cases hl : w.lex.toScan.next with
    | error err => exact .inl ⟨err, rfl, rfl⟩
    | ok l => exact .inr ⟨_, l, rfl, rfl, rfl, fun htype => by simp [hended, htype]⟩
  assignFollows_eq := by
    intro w hended hlive htok
    have hwatch : (TokenSource.assignFollows w : Except Error (Bool × Watched e)) = (do
        let (follows, lex) ← w.lex.assignFollows
        return (follows, { w with lex })) := by
      change (do
        let (follows, lex) ← watch e w.lex.assignFollows
        return (follows, ({ w with lex } : Watched e))) = _
      rw [watch_eq_self (hlive.assignFollows_ends htok)]
    rw [hwatch]
    cases hl : w.lex.assignFollows with
    | error err => exact .inl ⟨err, rfl, rfl⟩
    | ok r => exact .inr ⟨_, r, rfl, rfl, rfl, rfl, hended⟩

/-- A bound for the recursion and the loops of the parser that is large enough for the text. -/
def parseBound (b : Bytes) : ℕ := 3 * tokenBound b + 1

/-- The run on the watched lexer is the run on the lexer, with the same bound or a larger one. -/
theorem watchedParseFileInput_eq (e : Error) (mark : ℕ → P) (b : Bytes) (hn : parseBound b ≤ n)
    (hn' : n ≤ n') : watchedParseFileInput e mark n b = parseFileInput mark n' b ∧
      parseFileInput mark n' b ≠ .error .outOfFuel := by
  have hnew := newLexer_ends b
  unfold watchedParseFileInput parseFileInput
  rw [watch_eq_self hnew]
  cases hl : newLexer b with
  | error =>
    rw [hl] at hnew
    refine ⟨rfl, fun h => ?_⟩
    cases h
    exact hnew
  | ok lex =>
    rw [hl] at hnew
    have hready : watching.Ready anyToken (tokenBound b)
        ({ l := ⟨lex, false⟩, endPos := 0, inFor := false } : Parser (Watched e)) :=
      ⟨hnew.1, rfl, rfl, hnew.2, trivial⟩
    simp only [ok_bind]
    obtain ⟨err, herr, hm, hm'⟩ | ⟨stmts, q, hm, hm', -⟩ := Mirror.tracks_parseFile
      (A := fun _ => True) (fun _ => trivial) (.inl ⟨hn, hn.trans hn'⟩) _ hready
    · change parseFile mark n' { l := lex, endPos := 0, inFor := false } = .error err at hm'
      rw [hm, hm']
      exact ⟨rfl, fun h => herr (Except.error.inj h)⟩
    · change parseFile mark n' { l := lex, endPos := 0, inFor := false } = .ok (stmts, _) at hm'
      rw [hm, hm']
      exact ⟨rfl, fun h => by cases h⟩

/-- `parseFileInput` terminates on every text: from some bound on the recursion on, there is a
result that is not an exhausted bound. On the way to it no byte outside the buffer is read,
and the end of the file is taken once at most: with these made errors of their own, whichever,
the result is the same. -/
theorem parseFileInput_total (mark : ℕ → P) (b : Bytes) :
    ∃ result, result ≠ .error .outOfFuel ∧ ∀ n,
      parseFileInput mark (parseBound b + n) b = result ∧
      ∀ e, watchedParseFileInput e mark (parseBound b + n) b = result := by
  refine ⟨parseFileInput mark (parseBound b) b,
    (watchedParseFileInput_eq .outOfRange mark b le_rfl le_rfl).2, fun n => ?_⟩
  have hsame : parseFileInput mark (parseBound b + n) b = parseFileInput mark (parseBound b) b :=
    calc parseFileInput mark (parseBound b + n) b
        = watchedParseFileInput .outOfRange mark (parseBound b) b :=
          (watchedParseFileInput_eq _ mark b le_rfl (Nat.le_add_right _ n)).1.symm
      _ = parseFileInput mark (parseBound b) b :=
          (watchedParseFileInput_eq _ mark b le_rfl le_rfl).1
  refine ⟨hsame, fun e => ?_⟩
  rw [(watchedParseFileInput_eq e mark b (Nat.le_add_right _ n) le_rfl).1, hsame]

end watched

/-! ## Where `break` and `continue` stand -/

section placed

/-- The lexer, on which the bounds of the parser may run out. -/
def itself : Mirror Lex where
  lex := id
  Good _ := True
  short := True
  inFor := false
  peek_eq _ := rfl
  next_eq := by
    rintro l - -
    change EndAlike _ l.toScan.next l.toScan.next
    cases l.toScan.next with
    | error err => exact .inl ⟨err, rfl, rfl⟩
    | ok l => exact .inr ⟨l, l, rfl, rfl, rfl, fun _ => trivial⟩
  assignFollows_eq := by
    rintro l - - -
    change EndAlike _ l.assignFollows l.assignFollows
    cases l.assignFollows with
    | error err => exact .inl ⟨err, rfl, rfl⟩
    | ok x => exact .inr ⟨x, x, rfl, rfl, rfl, rfl, trivial⟩

/-- In a file that the parser accepts, `break` and `continue` stand in loops of the same function
body. -/
theorem placed_of_parseFileInput {mark : ℕ → P} {A : P → Prop} (hmark : ∀ pos, A (mark pos))
    {n : ℕ} {b : Bytes} {stmts : List (Statement P)} (h : parseFileInput mark n b = .ok stmts) :
    Placed A false stmts := by
  obtain ⟨l, hl, h⟩ := bind_eq_ok.mp h
  obtain ⟨⟨stmts', q⟩, hfile, heq⟩ := bind_eq_ok.mp h
  obtain rfl := Except.ok.inj heq
  have hnew := newLexer_ends b
  rw [hl] at hnew
  have hready : itself.Ready anyToken (tokenBound b) ⟨l, 0, false⟩ :=
    ⟨hnew.1, trivial, rfl, hnew.2, trivial⟩
  obtain ⟨err, -, herr, -⟩ | ⟨stmts', q', hfile', -, -, hplaced⟩ :=
    Mirror.tracks_parseFile hmark (.inr ⟨trivial, rfl⟩) _ hready
  · cases hfile.symm.trans herr
  · cases hfile.symm.trans hfile'
    exact hplaced

end placed

end Please.Asp.Syntax
