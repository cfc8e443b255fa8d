import Please.Asp.Parser
import Please.Asp.Expressions

/-!
# String literals

`parseFString` and `findBrace` (`src/parse/asp/grammar_parse.go`, lines 721–758) against the text
that an f-string is written as, with every brace of its literal pieces doubled, and
`interpretFString` (`src/parse/asp/interpreter.go`, lines 880–901).

`findBrace` goes through a run of braces as a whole, so it does not see the brace of a variable that
a doubled one stands before.

* `fStringRoundTrips_iff`: an f-string is recovered exactly if no piece before a variable ends with
  an opening brace (or a dollar sign).
-/

namespace Please.Asp.Syntax

open Please.Fs (Bytes)
open Please.Build (utf8)
open Please.Lib List
open List (append_assoc cons_append drop_drop)

/-! ## Writing an f-string -/

/-- Some bytes are doubled. -/
def double (p : UInt8 → Bool) (s : Bytes) : Bytes := s.flatMap fun c => if p c then [c, c] else [c]

/-- A literal piece with its braces doubled. -/
def escapeBraces (s : Bytes) : Bytes := double (fun c => c = byte '{' || c = byte '}') s

/-- A variable with any accessors, in braces. -/
def writeVar (var : List Bytes) : Bytes := byte '{' :: joinBytes [byte '.'] var ++ [byte '}']

/-- The text between the quotes of an f-string. -/
def writeFString (f : FString) : Bytes :=
  f.vars.flatMap (fun v => escapeBraces v.before ++ writeVar v.var) ++ escapeBraces f.suffix

/-- The names of a variable and its accessors. -/
def IsVar (var : List Bytes) : Prop :=
  var ≠ [] ∧ ∀ name ∈ var, ∀ c ∈ name, c ≠ byte '.' ∧ c ≠ byte '{' ∧ c ≠ byte '}'

/-- No brace of a variable follows what `findBrace` takes for the start of a doubled one. -/
def BracesApart (f : FString) : Prop :=
  ∀ v ∈ f.vars, v.before.getLast? ≠ some (byte '{') ∧ v.before.getLast? ≠ some (byte '$')

/-! ## Literal pieces -/

theorem double_cons (p : UInt8 → Bool) (c : UInt8) (s : Bytes) :
    double p (c :: s) = if p c then c :: c :: double p s else c :: double p s := by
  unfold double
  rw [flatMap_cons]
  split_ifs <;> rfl

theorem double_of_false {p : UInt8 → Bool} (hp : ∀ c, p c = false)
    (s : Bytes) : double p s = s := by
  induction s with
  | nil => rfl
  | cons c s ih => rw [double_cons, hp c, if_neg Bool.false_ne_true, ih]

theorem undouble_cons_of_ne {d c : UInt8} (h : c ≠ d) (s : Bytes) :
    undouble d (c :: s) = c :: undouble d s := by
  cases s with
  | nil => rfl
  | cons => rw [undouble, if_neg fun hcb => h hcb.1]

/-- One byte is no longer doubled. -/
theorem undouble_double {p : UInt8 → Bool} {d : UInt8} (hd : p d = true) (s t : Bytes) :
    undouble d (double p s ++ t) = double (fun c => p c && c ≠ d) s ++ undouble d t := by
  induction s with
  | nil => rfl
  | cons c s ih =>
    rw [double_cons, double_cons]
    by_cases hc : c = d
    · subst hc
      rw [if_pos hd, if_neg (by simp), cons_append, cons_append, undouble,
        if_pos ⟨rfl, rfl⟩, ih, cons_append]
    · have hsame : (p c && c ≠ d) = p c := by simp [hc]
      rw [hsame]
      split_ifs
      · simp only [cons_append]
        rw [undouble_cons_of_ne hc, undouble_cons_of_ne hc, ih]
      · simp only [cons_append]
        rw [undouble_cons_of_ne hc, ih]

/-- A literal piece is read back, whatever follows. -/
theorem unescapeBraces_escapeBraces (s t : Bytes) :
    unescapeBraces (escapeBraces s ++ t) = s ++ unescapeBraces t := by
  rw [unescapeBraces, escapeBraces, undouble_double (by decide), undouble_double (by decide),
    double_of_false, unescapeBraces]
  intro c
  by_cases hopen : c = byte '{'
  · simp [hopen]
  · by_cases hclose : c = byte '}' <;> simp [hopen, hclose]

theorem unescapeBraces_escapeBraces_self (s : Bytes) : unescapeBraces (escapeBraces s) = s := by
  have h := unescapeBraces_escapeBraces s []
  simpa [unescapeBraces, undouble] using h

theorem undouble_ne_nil {c : UInt8} {s : Bytes} (h : s ≠ []) : undouble c s ≠ [] := by
  rcases s with _ | ⟨a, _ | ⟨b, s⟩⟩
  · exact absurd rfl h
  · simp [undouble]
  · rw [undouble]
    split_ifs <;> simp

/-- `findBrace` goes over a literal piece. -/
theorem findBrace_escapeBraces (last : UInt8) (s t : Bytes) :
    findBrace last (escapeBraces s ++ t) =
      (findBrace (s.getLast?.getD last) t).map (· + (escapeBraces s).length) := by
  induction s generalizing last with
  | nil => simp [escapeBraces, double]
  | cons c s ih =>
    have hlast : (c :: s).getLast?.getD last = s.getLast?.getD c := by
      rw [getLast?_cons, Option.getD_some]
    rw [hlast]
    simp only [escapeBraces] at ih ⊢
    rw [double_cons]
    by_cases hopen : c = byte '{'
    · subst hopen
      have hskip (u : Bytes) :
          findBrace (byte '{') (byte '{' :: u) = (findBrace (byte '{') u).map (· + 1) := by
        rw [findBrace, if_neg fun h => h.2.1 rfl]
      rw [if_pos (by decide), cons_append, cons_append, findBrace, head?_cons,
        if_pos rfl, ite_self, hskip, ih]
      simp [Function.comp_def, Nat.add_assoc]
    · have hskip (last : UInt8) (u : Bytes) :
          findBrace last (c :: u) = (findBrace c u).map (· + 1) := by
        rw [findBrace, if_neg fun h => hopen h.1]
      split_ifs
      · rw [cons_append, cons_append, hskip, hskip, ih]
        simp [Function.comp_def, Nat.add_assoc]
      · rw [cons_append, hskip, ih]
        simp [Function.comp_def, Nat.add_assoc]

/-! ## Variables -/

theorem split_ne_nil (sep : UInt8) (s : Bytes) : split sep s ≠ [] := by
  cases s with
  | nil => simp [split]
  | cons =>
    rw [split]
    split
    · simp
    · split_ifs <;> simp

variable {sep : UInt8}

theorem split_append {name : Bytes} (hname : sep ∉ name) (rest : Bytes) :
    split sep (name ++ sep :: rest) = name :: split sep rest := by
  induction name with
  | nil =>
    rw [nil_append, split]
    split
    · exact absurd ‹_› (split_ne_nil sep rest)
    · rw [if_pos rfl]
      simp_all
  | cons c _ ih =>
    rw [cons_append, split, ih (not_mem_of_not_mem_cons hname)]
    exact if_neg fun h : c = sep => hname (h ▸ mem_cons_self)

theorem split_of_not_mem {name : Bytes} (hname : sep ∉ name) : split sep name = [name] := by
  induction name with
  | nil => rfl
  | cons c _ ih =>
    rw [split, ih (not_mem_of_not_mem_cons hname)]
    exact if_neg fun h : c = sep => hname (h ▸ mem_cons_self)

theorem joinBytes_cons_cons (part part' : Bytes) (parts : List Bytes) :
    joinBytes [sep] (part :: part' :: parts) = part ++
      sep :: joinBytes [sep] (part' :: parts) := rfl

theorem split_joinBytes {parts : List Bytes} (hne : parts ≠ [])
    (hparts : ∀ part ∈ parts, sep ∉ part) : split sep (joinBytes [sep] parts) = parts := by
  induction parts with
  | nil => exact absurd rfl hne
  | cons part parts ih =>
    have hpart := hparts part mem_cons_self
    cases parts with
    | nil =>
      rw [show joinBytes [sep] [part] = part from append_nil part]
      exact split_of_not_mem hpart
    | cons =>
      rw [joinBytes_cons_cons, split_append hpart, ih (by simp) fun p hp =>
        hparts p (mem_cons_of_mem part hp)]

theorem mem_joinBytes {c : UInt8} {parts : List Bytes} (hc : c ∈ joinBytes [sep] parts) :
    c = sep ∨ ∃ part ∈ parts, c ∈ part := by
  induction parts with
  | nil => cases hc
  | cons part parts ih =>
    cases parts with
    | nil => exact .inr ⟨part, mem_cons_self, by simpa [joinBytes] using hc⟩
    | cons =>
      rw [joinBytes_cons_cons, mem_append, mem_cons] at hc
      rcases hc with hc | hc | hc
      · exact .inr ⟨part, mem_cons_self, hc⟩
      · exact .inl hc
      · exact (ih hc).imp_right fun ⟨p, hp, hmem⟩ => ⟨p, mem_cons_of_mem part hp, hmem⟩

/-- The text of a variable has no braces. -/
theorem IsVar.mem {var : List Bytes} (hvar : IsVar var) {c : UInt8}
    (hc : c ∈ joinBytes [byte '.'] var) :
    c ≠ byte '{' ∧ c ≠ byte '}' := by
  rcases mem_joinBytes hc with rfl | ⟨name, hname, hmem⟩
  · decide
  · exact (hvar.2 name hname c hmem).2

/-! ## Reading an f-string -/

variable {v : FStringVar}

/-- The text before the first variable that is read. -/
theorem before_of_fStringVars {n pos : ℕ} {s : Bytes} {f : FString}
    {vars : List FStringVar} (h : fStringVars n pos s = .ok f) (hvars : f.vars = v :: vars) :
    ∃ idx, findBrace (byte ' ') s = some idx ∧ v.before = unescapeBraces (s.take idx) := by
  cases n with
  | zero => cases h
  | succ =>
    rw [fStringVars] at h
    split at h
    · cases h
      cases hvars
    · rename_i idx hidx
      dsimp only at h
      split at h
      · cases h
      · obtain ⟨g, -, hg⟩ := Except.bind_eq_ok.mp h
        cases hg
        cases hvars
        exact ⟨idx, hidx, rfl⟩

/-- A variable is found, unless its brace is taken for a doubled one. -/
theorem findBrace_writeVar {last : UInt8} {var : List Bytes} (hvar : IsVar var)
    (hlast : last ≠ byte '{' ∧ last ≠ byte '$') (t : Bytes) :
    findBrace last (writeVar var ++ t) = some 0 := by
  have hhead : (joinBytes [byte '.'] var ++ [byte '}'] ++ t).head? ≠ some (byte '{') := by
    cases hjoin : joinBytes [byte '.'] var with
    | nil => exact (by decide : some (byte '}') ≠ some (byte '{'))
    | cons c =>
      have hc : c ≠ byte '{' := (hvar.mem (hjoin ▸ List.mem_cons_self)).1
      simpa using hc
  rw [writeVar, cons_append, cons_append, findBrace, if_pos ⟨rfl, hlast⟩, if_neg hhead]

/-- One variable is read. -/
theorem fStringVars_cons (hvar : IsVar v.var)
    (hlast : v.before.getLast? ≠ some (byte '{') ∧ v.before.getLast? ≠ some (byte '$')) (n pos : ℕ)
    (t : Bytes) :
    ∃ pos', fStringVars (n + 1) pos (escapeBraces v.before ++ writeVar v.var ++ t) =
      (fStringVars n pos' t).map fun f => { f with vars := v :: f.vars } := by
  have hlast' : v.before.getLast?.getD (byte ' ') ≠ byte '{' ∧
      v.before.getLast?.getD (byte ' ') ≠ byte '$' := by
    cases h : v.before.getLast? with
    | none => decide
    | some => simpa [h] using hlast
  have hfind : findBrace (byte ' ') (escapeBraces v.before ++ writeVar v.var ++ t) =
      some (escapeBraces v.before).length := by
    rw [append_assoc, findBrace_escapeBraces, findBrace_writeVar hvar hlast', Option.map_some,
      Nat.zero_add]
  have htext : escapeBraces v.before ++ writeVar v.var ++ t =
      escapeBraces v.before ++ byte '{' :: (joinBytes [byte '.'] v.var ++ byte '}' :: t) := by
    simp [writeVar]
  have hdrop : (escapeBraces v.before ++ writeVar v.var ++ t).drop
      ((escapeBraces v.before).length + 1) = joinBytes [byte '.'] v.var ++ byte '}' :: t := by
    rw [htext, ← drop_drop, List.drop_left, List.drop_one, List.tail_cons]
  have hname : (joinBytes [byte '.'] v.var ++ byte '}' :: t).takeWhile (· ≠ byte '}') =
      joinBytes [byte '.'] v.var := by
    rw [List.takeWhile_append_of_pos fun c hc => by simpa using (hvar.mem hc).2,
      List.takeWhile_cons_of_neg (by simp), List.append_nil]
  have hrest : (escapeBraces v.before ++ writeVar v.var ++ t).drop
      ((escapeBraces v.before).length + 1 + (joinBytes [byte '.'] v.var).length + 1) = t := by
    rw [← drop_drop, ← drop_drop, hdrop, List.drop_left, List.drop_one, List.tail_cons]
  have hbefore : unescapeBraces ((escapeBraces v.before ++ writeVar v.var ++ t).take
      (escapeBraces v.before).length) = v.before := by
    rw [append_assoc, List.take_left, unescapeBraces_escapeBraces_self]
  have hsplit : split (byte '.') (joinBytes [byte '.'] v.var) = v.var :=
    split_joinBytes hvar.1 fun name hname hmem => (hvar.2 name hname _ hmem).1 rfl
  refine ⟨pos + (escapeBraces v.before).length + 1 + (joinBytes [byte '.'] v.var).length + 1, ?_⟩
  rw [fStringVars, hfind]
  dsimp only
  rw [hdrop, hname, if_neg (by simp), hrest, hbefore, hsplit]
  rfl

/-- A variable is not read if its brace is taken for a doubled one: the next one that is read has
more text before it. -/
theorem fStringVars_ne {vars : List FStringVar}
    (hlast : v.before.getLast? = some (byte '{') ∨ v.before.getLast? = some (byte '$')) {n pos : ℕ}
    {t suffix : Bytes} :
    fStringVars n pos (escapeBraces v.before ++ writeVar v.var ++ t) ≠ .ok ⟨v :: vars, suffix⟩ := by
  intro h
  obtain ⟨idx, hidx, hbefore⟩ := before_of_fStringVars h rfl
  rw [append_assoc, findBrace_escapeBraces] at hidx
  obtain ⟨i, hi, rfl⟩ := Option.map_eq_some_iff.mp hidx
  have hpos : i ≠ 0 := by
    rintro rfl
    have hskip : ¬ (byte '{' = byte '{' ∧ v.before.getLast?.getD (byte ' ') ≠ byte '{' ∧
        v.before.getLast?.getD (byte ' ') ≠ byte '$') := by
      rcases hlast with h | h <;> simp [h]
    rw [writeVar, cons_append, cons_append, findBrace, if_neg hskip] at hi
    simp at hi
  rw [append_assoc, Nat.add_comm, List.take_length_add_append, unescapeBraces_escapeBraces]
    at hbefore
  have hempty := List.self_eq_append_right.mp hbefore
  refine undouble_ne_nil (undouble_ne_nil ?_) hempty
  rw [writeVar, cons_append, cons_append]
  cases i with
  | zero => exact absurd rfl hpos
  | succ => simp

theorem findBrace_suffix (s : Bytes) : findBrace (byte ' ') (escapeBraces s) = none := by
  have h := findBrace_escapeBraces (byte ' ') s []
  rwa [append_nil, findBrace, Option.map_none] at h

/-- What is read is what was written, exactly if the braces are apart. -/
theorem fStringVars_writeFString {f : FString} (hf : ∀ v ∈ f.vars, IsVar v.var) {n pos : ℕ}
    (hn : (writeFString f).length < n) :
    fStringVars n pos (writeFString f) = .ok f ↔ BracesApart f := by
  obtain ⟨vars, suffix⟩ := f
  induction vars generalizing n pos with
  | nil =>
    refine iff_of_true ?_ (fun v hv => by cases hv)
    cases n with
    | zero => cases hn
    | succ =>
      rw [show writeFString ⟨[], suffix⟩ = escapeBraces suffix from rfl, fStringVars,
        findBrace_suffix]
      rw [unescapeBraces_escapeBraces_self]
  | cons v vars ih =>
    have hwrite : writeFString ⟨v :: vars, suffix⟩ =
        escapeBraces v.before ++ writeVar v.var ++ writeFString ⟨vars, suffix⟩ := by
      simp [writeFString]
    have hvar := hf v mem_cons_self
    have hvars : ∀ w ∈ vars, IsVar w.var := fun w hw => hf w (mem_cons_of_mem v hw)
    rw [hwrite]
    by_cases hlast : v.before.getLast? ≠ some (byte '{') ∧ v.before.getLast? ≠ some (byte '$')
    · cases n with
      | zero => cases hn
      | succ n =>
        have hlen : (writeFString ⟨vars, suffix⟩).length < n := by
          rw [hwrite] at hn
          simp only [writeVar, length_append, length_cons] at hn
          omega
        obtain ⟨pos', hread⟩ := fStringVars_cons hvar hlast n pos (writeFString ⟨vars, suffix⟩)
        have hapart : BracesApart ⟨v :: vars, suffix⟩ ↔ BracesApart ⟨vars, suffix⟩ := by
          simp [BracesApart, hlast]
        have hrest : fStringVars n pos' (writeFString ⟨vars, suffix⟩) = .ok ⟨vars, suffix⟩ ↔ _ :=
          ih hvars hlen
        rw [hread, hapart, ← hrest]
        cases fStringVars n pos' (writeFString ⟨vars, suffix⟩) with
        | error => simp [Except.map]
        | ok g =>
          obtain ⟨vars', suffix'⟩ := g
          simp [Except.map]
    · refine iff_of_false (fStringVars_ne ?_) fun h => hlast (h v mem_cons_self)
      rwa [not_and_or, not_not, not_not] at hlast

section

variable {σ : Type} [TokenSource σ] {p : Parser σ} {l : σ} {value : Bytes} {pos : ℕ}

theorem parseFString_eq (hpeek : TokenSource.peek p.l = .ok ⟨.string, value, pos⟩)
    (hnext : TokenSource.next p.l = .ok l) :
    ∃ p', parseFString p =
      (fStringVars ((value.drop 2).dropLast.length + 1) (pos + 1) (value.drop 2).dropLast).map
        fun f => (f, p') := by
  refine ⟨{ p with l, endPos := (⟨.string, value, pos⟩ : Token).endPos }, ?_⟩
  have hadvance : advance p = .ok (⟨.string, value, pos⟩, { p with l }) := by
    rw [advance, hpeek, hnext]
    rfl
  have hstring : next .string p = .ok (⟨.string, value, pos⟩, { p with l }) := by
    rw [next, Parse.bind_of_ok hadvance]
    rfl
  have hending : ending .string p =
      .ok (⟨.string, value, pos⟩,
        { p with l, endPos := (⟨.string, value, pos⟩ : Token).endPos }) := by
    rw [ending, Parse.bind_of_ok hstring]
    rfl
  rw [parseFString, Parse.bind_of_ok hending, ofExcept]
  cases fStringVars ((value.drop 2).dropLast.length + 1) (pos + 1) (value.drop 2).dropLast <;> rfl

end

end Please.Asp.Syntax

namespace Please.Asp.Interp

open Please.Fs (Bytes)
open Please.Build (utf8)
open Please.Lib
open Please.Asp.Syntax

/-! ## The value of an f-string -/

/-- The literal pieces with the values of the variables between them. -/
def insertTexts (f : FString) (texts : List Bytes) : Bytes :=
  (List.zipWith (fun v text => v.before ++ text) f.vars texts).flatten ++ f.suffix

/-- The variables have these texts as their values. -/
def VarsAre {H : Type} (R : Runtime H) (s : ℕ) (st : Store H) (vars : List FStringVar)
    (texts : List Bytes) : Prop :=
  List.Forall₂ (fun v text => Evaluates st (stringVar R s v) (.ok text)) vars texts

variable {H : Type} {R : Runtime H} {s : ℕ} {st : Store H} {texts : List Bytes}

theorem VarsAre.forM {vars : List FStringVar} (h : VarsAre R s st vars texts) :
    Evaluates st (vars.forM fun v => do
      let _ ← stringVar R s v
      pure ()) (.ok PUnit.unit) := by
  induction h with
  | nil => exact .pure _ st
  | cons hv _ ih => exact .bind (hv.bind (.pure PUnit.unit st)) ih

theorem VarsAre.foldlM {vars : List FStringVar} (h : VarsAre R s st vars texts)
    (b : Bytes) :
    Evaluates st (vars.foldlM (fun b v => do
      let text ← stringVar R s v
      pure (b ++ v.before ++ text)) b)
      (.ok (b ++ (List.zipWith (fun v text => v.before ++ text) vars texts).flatten)) := by
  induction h generalizing b with
  | nil =>
    rw [List.zipWith_nil_left, List.flatten_nil, List.append_nil]
    exact .pure _ st
  | @cons v text vars texts hv _ ih =>
    have hrest := ih (b ++ v.before ++ text)
    exact .bind (hv.bind (.pure _ st)) (by simpa using hrest)

theorem evaluates_interpretFString {f : FString}
    (h : VarsAre R s st f.vars texts) :
    Evaluates st (interpretFString R f s) (.ok (.str (insertTexts f texts))) :=
  h.forM.bind ((h.foldlM []).bind (.pure _ st))

/-! ## The round trip -/

/-- The parser recovers the f-string, so that its value is the pieces with the values of the
variables inserted. -/
def FStringRoundTrips {σ : Type} [TokenSource σ] (p : Parser σ) (f : FString) : Prop :=
  ∃ g p', parseFString p = .ok (g, p') ∧ g = f ∧
    ∀ (H : Type) (R : Runtime H) (s : ℕ) (st : Store H) (texts : List Bytes),
      VarsAre R s st f.vars texts →
        Evaluates st (interpretFString R g s) (.ok (.str (insertTexts f texts)))

/-- The f-string that is the next token is recovered exactly if no brace of a variable follows a
doubled one. -/
theorem fStringRoundTrips_iff {σ : Type} [TokenSource σ] {p : Parser σ} {f : FString} {pos : ℕ}
    (hf : ∀ v ∈ f.vars, IsVar v.var)
    (hpeek : TokenSource.peek p.l =
      .ok ⟨.string, byte 'f' :: byte '"' :: writeFString f ++ [byte '"'], pos⟩)
    (hnext : ∃ l, TokenSource.next p.l = .ok l) :
    FStringRoundTrips p f ↔ BracesApart f := by
  obtain ⟨l, hnext⟩ := hnext
  obtain ⟨p', hparse⟩ := parseFString_eq hpeek hnext
  have htext : ((byte 'f' :: byte '"' :: writeFString f ++ [byte '"']).drop 2).dropLast =
      writeFString f := List.dropLast_concat
  rw [htext] at hparse
  have hread : fStringVars ((writeFString f).length + 1) (pos + 1) (writeFString f) = .ok f ↔ _ :=
    fStringVars_writeFString hf (Nat.lt_succ_self _)
  rw [← hread]
  constructor
  · rintro ⟨g, p'', hg, rfl, -⟩
    rw [hparse] at hg
    cases h : fStringVars ((writeFString g).length + 1) (pos + 1) (writeFString g) with
    | error =>
      rw [h] at hg
      cases hg
    | ok =>
      rw [h] at hg
      cases hg
      rfl
  · intro h
    rw [h] at hparse
    exact ⟨f, p', hparse, rfl, fun H R s st texts htexts => evaluates_interpretFString htexts⟩

/-- A lexer that has delivered a string as its last token. -/
def atString (value : Bytes) : Parser Lex :=
  ⟨{ Scan.start (buffer []) with peek := ⟨.string, value, 0⟩ }, 0, false⟩

/-- `f"{{{x}}}"` is read as the text `{{x}}`, without a variable. -/
theorem fString_triple_brace :
    letI := Utf8.Unicode.ascii
    writeFString ⟨[⟨utf8 "\x7b", [utf8 "x"]⟩], utf8 "\x7d"⟩ = utf8 "\x7b\x7b\x7bx\x7d\x7d\x7d" ∧
    (parseFString (atString (utf8 "f\"\x7b\x7b\x7bx\x7d\x7d\x7d\""))).map Prod.fst =
      .ok ⟨[], utf8 "\x7b\x7bx\x7d\x7d"⟩ ∧
    ¬ FStringRoundTrips (atString (utf8 "f\"\x7b\x7b\x7bx\x7d\x7d\x7d\""))
      ⟨[⟨utf8 "\x7b", [utf8 "x"]⟩], utf8 "\x7d"⟩ := by
  have hparse : (@parseFString Lex (@instTokenSourceLexOfUnicode Utf8.Unicode.ascii)
      (atString (utf8 "f\"\x7b\x7b\x7bx\x7d\x7d\x7d\""))).map Prod.fst =
      .ok ⟨[], utf8 "\x7b\x7bx\x7d\x7d"⟩ := by
    decide +kernel
  refine ⟨by decide, hparse, ?_⟩
  rintro ⟨g, p', hg, rfl, -⟩
  rw [hg] at hparse
  cases hparse

theorem isVar_singleton {name : Bytes}
    (h : name.all fun c => c ≠ byte '.' && c ≠ byte '{' && c ≠ byte '}') : IsVar [name] := by
  refine ⟨List.cons_ne_nil _ _, fun part hpart c hc => ?_⟩
  rw [List.mem_singleton.mp hpart] at hc
  simpa [and_assoc] using List.all_eq_true.mp h c hc

/-- `f"{{a}}{x}}}"` -/
theorem fStringRoundTrips_doubled :
    letI := Utf8.Unicode.ascii
    FStringRoundTrips (atString (utf8 "f\"\x7b\x7ba\x7d\x7d\x7bx\x7d\x7d\x7d\""))
      ⟨[⟨utf8 "\x7ba\x7d", [utf8 "x"]⟩], utf8 "\x7d"⟩ := by
  let := Utf8.Unicode.ascii
  refine (fStringRoundTrips_iff (fun v hv => ?_) rfl ⟨_, rfl⟩).mpr fun v hv => ?_
  · rw [List.mem_singleton.mp hv]
    exact isVar_singleton (by decide)
  · rw [List.mem_singleton.mp hv]
    decide

end Please.Asp.Interp
