import Scriptlet.Proofs.Spelling

/-!
# Scanning from an offset

A scan can start anywhere in a text. Started behind a token it goes on as
the scan that found the token (`Stream.ofTextAt_of_token`), so a text can be
scanned by asking for one token at a time, always behind the last one, and
a scanner that remembers where it is gives nothing else
(`cursor_scanning_agrees`).

Where a scan starts shows only in the offsets: the stream of a part of a
text is the stream of this part on its own, moved (`Stream.ofTextAt_shift`).
-/

namespace Scriptlet

/-! ## Moved streams -/

def Token.shift (t : Token) (distance : Int) : Token :=
  t.moved (t.position + distance)

def LexError.shift (e : LexError) (distance : Int) : LexError :=
  { e with position := e.position + distance }

namespace Stream

/-- The stream of a text that stands further on in another one. -/
def shift (distance : Int) : Stream → Stream
  | .token head rest => .token (head.shift distance) (rest.shift distance)
  | .finish position => .finish (position + distance)
  | .broken error => .broken (error.shift distance)

theorem tokens_shift (distance : Int) (s : Stream) :
    (s.shift distance).tokens =
      (s.tokens.1.map (·.shift distance),
        s.tokens.2.map (·.shift distance)) := by
  induction s with
  | token head rest ih => rw [shift, tokens, ih, tokens, List.map_cons]
  | finish position => rfl
  | broken error => rfl

/-- Scanning does not depend on where the characters stand. -/
theorem scan_shift (distance finish position : Int) (cs : List Char) :
    scan (finish + distance) (position + distance) cs =
      (scan finish position cs).shift distance := by
  fun_induction scan finish position cs with
  | case1 => rw [scan, shift]
  | case2 position c rest hspace ih =>
      rw [scan_blank _ _ _ (isSpace_iff.mp hspace), ← ih,
        Int.add_right_comm]
  | case3 position c rest hspace hdigit digits ih =>
      rw [scan_digit _ _ _ hdigit, shift, ← ih, Int.add_right_comm]
      rfl
  | case4 position c rest hspace hdigit hstart letters word ih =>
      rw [scan_word _ _ _ hstart, shift, ← ih, Int.add_right_comm]
      rfl
  | case5 position c rest hspace hdigit hstart kind hkind ih =>
      rw [scan_symbol _ _ _ hkind, shift, ← ih, Int.add_right_comm]
      rfl
  | case6 position c rest hspace hdigit hstart hsymbol =>
      have hunknown : isRecognised c = false := by
        rw [Bool.eq_false_iff, ne_eq, isRecognised_iff, hsymbol]
        simp only [hspace, hdigit, hstart, Option.isSome_none, or_self,
          Bool.false_eq_true, not_false_eq_true]
      rw [scan_broken _ _ _ hunknown]
      rfl

/-! ## Parts of a text -/

theorem ofTextAt_natCast (source : String) (start : Nat) :
    ofTextAt source start =
      scan source.length start (source.toList.drop start) := by
  have hstart : (0 : Int) ≤ start := Int.natCast_nonneg start
  rw [ofTextAt, if_pos hstart, Int.toNat_natCast, String.length_toList]

/-- A part of a text is scanned like a text of its own. -/
theorem ofTextAt_shift {source : String} {start : Nat}
    (h : start ≤ source.length) :
    ofTextAt source start =
      (ofText (String.ofList (source.toList.drop start))).shift start := by
  have hlength : (source.length : Int) =
      ((source.toList.drop start).length : Int) + start := by
    rw [List.length_drop, String.length_toList]
    omega
  rw [ofTextAt_natCast, ofText_eq, String.toList_ofList, hlength,
    ← scan_shift, Int.zero_add]

/-- The characters behind a token are what is left when as many are dropped
as it has. -/
theorem scan_behind (finish : Int) {t : Token} {run rest cs : List Char}
    (hlexeme : t.lexeme.toList = run) (hcs : run ++ rest = cs) :
    ∃ used : Nat, used ≤ cs.length ∧ t.finish = t.position + used ∧
      scan finish (t.position + run.length) rest =
        scan finish t.finish (cs.drop used) := by
  have hfinish : t.finish = t.position + run.length := by
    rw [← hlexeme, String.length_toList]
    rfl
  subst hcs
  refine ⟨run.length, ?_, hfinish, ?_⟩
  · rw [List.length_append]
    exact Nat.le_add_right _ _
  · rw [hfinish, List.drop_left]

/-- Behind the first token of some characters the scan goes on as if it
started there. -/
theorem scan_of_token {finish position : Int} {cs : List Char} {t : Token}
    {rest : Stream} (h : scan finish position cs = .token t rest) :
    ∃ used : Nat, used ≤ cs.length ∧ t.finish = position + used ∧
      rest = scan finish t.finish (cs.drop used) := by
  have hrun : ∀ (p : Char → Bool) (c : Char) (rest : List Char),
      (c :: rest.takeWhile p) ++ rest.dropWhile p = c :: rest :=
    fun p c rest => congrArg (c :: ·) List.takeWhile_append_dropWhile
  fun_induction scan finish position cs with
  | case1 => cases h
  | case2 position c cs hspace ih =>
      obtain ⟨used, hused, hfinish, hrest⟩ := ih h
      refine ⟨used + 1, Nat.succ_le_succ hused, ?_, hrest⟩
      rw [hfinish]
      push_cast
      omega
  | case3 position c cs hspace hdigit digits ih =>
      cases h
      exact scan_behind finish (t := ⟨.number, _, position⟩)
        String.toList_ofList (hrun _ c cs)
  | case4 position c cs hspace hdigit hstart letters word ih =>
      cases h
      exact scan_behind finish (t := ⟨wordKind word, word, position⟩)
        String.toList_ofList (hrun _ c cs)
  | case5 position c cs hspace hdigit hstart kind hkind ih =>
      cases h
      have hlexeme : c.toString.toList = [c] := by simp
      exact scan_behind finish (t := ⟨kind, c.toString, position⟩) hlexeme
        List.singleton_append
  | case6 => cases h

theorem ofTextAt_of_token {source : String} {start : Nat} {t : Token}
    {rest : Stream} (hstart : start ≤ source.length)
    (h : ofTextAt source start = .token t rest) :
    ∃ next : Nat, next ≤ source.length ∧ t.finish = next ∧
      rest = ofTextAt source next := by
  rw [ofTextAt_natCast] at h
  obtain ⟨used, hused, hfinish, hrest⟩ := scan_of_token h
  rw [List.length_drop, String.length_toList] at hused
  have hnext : t.finish = (start + used : Nat) := by
    rw [hfinish]
    push_cast
    rfl
  refine ⟨start + used, by omega, hnext, ?_⟩
  rw [hrest, hnext, List.drop_drop, ofTextAt_natCast]

theorem kind_ne_of_scan {finish position : Int} {cs : List Char} {t : Token}
    {rest : Stream} (h : scan finish position cs = .token t rest) :
    t.kind ≠ .endOfInput := by
  have hyields := yields_scan finish position cs
  rw [h] at hyields
  cases hyields with
  | token hkind _ => exact hkind

end Stream

/-! ## One token at a time -/

/-- The first token at an offset of a text, or behind it. -/
def tokenFrom (source : String) (offset : Int) : Except LexError Token :=
  (Stream.ofTextAt source offset).next.map Prod.fst

/-- Asking for the first token at an offset, and then always for the first
one behind the last, gives these tokens up to the end of the input, or up to
this error. -/
inductive ScansFrom (source : String) :
    Int → List Token → Option LexError → Prop
  | finish {offset : Int} {t : Token} :
      tokenFrom source offset = .ok t → t.kind = .endOfInput →
      ScansFrom source offset [t] none
  | token {offset : Int} {t : Token} {ts : List Token}
      {error : Option LexError} :
      tokenFrom source offset = .ok t → t.kind ≠ .endOfInput →
      ScansFrom source t.finish ts error →
      ScansFrom source offset (t :: ts) error
  | broken {offset : Int} {e : LexError} :
      tokenFrom source offset = .error e → ScansFrom source offset [] (some e)

namespace ScansFrom

variable {source : String}

theorem unique {offset : Int} {ts ts' : List Token}
    {error error' : Option LexError} (h : ScansFrom source offset ts error)
    (h' : ScansFrom source offset ts' error') :
    ts = ts' ∧ error = error' := by
  induction h generalizing ts' with
  | finish ht hkind =>
      cases h' with
      | finish ht' _ =>
          rw [ht] at ht'
          cases ht'
          exact ⟨rfl, rfl⟩
      | token ht' hkind' _ =>
          rw [ht] at ht'
          cases ht'
          exact absurd hkind hkind'
      | broken he =>
          rw [ht] at he
          cases he
  | token ht hkind _ ih =>
      cases h' with
      | finish ht' hkind' =>
          rw [ht] at ht'
          cases ht'
          exact absurd hkind' hkind
      | token ht' _ hrest =>
          rw [ht] at ht'
          cases ht'
          obtain ⟨rfl, rfl⟩ := ih hrest
          exact ⟨rfl, rfl⟩
      | broken he =>
          rw [ht] at he
          cases he
  | broken he =>
      cases h' with
      | finish ht' _ =>
          rw [he] at ht'
          cases ht'
      | token ht' _ _ =>
          rw [he] at ht'
          cases ht'
      | broken he' =>
          rw [he] at he'
          cases he'
          exact ⟨rfl, rfl⟩

/-- Token by token one comes through the whole text. -/
theorem tokens {start : Nat} (hstart : start ≤ source.length) :
    ScansFrom source start (Stream.ofTextAt source start).tokens.1
      (Stream.ofTextAt source start).tokens.2 := by
  generalize hs : Stream.ofTextAt source start = s
  have hfirst : tokenFrom source start = s.next.map Prod.fst := by
    rw [tokenFrom, hs]
  induction s generalizing start with
  | token t rest ih =>
      obtain ⟨next, hnext, hfinish, hrest⟩ :=
        Stream.ofTextAt_of_token hstart hs
      rw [Stream.ofTextAt_natCast] at hs
      refine .token hfirst (Stream.kind_ne_of_scan hs) ?_
      rw [hfinish]
      refine ih hnext hrest.symm ?_
      rw [tokenFrom, hrest]
  | finish position => exact .finish hfirst rfl
  | broken e => exact .broken hfirst

theorem iff_tokens {start : Nat} (hstart : start ≤ source.length)
    {ts : List Token} {error : Option LexError} :
    ScansFrom source start ts error ↔
      (Stream.ofTextAt source start).tokens = (ts, error) := by
  refine ⟨fun h => ?_, fun h => ?_⟩
  · obtain ⟨hts, herror⟩ := (tokens hstart).unique h
    exact Prod.ext hts herror
  · have hscan := tokens hstart
    rw [h] at hscan
    exact hscan

end ScansFrom

/-- **Scanning by offsets agrees with scanning at once.** Asking for one token
at a time, always behind the last one, gives the tokens of the text up to its
end or up to the same unrecognised character at the same offset, from the
start of the text and from any other offset. The tokens from an offset on are
those of this part of the text on its own, moved by the offset, and the end
of the input is where the text ends. -/
theorem cursor_scanning_agrees (source : String) :
    (∀ ts error, ScansFrom source 0 ts error ↔
      (Stream.ofText source).tokens = (ts, error)) ∧
    ∀ start : Nat, start ≤ source.length →
      let part := String.ofList (source.toList.drop start)
      (∀ ts error, ScansFrom source start ts error ↔
        (Stream.ofTextAt source start).tokens = (ts, error)) ∧
      ∃ front : List Token, (∀ t ∈ front, t.kind ≠ .endOfInput) ∧
        ((Stream.ofText part).tokens =
            (front ++ [Token.atEnd part.length], none) ∧
          (Stream.ofTextAt source start).tokens =
            (front.map (·.shift start) ++ [Token.atEnd source.length], none) ∨
        ∃ e, (Stream.ofText part).tokens = (front, some e) ∧
          (Stream.ofTextAt source start).tokens =
            (front.map (·.shift start), some (e.shift start))) := by
  refine ⟨fun ts error => ScansFrom.iff_tokens (Nat.zero_le _), ?_⟩
  intro start hstart part
  refine ⟨fun ts error => ScansFrom.iff_tokens hstart, ?_⟩
  have hlength : (part.length : Int) + start = source.length := by
    rw [String.length_ofList, List.length_drop, String.length_toList]
    omega
  obtain ⟨front, last, hanswers⟩ :=
    Stream.exists_answers_scan part.toList.length 0 part.toList
  rw [← Stream.ofText_eq, String.length_toList] at hanswers
  have hmoved := Stream.tokens_shift start (Stream.ofText part)
  rw [← Stream.ofTextAt_shift hstart] at hmoved
  refine ⟨front, hanswers.front_ne, ?_⟩
  rcases hanswers.last_eq with ⟨htokens, -⟩ | ⟨e, htokens, -⟩
  · rw [htokens, List.map_append] at hmoved
    refine .inl ⟨htokens, hmoved.trans ?_⟩
    rw [← hlength]
    rfl
  · rw [htokens] at hmoved
    exact .inr ⟨e, htokens, hmoved⟩

/-- From the middle of a word on, up to an unrecognised character. -/
theorem cursor_scanning_agrees_inside_word :
    1 ≤ "ab 12$;".length ∧
      ScansFrom "ab 12$;" 1 [⟨.identifier, "b", 1⟩, ⟨.number, "12", 3⟩]
        (some ⟨'$', 5⟩) := by
  have hstart : 1 ≤ "ab 12$;".length := by decide
  have htokens : (Stream.ofTextAt "ab 12$;" (1 : Nat)).tokens =
      ([⟨.identifier, "b", 1⟩, ⟨.number, "12", 3⟩], some ⟨'$', 5⟩) := by cbv
  have hscan := ((cursor_scanning_agrees "ab 12$;").2 1 hstart).1
  exact ⟨hstart, (hscan _ _).mpr htokens⟩

end Scriptlet
