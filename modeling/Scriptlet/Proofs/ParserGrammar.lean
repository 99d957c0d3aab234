import Mathlib
import Scriptlet.Proofs.ParserSoundness
import Scriptlet.Proofs.ParserCompleteness
import Scriptlet.Proofs.ParserProgress

/-!
# Parsing is derivation

The parser accepts exactly the token rows that the grammar derives, and
returns the tree of the derivation. The two directions come from
`ParserSoundness` and `ParserCompleteness`; the second holds up to giving
up, and `ParserProgress` says that a depth of as many levels as the text
has tokens rules this out.
-/

namespace Scriptlet

open Grammar

theorem Stream.Yields.length_le {s : Stream} {ts : List Token}
    (h : s.Yields ts) : s.length ≤ ts.length := by
  induction h with
  | token _ _ ih => exact Nat.succ_le_succ ih
  | finish => exact Nat.zero_le _
  | broken => exact Nat.le_refl _

theorem Cursor.Sees.remaining_le {c : Cursor} {ts : List Token}
    (h : c.Sees ts) : c.remaining ≤ ts.length := by
  cases h with
  | token hne hs =>
      rw [Cursor.remaining_of_ne hne]
      exact Nat.succ_le_succ hs.length_le
  | finish => exact Nat.zero_le _

/-! ## Texts and cursors -/

/-- A text with a token, or with its end in place of one, has a cursor. -/
theorem Cursor.exists_ofText {source : String}
    (h : (Stream.ofText source).tokens.1 ≠ []) :
    ∃ c, Cursor.ofText source = .ok c := by
  unfold Cursor.ofText Cursor.ofStream
  cases hs : Stream.ofText source with
  | token head rest => exact ⟨_, rfl⟩
  | finish position => exact ⟨_, rfl⟩
  | broken e =>
      rw [hs] at h
      exact absurd rfl h

theorem Cursor.sees_ofText {source : String} {c : Cursor}
    (h : Cursor.ofText source = .ok c) :
    c.Sees (Stream.ofText source).tokens.1 :=
  sees_of_ofStream (Stream.yields_ofText source) h

theorem parseProgram_of_cursor {source : String} {c : Cursor}
    (h : Cursor.ofText source = .ok c) (limit : Nat) :
    parseProgram limit source = (Parse.statements c.fuel limit c).result := by
  rw [parseProgram, h]
  rfl

theorem parseProgram_of_error {source : String} {e : ParseError}
    (h : Cursor.ofText source = .error e) (limit : Nat) :
    parseProgram limit source = .error (.error e) := by
  rw [parseProgram, h]

/-! ## The two directions -/

/-- What a text is parsed to, its tokens derive. -/
theorem program_of_parseProgram {limit : Nat} {source : String}
    {nodes : List Node} (h : parseProgram limit source = .ok nodes) :
    Program (Stream.ofText source).tokens.1 nodes := by
  cases hcursor : Cursor.ofText source with
  | error e =>
      rw [parseProgram_of_error hcursor] at h
      cases h
  | ok c =>
      rw [parseProgram_of_cursor hcursor] at h
      cases hrun : Parse.statements c.fuel limit c with
      | done value c' =>
          rw [hrun] at h
          cases h
          obtain ⟨rest, _, hprogram⟩ := Parse.statements_sound c.fuel limit
            (Cursor.sees_ofText hcursor) hrun
          exact hprogram
      | failed e c' =>
          rw [hrun] at h
          cases h

/-- What the tokens of a text derive, it is parsed to. -/
theorem parseProgram_of_program {source : String} {nodes : List Node}
    (h : Program (Stream.ofText source).tokens.1 nodes) (limit : Nat) :
    parseProgram limit source = .ok nodes ∨
      parseProgram limit source = .error .tooDeep := by
  obtain ⟨hseps, hstatements⟩ := h
  obtain ⟨c, hcursor⟩ := Cursor.exists_ofText hseps.ne_nil
  obtain ⟨rest, hreads⟩ :=
    Parse.statements_complete hseps hstatements c.fuel limit
  rw [parseProgram_of_cursor hcursor]
  rcases hreads (Cursor.sees_ofText hcursor) with ⟨c', _, hrun⟩ | ⟨c', hrun⟩
  · rw [hrun]
    exact Or.inl rfl
  · rw [hrun]
    exact Or.inr rfl

/-- A limit of one level per token is never reached. -/
theorem parseProgram_ne_tooDeep {limit : Nat} {source : String}
    (h : (Stream.ofText source).tokens.1.length ≤ limit) :
    parseProgram limit source ≠ .error .tooDeep := by
  intro hdeep
  cases hcursor : Cursor.ofText source with
  | error e =>
      rw [parseProgram_of_error hcursor] at hdeep
      cases hdeep
  | ok c =>
      have hremaining := (Cursor.sees_ofText hcursor).remaining_le
      have hsettles := Parse.statements_settles c.fuel c.remaining_le_fuel
        (Nat.le_trans hremaining h)
      rw [parseProgram_of_cursor hcursor] at hdeep
      cases hrun : Parse.statements c.fuel limit c with
      | done value c' =>
          rw [hrun] at hdeep
          cases hdeep
      | failed e c' =>
          rw [hrun] at hdeep hsettles
          cases hdeep
          exact hsettles rfl

/-- **The parser recognises the grammar.** Let a text consist of tokens
only. Whatever the limit on nesting, unless it is reached the text is
parsed to the statements `nodes` if and only if its tokens derive a program
with these statements; and a limit of one level per token is not reached. -/
theorem parseProgram_eq_ok_iff (source : String) (tokens : List Token)
    (hlex : (Stream.ofText source).tokens = (tokens, none))
    (nodes : List Node) :
    (∀ limit, parseProgram limit source ≠ .error .tooDeep →
      (parseProgram limit source = .ok nodes ↔ Program tokens nodes)) ∧
    ∀ limit, tokens.length ≤ limit →
      parseProgram limit source ≠ .error .tooDeep := by
  have htokens : (Stream.ofText source).tokens.1 = tokens := by rw [hlex]
  constructor
  · intro limit hdeep
    constructor
    · intro h
      rw [← htokens]
      exact program_of_parseProgram h
    · intro h
      rw [← htokens] at h
      exact (parseProgram_of_program h limit).resolve_right hdeep
  · intro limit hlimit
    rw [← htokens] at hlimit
    exact parseProgram_ne_tooDeep hlimit

/-- A parenthesis behind a call starts a statement of its own. -/
theorem program_of_call_and_parens :
    Program
      [⟨.identifier, "f", 0⟩, ⟨.leftParen, "(", 1⟩, ⟨.number, "1", 2⟩,
        ⟨.rightParen, ")", 3⟩, ⟨.leftParen, "(", 4⟩, ⟨.number, "2", 5⟩,
        ⟨.rightParen, ")", 6⟩, ⟨.endOfInput, "", 7⟩]
      [.call (.identifier (.text "f")) [.number (.text "1")],
        .number (.text "2")] := by
  have hparse : parseProgram 2 "f(1)(2)" = .ok
      [.call (.identifier (.text "f")) [.number (.text "1")],
        .number (.text "2")] := by cbv
  refine ((parseProgram_eq_ok_iff "f(1)(2)" _ ?_ _).1 2 ?_).mp hparse
  · cbv
  · rw [hparse]
    exact fun h => by cases h

end Scriptlet
