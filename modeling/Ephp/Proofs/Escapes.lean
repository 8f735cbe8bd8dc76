import Ephp.Proofs.Segments

/-!
# Escapes in written literals

The literal text of a format text is written between double quotes, and each of its own double
quotes gets a backslash in front.  A double quote is escaped, and ends no literal, if an odd number
of backslashes stands in front of it.  The backslashes of the text count as well, and so the written
literal is closed exactly if the text has an even number of backslashes in front of each double
quote and at its end.
-/

namespace Ephp
namespace Format

/-- The number of backslashes at the end of a text. -/
def slashes (text : Text) : Nat :=
  (text.reverse.takeWhile (· == '\\')).length

/-- A character behind a text is escaped: the text ends with an odd number of backslashes. -/
def Escapes (text : Text) : Prop :=
  slashes text % 2 = 1

/-- One closed literal: there are double quotes at both ends, and they are its only double quotes
that are not escaped. -/
structure IsClosed (token : Text) : Prop where
  quoted : ∃ inner, token = '"' :: (inner ++ ['"'])
  ends : ∀ front back, token = front ++ '"' :: back → (¬Escapes front ↔ front = [] ∨ back = [])

/-- What follows the double quote at which a literal ends, read from inside of the literal.  A
backslash takes the character behind it along. -/
def leaveLiteral? : Text → Option Text
  | [] => none
  | '\\' :: _ :: rest => leaveLiteral? rest
  | char :: rest => if char = '"' then some rest else leaveLiteral? rest

/-- What follows the literal at the start of a text. -/
def afterLiteral? : Text → Option Text
  | '"' :: rest => leaveLiteral? rest
  | _ => none

/-- The number of backslashes is even in front of each double quote and at the end. -/
structure EvenlySlashed (text : Text) : Prop where
  quotes : ∀ front back, text = front ++ '"' :: back → ¬Escapes front
  ending : ¬Escapes text

/-! ## Escaped places -/

section Escapes

variable {text : Text} {char : Char}

theorem escapes_concat : Escapes (text ++ [char]) ↔ char = '\\' ∧ ¬Escapes text := by
  rw [Escapes, slashes, List.reverse_append, List.reverse_singleton, List.singleton_append,
    List.takeWhile_cons]
  by_cases slash : char = '\\'
  · simp only [slash, beq_self_eq_true, if_true, List.length_cons, true_and, Escapes, slashes]
    omega
  · simp [slash]

theorem not_escapes_nil : ¬Escapes [] := by
  simp [Escapes, slashes]

theorem escapes_cons (other : char ≠ '\\') : Escapes (char :: text) ↔ Escapes text := by
  induction text using List.reverseRecOn with
  | nil =>
      have single := @escapes_concat [] char
      rw [List.nil_append] at single
      simp [single, other, not_escapes_nil]
  | append_singleton text last ih => rw [← List.cons_append, escapes_concat, escapes_concat, ih]

theorem escapes_slash : Escapes ['\\'] :=
  (@escapes_concat [] '\\').mpr ⟨rfl, not_escapes_nil⟩

/-- A backslash escapes nothing behind the next character. -/
theorem escapes_slash_cons : Escapes ('\\' :: char :: text) ↔ Escapes text := by
  induction text using List.reverseRecOn with
  | nil =>
      have pair := @escapes_concat ['\\'] char
      rw [List.singleton_append] at pair
      simp [pair, escapes_slash, not_escapes_nil]
  | append_singleton text last ih =>
      rw [← List.cons_append, ← List.cons_append, escapes_concat, escapes_concat, ih]

end Escapes

/-! ## Reading a literal -/

/-- What stands between the double quotes of a literal: its own double quotes are escaped, and the
one behind it is not. -/
structure IsInner (text : Text) : Prop where
  escaped : ∀ before after, text = before ++ '"' :: after → Escapes before
  ending : ¬Escapes text

section IsInner

variable {text : Text} {char : Char}

theorem isInner_nil : IsInner [] :=
  ⟨by simp, not_escapes_nil⟩

theorem isInner_cons (other : char ≠ '\\') (unquoted : char ≠ '"') :
    IsInner (char :: text) ↔ IsInner text := by
  constructor
  · rintro ⟨escaped, ending⟩
    refine ⟨fun before after split => ?_, mt (escapes_cons other).mpr ending⟩
    exact (escapes_cons other).mp (escaped (char :: before) after (by simp [split]))
  · rintro ⟨escaped, ending⟩
    refine ⟨fun before after split => ?_, mt (escapes_cons other).mp ending⟩
    cases before with
    | nil => exact absurd (List.cons.inj split).1 unquoted
    | cons first before =>
        obtain ⟨rfl, behind⟩ := List.cons.inj split
        exact (escapes_cons other).mpr (escaped before after behind)

theorem isInner_slash_cons : IsInner ('\\' :: char :: text) ↔ IsInner text := by
  constructor
  · rintro ⟨escaped, ending⟩
    refine ⟨fun before after split => ?_, mt escapes_slash_cons.mpr ending⟩
    exact escapes_slash_cons.mp (escaped ('\\' :: char :: before) after (by simp [split]))
  · rintro ⟨escaped, ending⟩
    refine ⟨fun before after split => ?_, mt escapes_slash_cons.mp ending⟩
    rcases before with _ | ⟨_, _ | ⟨_, before⟩⟩
    · simp at split
    · obtain ⟨rfl, _⟩ := List.cons.inj split
      exact escapes_slash
    · obtain ⟨rfl, rfl, behind⟩ : '\\' = _ ∧ char = _ ∧ text = before ++ '"' :: after := by
        simpa using split
      exact escapes_slash_cons.mpr (escaped before after behind)

/-- A literal ends at its first double quote that is not escaped. -/
theorem leaveLiteral?_eq_some_iff {rest : Text} :
    leaveLiteral? text = some rest ↔ ∃ inner, text = inner ++ '"' :: rest ∧ IsInner inner := by
  fun_induction leaveLiteral? text with
  | case1 => simp
  | case2 char text ih =>
      rw [ih]
      constructor
      · rintro ⟨inner, rfl, sound⟩
        exact ⟨'\\' :: char :: inner, rfl, isInner_slash_cons.mpr sound⟩
      · rintro ⟨inner, split, sound⟩
        rcases inner with _ | ⟨_, _ | ⟨_, inner⟩⟩
        · simp at split
        · obtain ⟨rfl, _⟩ := List.cons.inj split
          exact absurd escapes_slash sound.ending
        · obtain ⟨rfl, rfl, behind⟩ : '\\' = _ ∧ char = _ ∧ text = inner ++ '"' :: rest := by
            simpa using split
          exact ⟨inner, behind, isInner_slash_cons.mp sound⟩
  | case3 text =>
      constructor
      · intro same
        obtain rfl := Option.some.inj same
        exact ⟨[], rfl, isInner_nil⟩
      · rintro ⟨inner, split, sound⟩
        cases inner with
        | nil => simpa using split
        | cons first inner =>
            obtain ⟨rfl, _⟩ := List.cons.inj split
            exact absurd (sound.escaped [] inner rfl) not_escapes_nil
  | case4 char text unpaired unquoted ih =>
      rw [ih]
      by_cases slash : char = '\\'
      · -- A backslash at the very end has no character to take along.
        obtain rfl : text = [] := by
          cases text with
          | nil => rfl
          | cons second text => exact absurd rfl (unpaired second text slash)
        constructor
        · rintro ⟨inner, split, _⟩
          simp at split
        · rintro ⟨inner, split, _⟩
          cases inner with
          | nil => exact absurd (List.cons.inj split).1 unquoted
          | cons first inner => simp at split
      · constructor
        · rintro ⟨inner, rfl, sound⟩
          exact ⟨char :: inner, rfl, (isInner_cons slash unquoted).mpr sound⟩
        · rintro ⟨inner, split, sound⟩
          cases inner with
          | nil => exact absurd (List.cons.inj split).1 unquoted
          | cons first inner =>
              obtain ⟨rfl, behind⟩ := List.cons.inj split
              exact ⟨inner, behind, (isInner_cons slash unquoted).mp sound⟩

end IsInner

theorem isClosed_iff_isInner {inner : Text} :
    IsClosed ('"' :: (inner ++ ['"'])) ↔ IsInner inner := by
  have first : '"' ≠ '\\' := by decide
  constructor
  · rintro ⟨-, ends⟩
    refine ⟨fun before after split => ?_, ?_⟩
    · have unended := mt (ends ('"' :: before) (after ++ ['"']) (by simp [split])).mp (by simp)
      exact (escapes_cons first).mp (Classical.not_not.mp unended)
    · exact mt (escapes_cons first).mpr ((ends ('"' :: inner) [] (by simp)).mpr (.inr rfl))
  · rintro ⟨escaped, ending⟩
    refine ⟨⟨inner, rfl⟩, fun front back split => ?_⟩
    cases front with
    | nil => simp [not_escapes_nil]
    | cons head front =>
        obtain ⟨rfl, behind⟩ := List.cons.inj split
        rw [escapes_cons first]
        rcases List.eq_nil_or_concat back with rfl | ⟨back, last, rfl⟩
        · obtain rfl : inner = front := (List.append_inj' behind rfl).1
          simp [ending]
        · have cut : inner ++ ['"'] = (front ++ '"' :: back) ++ [last] := by simpa using behind
          simp [escaped front back (List.append_inj' cut rfl).1]

/-- A closed literal is read to its end, whatever follows it. -/
theorem isClosed_iff {token : Text} :
    IsClosed token ↔ ∀ rest, afterLiteral? (token ++ rest) = some rest := by
  constructor
  · rintro closed rest
    obtain ⟨inner, rfl⟩ := closed.quoted
    have whole : '"' :: (inner ++ ['"']) ++ rest = '"' :: (inner ++ '"' :: rest) := by simp
    rw [whole, afterLiteral?, leaveLiteral?_eq_some_iff]
    exact ⟨inner, rfl, isClosed_iff_isInner.mp closed⟩
  · intro read
    have alone := read []
    rw [List.append_nil, afterLiteral?.eq_def] at alone
    split at alone
    · obtain ⟨inner, rfl, sound⟩ := leaveLiteral?_eq_some_iff.mp alone
      exact isClosed_iff_isInner.mpr sound
    · simp at alone

/-! ## Literals as they are written -/

/-- A text with a backslash in front of each double quote. -/
def escapeQuotes (text : Text) : Text :=
  Text.replace ['"'] ['\\', '"'] text

section EscapeQuotes

variable {text : Text}

theorem escapeQuotes_append (front back : Text) :
    escapeQuotes (front ++ back) = escapeQuotes front ++ escapeQuotes back := by
  simp only [escapeQuotes, Text.replace_singleton, List.flatMap_append]

theorem escapeQuotes_quote (back : Text) :
    escapeQuotes ('"' :: back) = '\\' :: '"' :: escapeQuotes back := by
  simp only [escapeQuotes, Text.replace_singleton, List.flatMap_cons, if_true, List.cons_append,
    List.nil_append]

theorem escapeQuotes_cons {char : Char} (other : char ≠ '"') (back : Text) :
    escapeQuotes (char :: back) = char :: escapeQuotes back := by
  simp only [escapeQuotes, Text.replace_singleton, List.flatMap_cons, if_neg other,
    List.singleton_append]

theorem escapeQuotes_nil : escapeQuotes [] = [] := rfl

theorem escapes_escapeQuotes : Escapes (escapeQuotes text) ↔ Escapes text := by
  induction text using List.reverseRecOn with
  | nil => rfl
  | append_singleton text last ih =>
      rw [escapeQuotes_append, escapes_concat]
      by_cases quote : last = '"'
      · have split : escapeQuotes text ++ escapeQuotes [last] =
            (escapeQuotes text ++ ['\\']) ++ ['"'] := by
          rw [quote, escapeQuotes_quote, escapeQuotes_nil, List.append_assoc]
          rfl
        rw [split, escapes_concat, quote]
        simp
      · rw [escapeQuotes_cons quote, escapeQuotes_nil, escapes_concat, ih]

/-- A double quote of the written text is one of the text itself, behind its backslash. -/
theorem exists_of_escapeQuotes {front back : Text}
    (split : escapeQuotes text = front ++ '"' :: back) :
    ∃ before after, text = before ++ '"' :: after ∧ front = escapeQuotes before ++ ['\\'] := by
  induction text generalizing front with
  | nil => simp [escapeQuotes_nil] at split
  | cons char text ih =>
      by_cases quote : char = '"'
      · rw [quote, escapeQuotes_quote] at split
        rcases front with _ | ⟨_, _ | ⟨_, front⟩⟩
        · simp at split
        · obtain ⟨rfl, _⟩ := List.cons.inj split
          exact ⟨[], text, by rw [quote]; rfl, rfl⟩
        · obtain ⟨rfl, rfl, behind⟩ :
              '\\' = _ ∧ '"' = _ ∧ escapeQuotes text = front ++ '"' :: back := by
            simpa using split
          obtain ⟨before, after, rfl, rfl⟩ := ih behind
          exact ⟨'"' :: before, after, by rw [quote]; rfl, by rw [escapeQuotes_quote]; rfl⟩
      · rw [escapeQuotes_cons quote] at split
        cases front with
        | nil => exact absurd (List.cons.inj split).1 quote
        | cons first front =>
            obtain ⟨rfl, behind⟩ := List.cons.inj split
            obtain ⟨before, after, rfl, rfl⟩ := ih behind
            exact ⟨char :: before, after, rfl, by rw [escapeQuotes_cons quote]; rfl⟩

/-- Literal text is written as one closed literal exactly if its backslashes are even in number
wherever they could escape a double quote. -/
theorem isClosed_quote_iff : IsClosed (quote text) ↔ EvenlySlashed text := by
  have shape : quote text = '"' :: (escapeQuotes text ++ ['"']) := rfl
  rw [shape, isClosed_iff_isInner]
  constructor
  · rintro ⟨escaped, ending⟩
    refine ⟨?_, mt escapes_escapeQuotes.mpr ending⟩
    rintro front back rfl
    have inside : escapeQuotes (front ++ '"' :: back) =
        (escapeQuotes front ++ ['\\']) ++ '"' :: escapeQuotes back := by
      rw [escapeQuotes_append, escapeQuotes_quote, List.append_assoc]
      rfl
    exact mt escapes_escapeQuotes.mpr (escapes_concat.mp (escaped _ _ inside)).2
  · rintro ⟨quotes, ending⟩
    refine ⟨fun front back split => ?_, mt escapes_escapeQuotes.mp ending⟩
    obtain ⟨before, after, rfl, rfl⟩ := exists_of_escapeQuotes split
    exact escapes_concat.mpr ⟨rfl, mt escapes_escapeQuotes.mp (quotes before after rfl)⟩

end EscapeQuotes

end Format

namespace Expr

open Format

/-- Wherever literal text stands in a format text, it is written as one token of the
concatenation.  This token is one closed literal, which is left at its last double quote whatever
follows, exactly if the text has an even number of backslashes in front of each double quote and at
its end. -/
theorem literal_isClosed_iff (names : Names) {quote : Char} (quoted : isQuote quote = true)
    (layout : Layout) {front back : List Segment} {text written : Text}
    (placed : layout.segments = front ++ .literal text :: back)
    (done : expandFormat names (layout.text quote) = .ok written) :
    ∃ above token below, written = Text.join " . ".toList (above ++ token :: below) ∧
      front.map (Segment.write names) = above.map .ok ∧
      back.map (Segment.write names) = below.map .ok ∧
      Segment.write names (.literal text) = .ok token ∧
      (IsClosed token ↔ EvenlySlashed text) ∧
      ((∀ rest, afterLiteral? (token ++ rest) = some rest) ↔ EvenlySlashed text) := by
  rw [expandFormat_of_layout names quoted, Except.bind_eq_ok] at done
  obtain ⟨parts, each, joined⟩ := done
  rw [Except.mapM_eq_ok_iff, placed, List.map_append, List.map_cons] at each
  obtain ⟨above, rest, rfl, above_eq, rest_eq⟩ := List.map_eq_append_iff.mp each.symm
  obtain ⟨token, below, rfl, token_eq, below_eq⟩ := List.map_eq_cons_iff.mp rest_eq
  rw [joinSegments_of_ne_nil (by simp), Except.ok.injEq] at joined
  have quotation : token = Format.quote text := by
    rw [Segment.write_eq_expandSegment] at token_eq
    exact Except.ok.inj token_eq
  refine ⟨above, token, below, joined.symm, above_eq.symm, below_eq.symm, token_eq.symm, ?_, ?_⟩
  · rw [quotation, isClosed_quote_iff]
  · rw [← isClosed_iff, quotation, isClosed_quote_iff]

/-- Two backslashes in front of a double quote and two at the end, between placeholders. -/
def slashedLayout : Layout where
  segments := [.placeholder ['x'], .literal "a\\\\\"b\\\\".toList, .placeholder ['x']]
  filled := by simp
  sound := by decide
  apart := by decide

theorem literal_isClosed_iff_slashed :
    ∃ token, expandFormat ⟨[['x']], []⟩ (slashedLayout.text '"') =
        .ok ("$x . ".toList ++ token ++ " . $x".toList) ∧
      token = "\"a\\\\\\\"b\\\\\"".toList ∧ IsClosed token := by
  have done : expandFormat ⟨[['x']], []⟩ (slashedLayout.text '"') =
      .ok ("$x . ".toList ++ "\"a\\\\\\\"b\\\\\"".toList ++ " . $x".toList) := by decide +kernel
  have placed : slashedLayout.segments =
      [.placeholder ['x']] ++ .literal "a\\\\\"b\\\\".toList :: [.placeholder ['x']] := rfl
  obtain ⟨_, token, _, _, _, _, token_eq, closed, read⟩ :=
    literal_isClosed_iff _ rfl slashedLayout placed done
  have spelled : "\"a\\\\\\\"b\\\\\"".toList = token := Except.ok.inj token_eq
  subst spelled
  exact ⟨_, done, rfl, closed.mpr (read.mp fun rest => rfl)⟩

/-- A double quote that is escaped already gets a second backslash, which escapes the first one, and
the literal ends there. -/
theorem not_isClosed_escaped :
    ∃ token, expandFormat Names.empty "f\"\\\"\"".toList = .ok token ∧
      ¬IsClosed token ∧ afterLiteral? token = some ['"'] := by
  have done : expandFormat Names.empty "f\"\\\"\"".toList = .ok "\"\\\\\"\"".toList := by
    decide +kernel
  have early : afterLiteral? "\"\\\\\"\"".toList = some ['"'] := by decide
  refine ⟨_, done, fun closed => ?_, early⟩
  have whole := isClosed_iff.mp closed []
  rw [List.append_nil, early] at whole
  cases whole

end Expr
end Ephp
