import Mathlib.Data.List.Infix
import Mathlib.Data.List.Chain
import Ephp.Proofs.Segments
import Ephp.Proofs.Sigils

/-!
# Doubled sigils

A variable takes a sigil wherever it stands outside of the closed literals, also where it has one
in front of it already.  Two sigils in a row are written exactly if there is such a variable, or if
they stood in a row before.  Of all rewriting, only appending to a list can bring two sigils
together: it takes away the parenthesis behind the appended element.
-/

namespace Ephp

namespace Text

/-- Two sigils stand in a row. -/
def Doubled (text : Text) : Prop :=
  List.IsInfix ['$', '$'] text

instance (text : Text) : Decidable (Doubled text) :=
  inferInstanceAs (Decidable (List.IsInfix _ _))

/-! ## Texts with their sigils alike -/

section Doubled

variable {left right word : Text}

theorem not_doubled_iff {text : Text} :
    ¬Doubled text ↔ text.IsChain fun left right => ¬(left = '$' ∧ right = '$') := by
  rw [List.isChain_iff_forall_rel_of_append_cons_cons]
  constructor
  · rintro single first second front back rfl ⟨rfl, rfl⟩
    exact single ⟨front, back, by simp⟩
  · rintro apart ⟨front, back, rfl⟩
    exact @apart '$' '$' front back (by simp) ⟨rfl, rfl⟩

theorem doubled_append :
    Doubled (left ++ right) ↔ Doubled left ∨ Doubled right ∨
      left.getLast? = some '$' ∧ right.head? = some '$' := by
  have between : (∀ first ∈ left.getLast?, ∀ second ∈ right.head?,
      ¬(first = '$' ∧ second = '$')) ↔ ¬(left.getLast? = some '$' ∧ right.head? = some '$') := by
    constructor
    · rintro apart ⟨ends, starts⟩
      exact apart '$' ends '$' starts ⟨rfl, rfl⟩
    · rintro apart _ ends _ starts ⟨rfl, rfl⟩
      exact apart ⟨ends, starts⟩
  rw [← not_iff_not, not_or, not_or, not_doubled_iff, not_doubled_iff, not_doubled_iff,
    List.isChain_append, between]

theorem doubled_cons {char : Char} :
    Doubled (char :: right) ↔ Doubled right ∨ char = '$' ∧ right.head? = some '$' := by
  have single : ¬Doubled [char] := by
    rintro ⟨front, back, split⟩
    have lengths := congrArg List.length split
    simp at lengths
    omega
  rw [← List.singleton_append, doubled_append, or_iff_right single]
  simp

theorem not_doubled_of_free (free : '$' ∉ word) : ¬Doubled word :=
  fun doubled => free (doubled.subset List.mem_cons_self)

theorem getLast?_ne_of_free (free : '$' ∉ word) : word.getLast? ≠ some '$' :=
  fun ends => free (List.mem_of_getLast? ends)

theorem head?_ne_of_free (free : '$' ∉ word) : word.head? ≠ some '$' :=
  fun starts => free (List.mem_of_head? starts)

theorem doubled_append_left (free : '$' ∉ word) : Doubled (word ++ right) ↔ Doubled right := by
  simp [doubled_append, not_doubled_of_free free, getLast?_ne_of_free free]

theorem doubled_append_right (free : '$' ∉ word) : Doubled (left ++ word) ↔ Doubled left := by
  simp [doubled_append, not_doubled_of_free free, head?_ne_of_free free]

end Doubled

/-- Two texts agree on whether they are empty, start with a sigil, end with a sigil and have two
sigils in a row. -/
structure Alike (left right : Text) : Prop where
  empty : left = [] ↔ right = []
  starts : left.head? = some '$' ↔ right.head? = some '$'
  ends : left.getLast? = some '$' ↔ right.getLast? = some '$'
  doubled : Doubled left ↔ Doubled right

namespace Alike

variable {left right other more : Text}

theorem refl (text : Text) : Alike text text :=
  ⟨.rfl, .rfl, .rfl, .rfl⟩

theorem trans (first : Alike left right) (second : Alike right other) : Alike left other :=
  ⟨first.empty.trans second.empty, first.starts.trans second.starts,
    first.ends.trans second.ends, first.doubled.trans second.doubled⟩

theorem of_free (left_free : '$' ∉ left) (right_free : '$' ∉ right) (left_filled : left ≠ [])
    (right_filled : right ≠ []) : Alike left right where
  empty := iff_of_false left_filled right_filled
  starts := iff_of_false (head?_ne_of_free left_free) (head?_ne_of_free right_free)
  ends := iff_of_false (getLast?_ne_of_free left_free) (getLast?_ne_of_free right_free)
  doubled := iff_of_false (not_doubled_of_free left_free) (not_doubled_of_free right_free)

theorem append (front : Alike left right) (back : Alike other more) :
    Alike (left ++ other) (right ++ more) where
  empty := by simp only [List.append_eq_nil_iff, front.empty, back.empty]
  starts := by
    cases left with
    | nil =>
        obtain rfl := front.empty.mp rfl
        exact back.starts
    | cons first left =>
        cases right with
        | nil => cases front.empty.mpr rfl
        | cons second right => simpa using front.starts
  ends := by
    rcases List.eq_nil_or_concat other with rfl | ⟨other, last, rfl⟩
    · obtain rfl := back.empty.mp rfl
      simpa using front.ends
    · rcases List.eq_nil_or_concat more with rfl | ⟨more, final, rfl⟩
      · simpa using back.empty.mpr rfl
      · simpa using back.ends
  doubled := by
    rw [doubled_append, doubled_append, front.doubled, back.doubled, front.ends, back.starts]

theorem flatMap {α : Type} {items : List α} {first second : α → Text}
    (each : ∀ item ∈ items, Alike (first item) (second item)) :
    Alike (items.flatMap first) (items.flatMap second) := by
  induction items with
  | nil => exact refl []
  | cons item items ih =>
      obtain ⟨one, others⟩ := List.forall_mem_cons.mp each
      rw [List.flatMap_cons, List.flatMap_cons]
      exact one.append (ih others)

theorem replace {old new : Text} (filled : old ≠ [] ∧ new ≠ []) (free : '$' ∉ old ∧ '$' ∉ new)
    (text : Text) : Alike (Text.replace old new text) text := by
  induction text using replace_induct filled.1 with
  | nil => exact refl []
  | occurrence rest ih =>
      rw [replace_occurrence filled.1]
      exact (of_free free.2 free.1 filled.2 filled.1).append ih
  | copied char rest absent ih =>
      rw [replace_cons absent]
      exact (refl [char]).append ih

end Alike

/-! ## Substitutions -/

section Substitution

variable {rule : Text → Option (Text × Text)}

/-- Every application of a rule consumes something at the front. -/
def Consumes (rule : Text → Option (Text × Text)) : Prop :=
  ∀ text written behind, rule text = some (written, behind) →
    ∃ front, front ≠ [] ∧ text = front ++ behind

/-- Induction along a substitution: a text is empty, starts with what the rule applies to, or starts
with a character that is copied. -/
theorem substitute_induct {motive : Text → Prop} (consumes : Consumes rule) (nil : motive [])
    (applied : ∀ front written behind, rule (front ++ behind) = some (written, behind) →
      substitute rule (front ++ behind) = written ++ substitute rule behind →
        motive behind → motive (front ++ behind))
    (copied : ∀ char rest, rule (char :: rest) = none →
      substitute rule (char :: rest) = char :: substitute rule rest →
        motive rest → motive (char :: rest)) (text : Text) : motive text := by
  generalize size : text.length = length
  induction length using Nat.strongRecOn generalizing text with
  | _ length ih =>
      cases text with
      | nil => exact nil
      | cons char rest =>
          cases found : rule (char :: rest) with
          | none =>
              exact copied char rest found (substitute_of_eq_none found)
                (ih rest.length (by simp [← size]) rest rfl)
          | some answer =>
              obtain ⟨written, behind⟩ := answer
              obtain ⟨front, filled, split⟩ := consumes _ _ _ found
              obtain ⟨first, others, rfl⟩ := List.exists_cons_of_ne_nil filled
              rw [split] at found size ⊢
              refine applied _ written behind found (substitute_of_eq_some found)
                (ih behind.length ?_ behind rfl)
              rw [← size, List.length_append, List.length_cons]
              omega

theorem Alike.substitute
    (alike : ∀ text written behind, rule text = some (written, behind) →
      ∃ front, front ≠ [] ∧ text = front ++ behind ∧ Alike written front) (text : Text) :
    Alike (Text.substitute rule text) text := by
  have consumes : Consumes rule := fun text written behind found =>
    (alike text written behind found).imp fun _ split => ⟨split.1, split.2.1⟩
  induction text using substitute_induct consumes with
  | nil => exact refl []
  | applied front written behind found same ih =>
      obtain ⟨_, _, split, like⟩ := alike _ written behind found
      obtain rfl := List.append_cancel_right split
      rw [same]
      exact like.append ih
  | copied char rest idle same ih =>
      rw [same]
      exact (refl [char]).append ih

end Substitution

end Text

namespace Expr

open Text (Alike Doubled doubled_append doubled_append_left doubled_append_right doubled_cons)

/-! ## Calls -/

/-- The text of a call of a method on a word. -/
def callText (subject method blanks arguments : Text) : Text :=
  subject ++ '.' :: (method ++ (blanks ++ '(' :: (arguments ++ [')'])))

/-- The words of a method call are as they should be. -/
structure IsCall (subject blanks arguments : Text) : Prop where
  filled : subject ≠ []
  letters : ∀ char ∈ subject, Text.isWordChar char = true
  blank : ∀ char ∈ blanks, Text.isBlank char = true
  unclosed : ')' ∉ arguments

section Calls

variable {method text behind subject arguments blanks : Text}

theorem exists_of_methodCall
    (matched : (methodCall method).match? text = some ((subject, arguments, ()), behind)) :
    ∃ blanks, text = callText subject method blanks arguments ++ behind ∧
      IsCall subject blanks arguments ∧ arguments ≠ [] := by
  obtain ⟨_, rfl, ⟨first, others, rfl, started, all⟩, dotted⟩ :=
    Pattern.exists_of_match?_keep matched
  obtain ⟨_, rfl, spaced⟩ := Pattern.match?_fixed_eq_some.mp dotted
  obtain ⟨blanks, _, rfl, blank, opened⟩ := Pattern.exists_of_match?_skip spaced
  obtain ⟨_, rfl, given⟩ := Pattern.match?_fixed_eq_some.mp opened
  obtain ⟨_, rfl, ⟨head, tail, rfl, head_open, tail_open⟩, closed⟩ :=
    Pattern.exists_of_match?_keep given
  obtain ⟨_, rfl, stopped⟩ := Pattern.match?_fixed_eq_some.mp closed
  cases stopped
  refine ⟨blanks, by simp [callText], ⟨by simp, ?_, blank, fun mem => ?_⟩, by simp⟩
  · exact List.forall_mem_cons.mpr ⟨started, all⟩
  · rcases List.mem_cons.mp mem with same | mem
    · simp [← same] at head_open
    · simpa using tail_open _ mem

theorem exists_of_bareMethodCall
    (matched : (bareMethodCall method).match? text = some ((subject, ()), behind)) :
    ∃ blanks, text = callText subject method blanks [] ++ behind ∧ IsCall subject blanks [] := by
  obtain ⟨_, rfl, ⟨first, others, rfl, started, all⟩, dotted⟩ :=
    Pattern.exists_of_match?_keep matched
  obtain ⟨_, rfl, spaced⟩ := Pattern.match?_fixed_eq_some.mp dotted
  obtain ⟨blanks, _, rfl, blank, opened⟩ := Pattern.exists_of_match?_skip spaced
  obtain ⟨_, rfl, stopped⟩ := Pattern.match?_fixed_eq_some.mp opened
  cases stopped
  exact ⟨blanks, by simp [callText], by simp, List.forall_mem_cons.mpr ⟨started, all⟩, blank,
    by simp⟩

namespace IsCall

theorem subject_free (call : IsCall subject blanks arguments) : '$' ∉ subject :=
  fun mem => absurd (call.letters '$' mem) (by decide)

theorem blanks_free (call : IsCall subject blanks arguments) : '$' ∉ blanks :=
  fun mem => absurd (call.blank '$' mem) (by decide)

/-- What stands in front of the arguments of a call has no sigil. -/
theorem front_free (call : IsCall subject blanks arguments) (plain : '$' ∉ method) :
    '$' ∉ subject ++ '.' :: (method ++ (blanks ++ ['('])) := by
  simp [call.subject_free, call.blanks_free, plain]

theorem alike_callText (call : IsCall subject blanks arguments) (plain : '$' ∉ method)
    {opening closing : Text} (opening_free : '$' ∉ opening) (closing_free : '$' ∉ closing)
    (opening_filled : opening ≠ []) (closing_filled : closing ≠ []) :
    Alike (opening ++ (arguments ++ closing)) (callText subject method blanks arguments) := by
  have shape : callText subject method blanks arguments =
      (subject ++ '.' :: (method ++ (blanks ++ ['(']))) ++ (arguments ++ [')']) := by
    simp [callText]
  rw [shape]
  refine .append (.of_free opening_free (call.front_free plain) opening_filled (by simp)) ?_
  exact .append (.refl arguments) (.of_free closing_free (by decide) closing_filled (by simp))

theorem fits_methodCall (call : IsCall subject blanks arguments) (method : Text)
    (filled : arguments ≠ []) (behind : Text) :
    (methodCall method).Fits (callText subject method blanks arguments ++ behind) := by
  obtain ⟨first, others, rfl⟩ := List.exists_cons_of_ne_nil call.filled
  obtain ⟨head, tail, rfl⟩ := List.exists_cons_of_ne_nil filled
  have started := List.forall_mem_cons.mp call.letters
  have unclosed : ∀ char ∈ head :: tail, (char != ')') = true := by
    intro char mem
    simpa using fun same : char = ')' => call.unclosed (same ▸ mem)
  have shape : callText (first :: others) method blanks (head :: tail) ++ behind =
      (first :: others) ++ (('.' :: method) ++ (blanks ++ (['('] ++ ((head :: tail) ++
        ([')'] ++ behind))))) := by
    simp [callText]
  rw [shape]
  exact ⟨_, _, rfl, ⟨first, others, rfl, started⟩, _, rfl, _, _, rfl, call.blank, _, rfl, _, _, rfl,
    ⟨head, tail, rfl, List.forall_mem_cons.mp unclosed⟩, _, rfl, trivial⟩

end IsCall

/-- What a rule for the calls of a method replaces, and what it writes. -/
theorem exists_of_rule_methodCall {write : Text × Text × Unit → Text} {written : Text}
    (applied : (methodCall method).rule write text = some (written, behind)) :
    ∃ subject blanks arguments, text = callText subject method blanks arguments ++ behind ∧
      IsCall subject blanks arguments ∧ arguments ≠ [] ∧
        written = write (subject, arguments, ()) := by
  simp only [Pattern.rule, Option.map_eq_some_iff, Prod.exists, Prod.mk.injEq] at applied
  obtain ⟨subject, arguments, _, _, matched, rfl, rfl⟩ := applied
  obtain ⟨blanks, split, call, filled⟩ := exists_of_methodCall matched
  exact ⟨subject, blanks, arguments, split, call, filled, rfl⟩

theorem exists_of_rule_bareMethodCall {write : Text × Unit → Text} {written : Text}
    (applied : (bareMethodCall method).rule write text = some (written, behind)) :
    ∃ subject blanks, text = callText subject method blanks [] ++ behind ∧
      IsCall subject blanks [] ∧ written = write (subject, ()) := by
  simp only [Pattern.rule, Option.map_eq_some_iff, Prod.exists, Prod.mk.injEq] at applied
  obtain ⟨subject, _, _, matched, rfl, rfl⟩ := applied
  obtain ⟨blanks, split, call⟩ := exists_of_bareMethodCall matched
  exact ⟨subject, blanks, split, call, rfl⟩

theorem callText_ne_nil : callText subject method blanks arguments ≠ [] := by
  simp [callText]

theorem alike_convertSplit (text : Text) : Alike (convertSplit text) text := by
  refine .substitute (fun text written behind applied => ?_) text
  obtain ⟨subject, blanks, arguments, split, call, _, rfl⟩ := exists_of_rule_methodCall applied
  refine ⟨_, callText_ne_nil, split, ?_⟩
  have plain := call.subject_free
  have written : Alike ("explode(".toList ++ (arguments ++ (", ".toList ++ (subject ++ [')']))))
      (callText subject "split".toList blanks arguments) :=
    call.alike_callText (by decide) (by decide) (by simp [plain]) (by decide) (by simp)
  simpa using written

theorem alike_convertStrip (text : Text) : Alike (convertStrip text) text := by
  refine .substitute (fun text written behind applied => ?_) text
  obtain ⟨subject, blanks, split, call, rfl⟩ := exists_of_rule_bareMethodCall applied
  refine ⟨_, callText_ne_nil, split, ?_⟩
  have plain := call.subject_free
  have written : Alike ("trim(".toList ++ ([] ++ (subject ++ [')'])))
      (callText subject "strip".toList blanks []) :=
    call.alike_callText (by decide) (by decide) (by simp [plain]) (by decide) (by simp)
  simpa using written

/-! ## Appending -/

/-- An element that ends with a sigil is appended to a list, and another sigil follows. -/
def Trails (text : Text) : Prop :=
  ∃ front subject blanks element back,
    text = front ++ (callText subject "append".toList blanks (element ++ ['$']) ++ '$' :: back) ∧
      IsCall subject blanks (element ++ ['$'])

/-- A call up to its closing parenthesis. -/
def appendText (subject blanks arguments : Text) : Text :=
  subject ++ '.' :: ("append".toList ++ (blanks ++ '(' :: arguments))

theorem callText_append (subject blanks arguments : Text) :
    callText subject "append".toList blanks arguments =
      appendText subject blanks arguments ++ [')'] := by
  simp [callText, appendText]

theorem getLast?_appendText (filled : arguments ≠ []) :
    (appendText subject blanks arguments).getLast? = arguments.getLast? := by
  obtain ⟨front, last, rfl⟩ := (List.eq_nil_or_concat arguments).resolve_left filled
  simp [appendText, List.getLast?_append, List.getLast?_cons]

theorem IsCall.not_mem_appendText (call : IsCall subject blanks arguments) :
    ')' ∉ appendText subject blanks arguments := by
  have letters : ')' ∉ subject := fun mem => absurd (call.letters ')' mem) (by decide)
  have spaces : ')' ∉ blanks := fun mem => absurd (call.blank ')' mem) (by decide)
  simp [appendText, letters, spaces, call.unclosed]

/-- An element trails behind the start of a call, where it can only be the one of this call, or
behind its end. -/
theorem trails_callText_iff (call : IsCall subject blanks arguments) (filled : arguments ≠ []) :
    Trails (callText subject "append".toList blanks arguments ++ behind) ↔
      arguments.getLast? = some '$' ∧ behind.head? = some '$' ∨ Trails behind := by
  constructor
  · rintro ⟨front, word, spaces, element, back, split, other⟩
    rw [callText_append, callText_append, List.append_assoc, List.append_assoc,
      List.singleton_append, List.singleton_append] at split
    -- The closing parenthesis of the call is the first one of the text.
    by_cases closed : ')' ∈ front
    · obtain ⟨before, after, rfl, open_before⟩ := List.eq_append_cons_of_mem closed
      rw [List.append_assoc, List.cons_append] at split
      have later := (Text.eq_of_first call.not_mem_appendText open_before split).2
      refine .inr ⟨after, word, spaces, element, back, ?_, other⟩
      rw [later, callText_append, List.append_assoc, List.singleton_append]
    · rw [← List.append_assoc] at split
      obtain ⟨same, rfl⟩ := Text.eq_of_first call.not_mem_appendText
        (by simp [closed, other.not_mem_appendText]) split
      have last := congrArg List.getLast? same
      rw [getLast?_appendText filled, List.getLast?_append, getLast?_appendText (by simp)] at last
      exact .inl ⟨by simpa using last, rfl⟩
  · rintro (⟨ends, starts⟩ | ⟨front, word, spaces, element, back, rfl, other⟩)
    · obtain ⟨element, rfl⟩ := List.getLast?_eq_some_iff.mp ends
      obtain ⟨back, rfl⟩ := List.head?_eq_some_iff.mp starts
      exact ⟨[], subject, blanks, element, back, rfl, call⟩
    · exact ⟨_ ++ front, word, spaces, element, back, (List.append_assoc _ _ _).symm, other⟩

theorem consumes_methodCall (method : Text) (write : Text × Text × Unit → Text) :
    Text.Consumes ((methodCall method).rule write) := by
  intro text written behind applied
  obtain ⟨_, _, _, split, _⟩ := exists_of_rule_methodCall applied
  exact ⟨_, callText_ne_nil, split⟩

/-- An element that trails at the very start of a text is that of a call there. -/
theorem trails_cons_iff {char : Char} {rest : Text} {write : Text × Text × Unit → Text}
    (idle : (methodCall "append".toList).rule write (char :: rest) = none) :
    Trails (char :: rest) ↔ Trails rest := by
  constructor
  · rintro ⟨front, subject, blanks, element, back, split, call⟩
    cases front with
    | cons first front =>
        obtain ⟨rfl, behind⟩ := List.cons.inj split
        exact ⟨front, subject, blanks, element, back, behind, call⟩
    | nil =>
        have fits := call.fits_methodCall "append".toList (by simp) ('$' :: back)
        rw [Pattern.rule, Option.map_eq_none_iff] at idle
        rw [← Pattern.isSome_match?_iff, ← List.nil_append (_ ++ _), ← split, idle] at fits
        cases fits
  · rintro ⟨front, subject, blanks, element, back, rfl, call⟩
    exact ⟨char :: front, subject, blanks, element, back, rfl, call⟩

/-- Appending keeps a sigil at the start, and it brings two sigils together exactly where an
element trails. -/
theorem doubled_substitute_append {write : Text × Text × Unit → Text}
    (writes : ∀ subject arguments,
      write (subject, arguments, ()) = subject ++ "[] = ".toList ++ arguments) (text : Text) :
    ((Text.substitute ((methodCall "append".toList).rule write) text).head? = some '$' ↔
        text.head? = some '$') ∧
      (Doubled (Text.substitute ((methodCall "append".toList).rule write) text) ↔
        Doubled text ∨ Trails text) := by
  induction text using Text.substitute_induct (consumes_methodCall "append".toList write) with
  | nil =>
      refine ⟨.rfl, (or_iff_left ?_).symm⟩
      rintro ⟨front, subject, blanks, element, back, split, _⟩
      simp at split
  | applied front written behind found same ih =>
      obtain ⟨subject, blanks, arguments, split, call, filled, rfl⟩ :=
        exists_of_rule_methodCall found
      obtain rfl := List.append_cancel_right split
      have plain := call.subject_free
      have ends : (subject ++ "[] = ".toList ++ arguments).getLast? = arguments.getLast? := by
        obtain ⟨front, last, rfl⟩ := (List.eq_nil_or_concat arguments).resolve_left filled
        rw [List.concat_eq_append, ← List.append_assoc, List.getLast?_concat, List.getLast?_concat]
      have starts (rest : Text) : (subject ++ rest).head? ≠ some '$' := by
        obtain ⟨first, others, rfl⟩ := List.exists_cons_of_ne_nil call.filled
        simpa using fun same : first = '$' => plain (by simp [same])
      have target : '$' ∉ subject ++ "[] = ".toList := by
        simp [plain]
      have before : Doubled (callText subject "append".toList blanks arguments ++ behind) ↔
          Doubled arguments ∨ Doubled behind := by
        have shape : callText subject "append".toList blanks arguments ++ behind =
            (subject ++ '.' :: ("append".toList ++ (blanks ++ ['(']))) ++
              ((arguments ++ [')']) ++ behind) := by
          simp [callText]
        rw [shape, doubled_append_left (call.front_free (by decide)), doubled_append,
          doubled_append_right (by decide), List.getLast?_concat]
        simp
      have after (rest : Text) : Doubled (subject ++ "[] = ".toList ++ arguments ++ rest) ↔
          Doubled arguments ∨ Doubled rest ∨
            arguments.getLast? = some '$' ∧ rest.head? = some '$' := by
        rw [doubled_append, ends, doubled_append_left target]
      rw [same, writes, trails_callText_iff call filled, before, after, ih.1, ih.2]
      refine ⟨iff_of_false ?_ ?_, ?_⟩
      · rw [List.append_assoc, List.append_assoc]
        exact starts _
      · rw [callText, List.append_assoc]
        exact starts _
      · rw [or_assoc, or_assoc, or_comm (a := Trails behind)]
  | copied char rest idle same ih =>
      rw [same, trails_cons_iff idle, doubled_cons, doubled_cons, ih.1, ih.2]
      exact ⟨by simp, or_right_comm⟩

/-- Respelling without sigils leaves the sigils where they are. -/
theorem alike_respell {spellings : List (Text × Text)}
    (plain : ∀ pair ∈ spellings, (pair.1 ≠ [] ∧ pair.2 ≠ []) ∧ '$' ∉ pair.1 ∧ '$' ∉ pair.2)
    (text : Text) : Alike (respell spellings text) text := by
  induction spellings generalizing text with
  | nil => exact .refl text
  | cons pair spellings ih =>
      obtain ⟨⟨filled, free⟩, plain⟩ := List.forall_mem_cons.mp plain
      rw [respell_cons]
      exact (ih plain _).trans (.replace filled free text)

/-- Two sigils stand in a row behind the conversion of calls exactly if they stood in a row before
or an element trails. -/
theorem doubled_convertCalls (text : Text) :
    Doubled (convertCalls text) ↔ Doubled text ∨ Trails (convertStrip (convertSplit text)) := by
  have renamed := alike_respell (by decide : ∀ pair ∈ builtins,
    (pair.1 ≠ [] ∧ pair.2 ≠ []) ∧ '$' ∉ pair.1 ∧ '$' ∉ pair.2)
  have appended (text : Text) : Doubled (convertAppend text) ↔ Doubled text ∨ Trails text :=
    (doubled_substitute_append (by intro _ _; rfl) text).2
  have before := (alike_convertStrip (convertSplit text)).trans (alike_convertSplit text)
  rw [convertCalls, (renamed _).doubled, appended, before.doubled]

end Calls

/-! ## Variables behind sigils -/

/-- Between `before` and `after`, a variable of the text starts directly behind a sigil. -/
def MarkedBetween (names : Names) (after before text : Text) : Prop :=
  ∃ front char back, text = front ++ char :: back ∧ (before ++ front).getLast? = some '$' ∧
    VariableAt names (before ++ front) (char :: back ++ after)

/-- A variable of an expression stands directly behind a sigil. -/
def MarkedTwice (names : Names) (text : Text) : Prop :=
  ∃ before after, text = before ++ after ∧ before.getLast? = some '$' ∧
    VariableAt names before after

section Plain

variable {names : Names}

theorem ne_sigil_of_variableAt {before text : Text} {char : Char}
    (starts : VariableAt names before (char :: text)) : char ≠ '$' := by
  rintro rfl
  exact not_variableAt_of_other (by decide) starts

theorem markedBetween_cons {after before text : Text} {char : Char} :
    MarkedBetween names after before (char :: text) ↔
      before.getLast? = some '$' ∧ VariableAt names before (char :: text ++ after) ∨
        MarkedBetween names after (before ++ [char]) text := by
  constructor
  · rintro ⟨front, next, back, split, ends, starts⟩
    cases front with
    | nil =>
        obtain ⟨rfl, rfl⟩ := List.cons.inj split
        rw [List.append_nil] at ends starts
        exact .inl ⟨ends, starts⟩
    | cons first front =>
        obtain ⟨rfl, rfl⟩ := List.cons.inj split
        exact .inr ⟨front, next, back, rfl, by simpa using ends, by simpa using starts⟩
  · rintro (⟨ends, starts⟩ | ⟨front, next, back, rfl, ends, starts⟩)
    · exact ⟨[], char, text, rfl, by simpa using ends, by simpa using starts⟩
    · exact ⟨char :: front, next, back, rfl, by simpa using ends, by simpa using starts⟩

/-- Sigils come together exactly where they were together or a variable stands behind one, also
where the first of them stands in front of the text. -/
theorem Sigiled.doubled_iff {before text after written : Text}
    (whole : Sigiled names after before text written) :
    Doubled written ∨ before.getLast? = some '$' ∧ written.head? = some '$' ↔
      (Doubled text ∨ before.getLast? = some '$' ∧ text.head? = some '$') ∨
        MarkedBetween names after before text := by
  induction whole with
  | nil =>
      refine (or_iff_left ?_).symm
      rintro ⟨front, char, back, split, _⟩
      simp at split
  | @marked before text written char starts rest ih =>
      have letter : char ≠ '$' := ne_sigil_of_variableAt starts
      rw [List.getLast?_concat, Option.some.injEq] at ih
      simp only [letter, false_and, or_false] at ih
      rw [markedBetween_cons, doubled_cons, doubled_cons, doubled_cons, ih, and_iff_left starts]
      simp only [List.head?_cons, Option.some.injEq, letter, false_and, and_false, and_true,
        or_false]
      exact or_assoc.trans (or_congr_right or_comm)
  | @copied before text written char other rest ih =>
      rw [List.getLast?_concat, Option.some.injEq] at ih
      have unmarked : ¬(before.getLast? = some '$' ∧
          VariableAt names before (char :: text ++ after)) := fun both => other both.2
      rw [markedBetween_cons, or_iff_right unmarked, doubled_cons, doubled_cons, ih,
        List.head?_cons, List.head?_cons]
      exact or_right_comm

theorem markedBetween_iff {text : Text} :
    MarkedBetween names [] [] text ↔ MarkedTwice names text := by
  constructor
  · rintro ⟨front, char, back, rfl, ends, starts⟩
    exact ⟨front, char :: back, rfl, ends, by simpa using starts⟩
  · rintro ⟨before, after, rfl, ends, starts⟩
    cases after with
    | nil =>
        have named := (variableAt_iff.mp starts).2.1
        simp [Names.takesSigil, Text.isIdentifier] at named
    | cons char back => exact ⟨before, char, back, rfl, ends, by simpa using starts⟩

/-- Keywords have no sigils, so that a part is written with its sigils where the variables have
theirs. -/
theorem alike_expandPart (part : Part) : Alike (expandPart names part) (markPart names part) := by
  cases part with
  | literal text => exact .refl text
  | code text =>
      have respelled := alike_respell (by decide : ∀ pair ∈ keywords,
        (pair.1 ≠ [] ∧ pair.2 ≠ []) ∧ '$' ∉ pair.1 ∧ '$' ∉ pair.2) (markVariables names text)
      rwa [expandPart, markPart, respellKeywords]

theorem doubled_expandPlain (text : Text) :
    Doubled (expandPlain names text) ↔
      Doubled text ∨ MarkedTwice names (Text.replace "..".toList ['.'] text) := by
  have dots : Alike (Text.replace "..".toList ['.'] text) text :=
    .replace (by decide) (by decide) text
  have written : Alike (expandPlain names text)
      ((parts (Text.replace "..".toList ['.'] text)).flatMap (markPart names)) :=
    .flatMap fun part _ => alike_expandPart part
  have sigils : Sigiled names [] [] _ _ :=
    sigiled_parts (Text.replace "..".toList ['.'] text) rfl rfl
  have doubled := sigils.doubled_iff
  simp only [List.getLast?_nil, reduceCtorEq, false_and, or_false] at doubled
  rw [written.doubled, doubled, markedBetween_iff, dots.doubled]

end Plain

/-! ## Format texts -/

/-- Two sigils in a row are written for an expression. -/
inductive Doubles (names : Names) : Text → Prop
  | rewritten {text : Text} (plain : Format.body? (convertCalls text) = none)
      (doubled : Doubled (convertCalls text)) : Doubles names text
  | marked {text : Text} (plain : Format.body? (convertCalls text) = none)
      (marked : MarkedTwice names (rewrite text)) : Doubles names text
  | literal {text body literal : Text} (found : Format.body? (convertCalls text) = some body)
      (mem : Format.Segment.literal literal ∈ Format.segments body) (doubled : Doubled literal) :
      Doubles names text
  | placeholder {text body inner : Text} (found : Format.body? (convertCalls text) = some body)
      (mem : Format.Segment.placeholder inner ∈ Format.segments body)
      (inside : Doubles names inner.strip) : Doubles names text

theorem doubled_join {texts : List Text} :
    Doubled (Text.join " . ".toList texts) ↔ ∃ text ∈ texts, Doubled text := by
  induction texts with
  | nil => simp [Doubled]
  | cons text texts ih =>
      cases texts with
      | nil => simp
      | cons second texts =>
          have separator : '$' ∉ " . ".toList := by decide
          rw [Text.join_cons_cons, List.exists_mem_cons_iff, ← ih, List.append_assoc,
            doubled_append, doubled_append_left separator]
          simp

theorem doubled_quote (text : Text) : Doubled (Format.quote text) ↔ Doubled text := by
  have escaped : Alike (Text.replace ['"'] ['\\', '"'] text) text :=
    .replace (by decide) (by decide) text
  rw [Format.quote, doubled_append_right (by decide), doubled_append_left (by decide),
    escaped.doubled]

theorem doubles_iff_of_plain {names : Names} {text : Text}
    (plain : Format.body? (convertCalls text) = none) :
    Doubles names text ↔ Doubled (convertCalls text) ∨ MarkedTwice names (rewrite text) := by
  constructor
  · rintro (⟨_, doubled⟩ | ⟨_, marked⟩ | ⟨found, _, _⟩ | ⟨found, _, _⟩)
    · exact .inl doubled
    · exact .inr marked
    · simp [plain] at found
    · simp [plain] at found
  · rintro (doubled | marked)
    · exact .rewritten plain doubled
    · exact .marked plain marked

theorem doubles_iff_of_body? {names : Names} {text body : Text}
    (found : Format.body? (convertCalls text) = some body) :
    Doubles names text ↔ ∃ segment ∈ Format.segments body,
      (∃ literal, segment = .literal literal ∧ Doubled literal) ∨
        ∃ inner, segment = .placeholder inner ∧ Doubles names inner.strip := by
  constructor
  · rintro (⟨plain, _⟩ | ⟨plain, _⟩ | ⟨other, mem, doubled⟩ | ⟨other, mem, inside⟩)
    · simp [found] at plain
    · simp [found] at plain
    · obtain rfl := Option.some.inj (found.symm.trans other)
      exact ⟨_, mem, .inl ⟨_, rfl, doubled⟩⟩
    · obtain rfl := Option.some.inj (found.symm.trans other)
      exact ⟨_, mem, .inr ⟨_, rfl, inside⟩⟩
  · rintro ⟨_, mem, ⟨literal, rfl, doubled⟩ | ⟨inner, rfl, inside⟩⟩
    · exact .literal found mem doubled
    · exact .placeholder found mem inside

/-- Two sigils in a row are written for an expression exactly if something in it doubles them. -/
theorem doubled_expand {names : Names} {text written : Text}
    (done : expand names text = .ok written) : Doubled written ↔ Doubles names text := by
  -- A placeholder has fewer opening braces than the expression around it.
  generalize size : text.count '{' = depth
  induction depth using Nat.strongRecOn generalizing text written with
  | _ depth ih =>
      rw [expand_eq] at done
      cases found : Format.body? (convertCalls text) with
      | none =>
          rw [found] at done
          obtain rfl := Except.ok.inj done
          rw [doubled_expandPlain, doubles_iff_of_plain found]
          rfl
      | some body =>
          simp only [found, Option.isSome_some, if_true, expandFormat, Except.bind_eq_ok] at done
          obtain ⟨parts, each, joined⟩ := done
          have filled : parts ≠ [] := by
            rintro rfl
            cases joined
          rw [joinSegments_of_ne_nil filled, Except.ok.injEq] at joined
          have written_iff {segment : Format.Segment} {part : Text}
              (mem : segment ∈ Format.segments body)
              (expanded : expandSegment names segment = .ok part) : Doubled part ↔
                (∃ literal, segment = .literal literal ∧ Doubled literal) ∨
                  ∃ inner, segment = .placeholder inner ∧ Doubles names inner.strip := by
            cases segment with
            | literal literal =>
                obtain rfl := Except.ok.inj expanded
                simp [doubled_quote]
            | placeholder inner =>
                simp [ih _ (size ▸ count_placeholder_lt found mem) expanded rfl]
          rw [← joined, doubled_join, doubles_iff_of_body? found]
          constructor
          · rintro ⟨part, mem, doubled⟩
            obtain ⟨segment, segment_mem, expanded⟩ := Except.exists_of_mem_mapM each part mem
            exact ⟨segment, segment_mem, (written_iff segment_mem expanded).mp doubled⟩
          · rintro ⟨segment, segment_mem, doubles⟩
            obtain ⟨part, mem, expanded⟩ := List.mem_map.mp (Except.mapM_eq_ok_iff.mp each ▸
              List.mem_map_of_mem (f := expandSegment names) segment_mem)
            exact ⟨part, mem, (written_iff segment_mem expanded.symm).mpr doubles⟩

/-- An expression without two sigils in a row is written with two in a row exactly if something in
it doubles them, and so is the line that prints it.  Before the sigils of variables are written,
two of them come together exactly if an element trails. -/
theorem doubled_iff_doubles (names : Names) {text : Text} (single : ¬Doubled text) :
    (Doubled (convertCalls text) ↔ Trails (convertStrip (convertSplit text))) ∧
      (∀ written, expand names text = .ok written → (Doubled written ↔ Doubles names text)) ∧
      ∀ indent state final, (Statement.print text).perform indent state = .ok () final →
        ∃ line, final = state.writeLine line ∧
          (Doubled line ↔ Doubles state.names (Statement.printedContent text)) := by
  refine ⟨?_, fun written done => doubled_expand done, fun indent state final done => ?_⟩
  · rw [doubled_convertCalls, or_iff_right single]
  · simp only [Statement.perform, Conversion.bind_eq_ok, Conversion.expand_eq_ok,
      Conversion.emit, Conversion.modify_eq_ok] at done
    obtain ⟨written, _, ⟨expanded, rfl⟩, rfl⟩ := done
    refine ⟨_, rfl, ?_⟩
    have blanks : '$' ∉ Text.indentation indent := by
      simp [Text.indentation]
    rw [doubled_append_left blanks, doubled_append_right (by decide),
      doubled_append_left (by decide), doubled_expand expanded]

/-- A placeholder in which an element trails, and no variables. -/
def trailingText : Text :=
  "f\"\x7bx.append($)$y\x7d\"".toList

theorem doubled_iff_doubles_trailing :
    ¬Doubled trailingText ∧ Trails (convertStrip (convertSplit trailingText)) ∧
      expand Names.empty trailingText = .ok "x[] = $$y".toList ∧
      Doubles Names.empty trailingText := by
  have single : ¬Doubled trailingText := by decide +kernel
  have done : expand Names.empty trailingText = .ok "x[] = $$y".toList := by decide +kernel
  have rewritten : Doubled (convertCalls trailingText) := by decide +kernel
  obtain ⟨trails, doubles, _⟩ := doubled_iff_doubles Names.empty single
  have doubled : Doubled "x[] = $$y".toList := by decide
  exact ⟨single, trails.mp rewritten, done, (doubles _ done).mp doubled⟩

/-- A variable with a sigil gets another one. -/
theorem doubled_of_sigil :
    ¬Doubled "$x".toList ∧ expand ⟨[['x']], []⟩ "$x".toList = .ok "$$x".toList ∧
      Doubled "$$x".toList ∧
      ∃ final, (Statement.print "$x".toList).perform 0
          { State.initial with names := ⟨[['x']], []⟩ } = .ok () final ∧
        final.lines = ["echo implode(\", \", $$x);".toList] := by
  refine ⟨by decide, by decide +kernel, by decide, ?_⟩
  have printed : ((Statement.print "$x".toList).perform 0).passes
      (fun _ final => final.lines == ["echo implode(\", \", $$x);".toList])
      { State.initial with names := ⟨[['x']], []⟩ } = true := by decide +kernel
  obtain ⟨_, final, done, lines⟩ := Conversion.passes_iff.mp printed
  have lines := beq_iff_eq.mp lines
  exact ⟨final, done, lines⟩

end Expr
end Ephp
