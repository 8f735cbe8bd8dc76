import Ephp.Proofs.Doubling
import Ephp.Proofs.Words

/-!
# What rewriting leaves in place

Calls, doubled dots, variables and keywords are rewritten, and all of this is about words, blanks
and a few marks.  A comparison of texts that is blind to these, and to an empty pair of brackets,
does not tell a text from what it is rewritten to.  So the quotes, braces, backslashes and colons of
a text stay, in their order, and as many brackets are left open as before.
-/

namespace Ephp

namespace Text

/-- Whether rewriting can write a character or take it away on its own. -/
def isVolatile (char : Char) : Bool :=
  isWordChar char || isBlank char || ".(),=$&|!".toList.contains char

/-- Whether a character is a quote, a brace, a backslash or a colon. -/
def isFixture (char : Char) : Bool :=
  "\"'\x7b\x7d\\:".toList.contains char

/-- A comparison of texts, part by part, for which volatile characters and empty pairs of brackets
are nothing. -/
structure Coarse (alike : Text → Text → Prop) : Prop where
  equivalence : Equivalence alike
  append : ∀ {left right other more}, alike left right → alike other more →
    alike (left ++ other) (right ++ more)
  nothing : ∀ char, isVolatile char = true → alike [char] []
  brackets : alike ['[', ']'] []

namespace Coarse

variable {alike : Text → Text → Prop} (coarse : Coarse alike)
include coarse

theorem refl (text : Text) : alike text text :=
  coarse.equivalence.refl text

theorem symm {left right : Text} (same : alike left right) : alike right left :=
  coarse.equivalence.symm same

theorem trans {left right other : Text} (first : alike left right) (second : alike right other) :
    alike left other :=
  coarse.equivalence.trans first second

theorem of_volatile {text : Text} (all : ∀ char ∈ text, isVolatile char = true) :
    alike text [] := by
  induction text with
  | nil => exact coarse.refl []
  | cons char text ih =>
      obtain ⟨first, others⟩ := List.forall_mem_cons.mp all
      exact coarse.append (coarse.nothing char first) (ih others)

theorem of_literal {text : Text} (checked : text.all isVolatile = true) : alike text [] :=
  coarse.of_volatile (List.all_eq_true.mp checked)

theorem append_nil {left right other : Text} (same : alike left right) (empty : alike other []) :
    alike (left ++ other) right := by
  simpa using coarse.append same empty

theorem nil_append {left right other : Text} (empty : alike other []) (same : alike left right) :
    alike (other ++ left) right :=
  coarse.append empty same

theorem flatMap {α : Type} {items : List α} {first second : α → Text}
    (each : ∀ item ∈ items, alike (first item) (second item)) :
    alike (items.flatMap first) (items.flatMap second) := by
  induction items with
  | nil => exact coarse.refl []
  | cons item items ih =>
      obtain ⟨one, others⟩ := List.forall_mem_cons.mp each
      rw [List.flatMap_cons, List.flatMap_cons]
      exact coarse.append one (ih others)

/-- A substitution by rules that replace a text by one like it leads to a text like the given
one. -/
theorem substitute {rule : Text → Option (Text × Text)}
    (each : ∀ text written behind, rule text = some (written, behind) →
      ∃ front, front ≠ [] ∧ text = front ++ behind ∧ alike written front) (text : Text) :
    alike (Text.substitute rule text) text := by
  have consumes : Consumes rule := fun text written behind found =>
    (each text written behind found).imp fun _ split => ⟨split.1, split.2.1⟩
  induction text using substitute_induct consumes with
  | nil => exact coarse.refl []
  | applied front written behind found same ih =>
      obtain ⟨_, _, split, like⟩ := each _ written behind found
      obtain rfl := List.append_cancel_right split
      rw [same]
      exact coarse.append like ih
  | copied char rest idle same ih =>
      rw [same]
      exact coarse.append (coarse.refl [char]) ih

theorem replace {old new : Text} (filled : old ≠ []) (gone : old.all isVolatile = true)
    (written : new.all isVolatile = true) (text : Text) :
    alike (Text.replace old new text) text := by
  induction text using replace_induct filled with
  | nil => exact coarse.refl []
  | occurrence rest ih =>
      rw [replace_occurrence filled]
      have like := coarse.trans (coarse.of_literal written) (coarse.symm (coarse.of_literal gone))
      exact coarse.append like ih
  | copied char rest absent ih =>
      rw [replace_cons absent]
      exact coarse.append (coarse.refl [char]) ih

end Coarse

end Text

namespace Expr

open Text (Coarse isVolatile isFixture)

variable {alike : Text → Text → Prop}

theorem isVolatile_of_isWordChar {char : Char} (word : Text.isWordChar char = true) :
    isVolatile char = true := by
  simp [isVolatile, word]

theorem isVolatile_of_isBlank {char : Char} (blank : Text.isBlank char = true) :
    isVolatile char = true := by
  simp [isVolatile, blank]

section Calls

variable {subject method blanks arguments : Text}

/-- Of a method call there remain the arguments. -/
theorem IsCall.retains_arguments (call : IsCall subject blanks arguments) (coarse : Coarse alike)
    (lettered : method.all isVolatile = true) :
    alike (callText subject method blanks arguments) arguments := by
  have front : alike (subject ++ '.' :: (method ++ (blanks ++ ['(']))) [] := by
    refine coarse.of_volatile fun char mem => ?_
    simp only [List.mem_append, List.mem_cons, List.not_mem_nil, or_false] at mem
    rcases mem with mem | rfl | mem | mem | rfl
    · exact isVolatile_of_isWordChar (call.letters char mem)
    · rfl
    · exact List.all_eq_true.mp lettered char mem
    · exact isVolatile_of_isBlank (call.blank char mem)
    · rfl
  have shape : callText subject method blanks arguments =
      (subject ++ '.' :: (method ++ (blanks ++ ['(']))) ++ (arguments ++ [')']) := by
    simp [callText]
  rw [shape]
  exact coarse.nil_append front (coarse.append_nil (coarse.refl _) (coarse.of_literal rfl))

theorem IsCall.retains_subject (call : IsCall subject blanks arguments) (coarse : Coarse alike) :
    alike subject [] :=
  coarse.of_volatile fun char mem => isVolatile_of_isWordChar (call.letters char mem)

end Calls

section Rewriting

variable (coarse : Coarse alike)
include coarse

theorem retains_split (text : Text) : alike (convertSplit text) text := by
  refine coarse.substitute (fun text written behind applied => ?_) text
  obtain ⟨subject, blanks, arguments, split, call, _, rfl⟩ := exists_of_rule_methodCall applied
  refine ⟨_, callText_ne_nil, split, ?_⟩
  have opening : alike "explode(".toList [] := coarse.of_literal rfl
  have comma : alike ", ".toList [] := coarse.of_literal rfl
  have closing : alike [')'] [] := coarse.of_literal rfl
  have written : alike ("explode(".toList ++ arguments ++ ", ".toList ++ subject ++ [')'])
      arguments :=
    coarse.append_nil (coarse.append_nil (coarse.append_nil
      (coarse.nil_append opening (coarse.refl _)) comma) (call.retains_subject coarse)) closing
  exact coarse.trans written (coarse.symm (call.retains_arguments coarse rfl))

theorem retains_strip (text : Text) : alike (convertStrip text) text := by
  refine coarse.substitute (fun text written behind applied => ?_) text
  obtain ⟨subject, blanks, split, call, rfl⟩ := exists_of_rule_bareMethodCall applied
  refine ⟨_, callText_ne_nil, split, ?_⟩
  have opening : alike "trim(".toList [] := coarse.of_literal rfl
  have closing : alike [')'] [] := coarse.of_literal rfl
  have written : alike ("trim(".toList ++ subject ++ [')']) [] :=
    coarse.append_nil (coarse.nil_append opening (call.retains_subject coarse)) closing
  exact coarse.trans written (coarse.symm (call.retains_arguments coarse rfl))

theorem retains_append (text : Text) : alike (convertAppend text) text := by
  refine coarse.substitute (fun text written behind applied => ?_) text
  obtain ⟨subject, blanks, arguments, split, call, _, rfl⟩ := exists_of_rule_methodCall applied
  refine ⟨_, callText_ne_nil, split, ?_⟩
  -- The pair of brackets is the only thing written that is not volatile.
  have target : alike "[] = ".toList [] :=
    coarse.append_nil coarse.brackets (coarse.of_literal (rfl : " = ".toList.all _ = true))
  have written : alike (subject ++ "[] = ".toList ++ arguments) arguments :=
    coarse.nil_append (coarse.append_nil (call.retains_subject coarse) target) (coarse.refl _)
  exact coarse.trans written (coarse.symm (call.retains_arguments coarse rfl))

theorem retains_respell {spellings : List (Text × Text)}
    (each : ∀ pair ∈ spellings, pair.1 ≠ [] ∧ pair.1.all isVolatile = true ∧
      pair.2.all isVolatile = true) (text : Text) :
    alike (respell spellings text) text := by
  induction spellings generalizing text with
  | nil => exact coarse.refl text
  | cons pair spellings ih =>
      obtain ⟨⟨filled, gone, written⟩, each⟩ := List.forall_mem_cons.mp each
      rw [respell_cons]
      exact coarse.trans (ih each _) (coarse.replace filled gone written text)

theorem retains_convertCalls (text : Text) : alike (convertCalls text) text := by
  have renamed := retains_respell coarse (by decide : ∀ pair ∈ builtins, pair.1 ≠ [] ∧
    pair.1.all isVolatile = true ∧ pair.2.all isVolatile = true)
  have appended := retains_append coarse (convertStrip (convertSplit text))
  have stripped := retains_strip coarse (convertSplit text)
  exact coarse.trans (renamed _)
    (coarse.trans appended (coarse.trans stripped (retains_split coarse text)))

theorem retains_markVariables (names : Names) (text : Text) :
    alike (markVariables names text) text := by
  have each : ∀ run ∈ runs text, alike (markRun names run) (id run) := by
    intro run _
    rw [markRun]
    split
    · exact coarse.nil_append (coarse.nothing '$' rfl) (coarse.refl run)
    · exact coarse.refl run
  have whole : (runs text).flatMap id = text := by
    rw [List.flatMap_id, runs, List.flatten_splitBy]
  have marked := coarse.flatMap each
  rwa [whole] at marked

/-- A text is like what it is expanded to, if it is no format text. -/
theorem retains_expandPlain (names : Names) (text : Text) :
    alike (expandPlain names (convertCalls text)) text := by
  have spelled := retains_respell coarse (by decide : ∀ pair ∈ keywords, pair.1 ≠ [] ∧
    pair.1.all isVolatile = true ∧ pair.2.all isVolatile = true)
  have dots := coarse.replace (by decide : "..".toList ≠ []) rfl (rfl : ['.'].all _ = true)
    (convertCalls text)
  have part (part : Part) : alike (expandPart names part) part.text := by
    cases part with
    | literal text => exact coarse.refl text
    | code text =>
        rw [expandPart, respellKeywords, Part.text]
        exact coarse.trans (spelled _) (retains_markVariables coarse names text)
  have expanded := coarse.flatMap fun item (_ : item ∈ parts (Text.replace "..".toList ['.']
    (convertCalls text))) => part item
  have whole := flatMap_partsFrom none (Text.replace "..".toList ['.'] (convertCalls text))
  rw [← parts] at whole
  rw [whole] at expanded
  rw [expandPlain]
  exact coarse.trans expanded (coarse.trans dots (retains_convertCalls coarse text))

end Rewriting

/-! ## Fixtures and brackets -/

theorem isVolatile_of_isFixture {char : Char} (fixture : isFixture char = true) :
    isVolatile char = false := by
  have checked : "\"'\x7b\x7d\\:".toList.all (fun char => !isVolatile char) = true := by decide
  simpa using List.all_eq_true.mp checked char (List.contains_iff_mem.mp fixture)

theorem coarse_filter :
    Coarse fun left right => left.filter isFixture = right.filter isFixture where
  equivalence := ⟨fun _ => rfl, Eq.symm, Eq.trans⟩
  append := by
    intro left right other more front back
    rw [List.filter_append, List.filter_append, front, back]
  nothing := by
    intro char gone
    refine List.filter_eq_nil_iff.mpr fun other mem fixture => ?_
    rw [List.mem_singleton.mp mem] at fixture
    simp [isVolatile_of_isFixture fixture] at gone
  brackets := rfl

/-- The brackets that two texts leave open are as many. -/
theorem coarse_count : Coarse fun left right =>
    left.count '[' + right.count ']' = right.count '[' + left.count ']' where
  equivalence := ⟨fun _ => rfl, Eq.symm, fun first second => by omega⟩
  append := by
    intro left right other more front back
    simp only [List.count_append]
    omega
  nothing := by
    intro char gone
    have other {mark : Char} (stays : isVolatile mark = false) : [char].count mark = 0 := by
      refine List.count_eq_zero.mpr fun mem => ?_
      rw [List.mem_singleton.mp mem, gone] at stays
      cases stays
    simp [other (by decide : isVolatile '[' = false), other (by decide : isVolatile ']' = false)]
  brackets := rfl

/-- Converting calls leaves the fixtures of a text in place. -/
theorem filter_convertCalls (text : Text) :
    (convertCalls text).filter isFixture = text.filter isFixture :=
  retains_convertCalls coarse_filter text

theorem filter_expandPlain (names : Names) (text : Text) :
    (expandPlain names (convertCalls text)).filter isFixture = text.filter isFixture :=
  retains_expandPlain coarse_filter names text

/-! ## What stands in front of a text -/

section Front

variable {char : Char} (other : Text.isWordChar char = false)
include other

/-- A pattern that starts with a word does not match where no word starts. -/
theorem replace_cons_of_other {α : Type} {next : Pattern α} {write : Text × α → Text}
    (text : Text) :
    (Pattern.keep .word next).replace write (char :: text) =
      char :: (Pattern.keep .word next).replace write text := by
  apply Text.substitute_of_eq_none
  rw [Pattern.rule, Option.map_eq_none_iff, ← Option.not_isSome_iff_eq_none,
    Pattern.isSome_match?_iff]
  rintro ⟨_, _, split, ⟨first, others, rfl, started, _⟩, _⟩
  obtain ⟨rfl, _⟩ := List.cons.inj split
  rw [started] at other
  cases other

theorem respell_cons_of_other {spellings : List (Text × Text)}
    (lettered : ∀ pair ∈ spellings, pair.1.head?.any Text.isWordChar = true) (text : Text) :
    respell spellings (char :: text) = char :: respell spellings text := by
  induction spellings generalizing text with
  | nil => rfl
  | cons pair spellings ih =>
      obtain ⟨started, lettered⟩ := List.forall_mem_cons.mp lettered
      have absent : ¬List.IsPrefix pair.1 (char :: text) := by
        rintro ⟨rest, split⟩
        cases word : pair.1 with
        | nil => simp [word] at started
        | cons first others =>
            rw [word, List.cons_append] at split
            simp [word, (List.cons.inj split).1, other] at started
      rw [respell_cons, Text.replace_cons absent, ih lettered, respell_cons]

/-- No call starts with a character that is part of no word. -/
theorem convertCalls_cons (text : Text) :
    convertCalls (char :: text) = char :: convertCalls text := by
  have split : convertSplit (char :: text) = char :: convertSplit text :=
    replace_cons_of_other other text
  have strip (text : Text) : convertStrip (char :: text) = char :: convertStrip text :=
    replace_cons_of_other other text
  have append (text : Text) : convertAppend (char :: text) = char :: convertAppend text :=
    replace_cons_of_other other text
  rw [convertCalls, split, strip, append, respell_cons_of_other other (by decide), convertCalls]

end Front

end Expr

end Ephp
