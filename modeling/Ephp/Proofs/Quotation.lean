import Ephp.Proofs.Ending
import Ephp.Proofs.Remarks
import Ephp.Proofs.Sigils

/-!
# Quotations

A quoted text is a literal, and yet it does not always survive.  Calls and doubled dots are
rewritten before the literals of an expression are told apart, and an assignment in which `if` and
`else` stand is read as one of two values, be they inside the quotes or not.  A quotation survives
exactly if neither happens to it.
-/

namespace Ephp

/-- A text between double quotes. -/
def Text.enquote (body : Text) : Text :=
  '"' :: (body ++ ['"'])

namespace Text

variable {body : Text}

theorem strip_of_ends {first last : Char} {middle : Text} (opens : isBlank first = false)
    (closes : isBlank last = false) :
    strip (first :: (middle ++ [last])) = first :: (middle ++ [last]) := by
  rw [strip, trim, List.dropWhile_cons_of_neg (by simp [opens]), ← List.cons_append,
    trimEnd_append_singleton _ closes]

theorem strip_enquote : (enquote body).strip = enquote body :=
  strip_of_ends rfl rfl

/-- What stands in a quotation and neither starts nor ends with its quotes stands in the quoted
text. -/
theorem isInfix_enquote_iff {word : Text} (filled : word ≠ []) (opens : word.head? ≠ some '"')
    (closes : word.getLast? ≠ some '"') :
    List.IsInfix word (enquote body) ↔ List.IsInfix word body := by
  constructor
  · intro stands
    rcases List.infix_cons_iff.mp stands with front | stands
    · obtain ⟨first, others, rfl⟩ := List.exists_cons_of_ne_nil filled
      obtain rfl := (List.cons_prefix_cons.mp front).1
      exact absurd rfl opens
    · rcases List.infix_concat_iff.mp stands with back | stands
      · obtain ⟨others, last, rfl⟩ := (List.eq_nil_or_concat word).resolve_left filled
        obtain ⟨front, split⟩ := back
        rw [List.concat_eq_append, ← List.append_assoc] at split
        obtain rfl : last = '"' := by simpa using (List.append_inj' split rfl).2
        simp at closes
      · exact stands
  · intro stands
    exact stands.trans ⟨['"'], ['"'], by simp [enquote]⟩

end Text

/-! ## Expanding a quotation -/

namespace Expr

open Text (enquote)

variable {body : Text} {names : Names}

theorem calls_enquote_iff {method : Text} {bare : Bool} :
    Calls method bare (enquote body) ↔ Calls method bare body := by
  constructor
  · rintro ⟨front, char, blanks, arguments, back, split, word, blank, unclosed, given⟩
    have stands : List.IsInfix
        ((char :: '.' :: (method ++ (blanks ++ '(' :: arguments))) ++ [')']) (enquote body) :=
      ⟨front, back, by simp [split]⟩
    have unquoted : char ≠ '"' := by
      rintro rfl
      exact absurd word (by decide)
    rw [Text.isInfix_enquote_iff (by simp) (by simpa using unquoted)
      (by rw [List.getLast?_concat]; decide)] at stands
    obtain ⟨front, back, rfl⟩ := stands
    exact ⟨front, char, blanks, arguments, back, by simp, word, blank, unclosed, given⟩
  · rintro ⟨front, char, blanks, arguments, back, rfl, word, blank, unclosed, given⟩
    exact ⟨'"' :: front, char, blanks, arguments, back ++ ['"'], by simp [enquote], word, blank,
      unclosed, given⟩

theorem inert_enquote_iff : Inert (enquote body) ↔ Inert body := by
  have words : ∀ word ∈ "..".toList :: builtins.map Prod.fst,
      word ≠ [] ∧ word.head? ≠ some '"' ∧ word.getLast? ≠ some '"' := by decide
  have stands (word : Text) (mem : word ∈ "..".toList :: builtins.map Prod.fst) :
      List.IsInfix word (enquote body) ↔ List.IsInfix word body :=
    Text.isInfix_enquote_iff (words word mem).1 (words word mem).2.1 (words word mem).2.2
  have dots := stands "..".toList List.mem_cons_self
  have builtin (pair : Text × Text) (mem : pair ∈ builtins) :=
    stands pair.1 (List.mem_cons_of_mem _ (List.mem_map_of_mem mem))
  constructor
  · rintro ⟨⟨split, strip, append⟩, absent, doubled⟩
    rw [calls_enquote_iff] at split strip append
    exact ⟨⟨split, strip, append⟩, fun pair mem => mt (builtin pair mem).mpr (absent pair mem),
      mt dots.mpr doubled⟩
  · rintro ⟨⟨split, strip, append⟩, absent, doubled⟩
    rw [← @calls_enquote_iff body] at split strip append
    exact ⟨⟨split, strip, append⟩, fun pair mem => mt (builtin pair mem).mp (absent pair mem),
      mt dots.mp doubled⟩

section Quoted

variable {quote : Char} (quotes : isQuote quote = true)
include quotes

theorem parts_quoted (absent : quote ∉ body) :
    (parts (quote :: (body ++ [quote]))).flatMap (expandPart names) =
      quote :: (body ++ [quote]) := by
  have literal := partsFrom_literal quotes absent []
  rw [List.append_nil, partsFrom] at literal
  rw [parts, ← List.cons_append, literal]
  simp [expandPart]

/-- A quotation is expanded to itself exactly if nothing stands in it that is rewritten. -/
theorem expandPlain_quoted_iff (absent : quote ∉ body) :
    expandPlain names (convertCalls (quote :: (body ++ [quote]))) = quote :: (body ++ [quote]) ↔
      Inert (quote :: (body ++ [quote])) := by
  change (parts (rewrite _)).flatMap (expandPart names) = _ ↔ _
  constructor
  · intro same
    have kept := count_parts_le names (rewrite (quote :: (body ++ [quote])))
    rw [same] at kept
    obtain ⟨_, renamed⟩ := rewrite_of_count_le kept
    have kinds : quote = '"' ∨ quote = '\'' := by simpa [isQuote] using quotes
    have free : ∀ pair ∈ builtins, pair.1 ≠ [] ∧ quote ∉ pair.1 := by
      rcases kinds with rfl | rfl <;> decide
    have inner : respell builtins (quote :: (body ++ [quote])) =
        quote :: (respell builtins body ++ [quote]) := by
      rw [respell_mark free, respell_append_cons free, respell_nil]
    have plain : quote ∉ respell builtins body := by
      refine not_mem_respell ?_ absent
      rcases kinds with rfl | rfl <;> decide
    rw [renamed, inner, parts_quoted quotes plain, ← inner, ← renamed, rewrite_eq_self_iff] at same
    exact same
  · intro inert
    rw [rewrite_eq_self_iff.mpr inert, parts_quoted quotes absent]

end Quoted

theorem expandPlain_enquote_iff (unquoted : '"' ∉ body) :
    expandPlain names (convertCalls (enquote body)) = enquote body ↔ Inert body :=
  (expandPlain_quoted_iff rfl unquoted).trans inert_enquote_iff

theorem expand_enquote :
    expand names (enquote body) = .ok (expandPlain names (convertCalls (enquote body))) := by
  rw [expand_eq, body?_convertCalls (by rfl)]
  rfl

theorem expandValue_enquote : expandValue names (enquote body) = expand names (enquote body) := by
  have list : enclosed? '[' ']' (enquote body) = none := if_neg fun ends => by cases ends.1
  have dictionary : enclosed? '{' '}' (enquote body) = none := if_neg fun ends => by cases ends.1
  have value : isTruthValue (enquote body) = false := rfl
  rw [expandValue, Text.strip_enquote, expandStripped, list, dictionary, value]
  rfl

end Expr

/-! ## Reading a quotation -/

namespace Text

/-- A text with the words `if` and `else` in it. -/
def branching (accepted : Text) (left right : Char) (condition : Text) (before after : Char)
    (rejected : Text) : Text :=
  accepted ++ left :: ("if".toList ++ right :: (condition ++ before :: ("else".toList ++
    after :: rejected)))

/-- The words `if` and `else` stand in a text between blanks, with something between them. -/
def Branches (text : Text) : Prop :=
  ∃ accepted left right condition before after rejected,
    text = branching accepted left right condition before after rejected ∧
      (∀ blank ∈ [left, right, before, after], isBlank blank = true) ∧ condition ≠ []

end Text

namespace Pattern

variable {α : Type} {next : Pattern α} {text : Text}

open Text (isBlank)

theorem exists_last_of_gap (fits : (Pattern.skip .gap next).Fits text) :
    ∃ front blank rest, text = front ++ blank :: rest ∧ isBlank blank = true ∧ next.Fits rest := by
  obtain ⟨_, rest, rfl, spelled, tail⟩ := fits
  obtain ⟨front, blank, rfl, last⟩ := Span.exists_last spelled
  exact ⟨front, blank, rest, by simp, last, tail⟩

theorem exists_first_of_gap (fits : (Pattern.skip .gap next).Fits text) :
    ∃ blank more rest, text = blank :: (more ++ rest) ∧ isBlank blank = true ∧ next.Fits rest := by
  obtain ⟨_, rest, rfl, ⟨first, others, rfl, started, _⟩, tail⟩ := fits
  exact ⟨first, others, rest, rfl, started, tail⟩

theorem fits_gap {blank : Char} (blanks : isBlank blank = true) (tail : next.Fits text) :
    (Pattern.skip .gap next).Fits (blank :: text) :=
  ⟨[blank], text, rfl, ⟨blank, [], rfl, blanks, by simp⟩, tail⟩

end Pattern

namespace Statement

open Grammar
open Text (isBlank enquote)

variable {α : Type} {name body : Text}

/-- The line that assigns a quotation to a variable. -/
def assigning (name body : Text) : Text :=
  name ++ (" = ".toList ++ enquote body)

/-- The line that prints a quotation. -/
def printing (body : Text) : Text :=
  "print(".toList ++ (enquote body ++ [')'])

theorem isSome_form_iff {pattern : Pattern α} {build : α → Statement} {line : Text} :
    (form pattern build line).isSome = true ↔ pattern.Fits line := by
  rw [form, Option.isSome_map, Pattern.isSome_match?_iff]

theorem form_of_not_fits {pattern : Pattern α} {build : α → Statement} {line : Text}
    (misfit : ¬pattern.Fits line) : form pattern build line = none := by
  rw [← Option.not_isSome_iff_eq_none, isSome_form_iff]
  exact misfit

/-- A span that reads neither an equals sign nor a parenthesis. -/
def Markless (span : Span) : Prop :=
  ∀ run, span.Spells run → '=' ∉ run ∧ '(' ∉ run

theorem markless_headed {reach : Reach} {starts admits : Char → Bool}
    (equals : starts '=' = false ∧ admits '=' = false)
    (parenthesis : starts '(' = false ∧ admits '(' = false) :
    Markless (.headed reach starts admits) := by
  rintro _ ⟨first, others, rfl, started, all⟩
  have absent {mark : Char} (refused : starts mark = false ∧ admits mark = false) :
      mark ∉ first :: others := by
    intro inside
    rcases List.mem_cons.mp inside with rfl | inside
    · simp [refused.1] at started
    · simpa [refused.2] using all _ inside
  exact ⟨absent equals, absent parenthesis⟩

theorem markless_word : Markless .word :=
  markless_headed ⟨rfl, rfl⟩ ⟨rfl, rfl⟩

theorem markless_identifier : Markless .identifier :=
  markless_headed ⟨rfl, rfl⟩ ⟨rfl, rfl⟩

theorem markless_constantName : Markless .constantName :=
  markless_headed ⟨rfl, rfl⟩ ⟨rfl, rfl⟩

/-- What stands behind the equals sign of an assignment. -/
theorem exists_of_assignment {target : Span} {value : Pattern α} {rest : Text}
    (markless : Markless target) (identifier : IsIdentifier name)
    (fits : (assignment target value).Fits (name ++ (" = ".toList ++ rest))) :
    ∃ blanks tail, ' ' :: rest = blanks ++ tail ∧ (∀ blank ∈ blanks, isBlank blank = true) ∧
      value.Fits tail := by
  obtain ⟨run, _, split, spelled, gap, _, rfl, blank, _, rfl, blanks, tail, rfl, more, fits⟩ := fits
  have equals_blank {blanks : Text} (blank : Span.blanks.Spells blanks) : '=' ∉ blanks :=
    fun mem => absurd (blank '=' mem) (by decide)
  have equals_name : '=' ∉ name := fun mem => absurd (identifier.letters '=' mem) (by decide)
  have same : (name ++ [' ']) ++ '=' :: ' ' :: rest =
      (run ++ gap) ++ '=' :: (blanks ++ tail) := by simpa using split
  have behind := (Text.eq_of_first (by simp [equals_name])
    (by simp [(markless run spelled).1, equals_blank blank]) same).2
  exact ⟨blanks, tail, behind, more, fits⟩

theorem not_fits_quotation {target : Span} {next : Pattern α} {word : Text} {head : Char}
    (markless : Markless target) (identifier : IsIdentifier name) (other : head ≠ '"')
    (solid : isBlank head = false) :
    ¬(assignment target (.fixed (head :: word) next)).Fits (assigning name body) := by
  intro fits
  obtain ⟨blanks, tail, split, all, rest, rfl, _⟩ := exists_of_assignment markless identifier fits
  rcases blanks with _ | ⟨first, _ | ⟨second, blanks⟩⟩
  · obtain ⟨rfl, _⟩ := List.cons.inj split
    simp [isBlank] at solid
  · obtain ⟨rfl, _⟩ := List.cons.inj (List.cons.inj split).2
    exact other rfl
  · obtain ⟨rfl, _⟩ := List.cons.inj (List.cons.inj split).2
    exact absurd (all '"' (by simp)) (by decide)

theorem not_fits_call {target : Span} {value : Pattern α} {rest : Text} (markless : Markless target)
    (absent : '=' ∉ name) : ¬(assignment target value).Fits (name ++ '(' :: rest) := by
  rintro ⟨run, _, split, spelled, blanks, _, rfl, all, _, rfl, _⟩
  have parenthesis : '(' ∉ run ++ blanks := by
    intro mem
    rcases List.mem_append.mp mem with mem | mem
    · exact (markless run spelled).2 mem
    · exact absurd (all '(' mem) (by decide)
  rw [← List.append_assoc] at split
  rcases List.append_eq_append_iff.mp split with ⟨more, same, behind⟩ | ⟨more, rfl, behind⟩
  · cases more with
    | nil => simp at behind
    | cons first more =>
        obtain ⟨rfl, _⟩ := List.cons.inj behind
        exact parenthesis (by simp [same])
  · cases more with
    | nil => simp at behind
    | cons first more =>
        obtain ⟨rfl, _⟩ := List.cons.inj behind
        exact absent (by simp)

/-- The reader of the two values of an assignment and of the condition between them. -/
def branchPattern : Pattern (Text × Text × Text × Unit) :=
  .keep .least <| .skip .gap <| .fixed "if".toList <| .skip .gap <| .keep .least <| .skip .gap <|
    .fixed "else".toList <| .skip .gap <| .keep .most .ending

theorem exists_of_branchPattern {text : Text} (fits : branchPattern.Fits text) :
    ∃ accepted left right condition before after rejected last,
      text = Text.branching accepted left right condition before after (rejected ++ [last]) ∧
        (∀ blank ∈ [left, right, before, after], isBlank blank = true) ∧ condition ≠ [] := by
  obtain ⟨accepted, _, rfl, _, asked⟩ := fits
  obtain ⟨front, left, _, rfl, is_left, _, rfl, given⟩ := Pattern.exists_last_of_gap asked
  obtain ⟨right, more, _, rfl, is_right, _, _, rfl, ⟨first, condition, rfl, _⟩, turned⟩ :=
    Pattern.exists_first_of_gap given
  obtain ⟨others, before, _, rfl, is_before, _, rfl, refused⟩ := Pattern.exists_last_of_gap turned
  obtain ⟨after, blanks, _, rfl, is_after, _, ending, rfl, ⟨start, rejected, rfl, _⟩, _⟩ :=
    Pattern.exists_first_of_gap refused
  obtain ⟨init, last, split⟩ := (List.eq_nil_or_concat (blanks ++ (start :: rejected ++ ending))
    ).resolve_left (by simp)
  rw [List.concat_eq_append] at split
  refine ⟨accepted ++ front, left, right, more ++ (first :: condition ++ others), before, after,
    init, last, ?_, ?_, by simp⟩
  · rw [← split]
    simp [Text.branching]
  · simp [is_left, is_right, is_before, is_after]

theorem fits_branchPattern {accepted condition rejected : Text} {left right before after : Char}
    (blanks : ∀ blank ∈ [left, right, before, after], isBlank blank = true)
    (filled : accepted ≠ [] ∧ condition ≠ [] ∧ rejected ≠ [])
    (inline : '\n' ∉ Text.branching accepted left right condition before after rejected) :
    branchPattern.Fits (Text.branching accepted left right condition before after rejected) := by
  simp only [List.forall_mem_cons] at blanks
  obtain ⟨is_left, is_right, is_before, is_after, _⟩ := blanks
  obtain ⟨accepts, asks, rejects⟩ := filled
  have spells {part : Text} (filled : part ≠ [])
      (within : part ⊆ Text.branching accepted left right condition before after rejected)
      (reach : Reach) : (Span.headed reach Text.isInline Text.isInline).Spells part := by
    have all (char : Char) (mem : char ∈ part) : Text.isInline char = true := by
      simpa [Text.isInline] using fun same : char = '\n' => inline (same ▸ within mem)
    obtain ⟨first, others, rfl⟩ := List.exists_cons_of_ne_nil filled
    exact ⟨first, others, rfl, all first (by simp), fun char mem => all char (by simp [mem])⟩
  refine ⟨accepted, _, rfl, spells accepts ?_ _, Pattern.fits_gap is_left ⟨_, rfl, ?_⟩⟩
  · simp [Text.branching]
  refine Pattern.fits_gap is_right ⟨condition, _, rfl, spells asks ?_ _, ?_⟩
  · intro char mem
    simp [Text.branching, mem]
  refine Pattern.fits_gap is_before ⟨_, rfl, Pattern.fits_gap is_after ?_⟩
  refine ⟨rejected, [], by simp, spells rejects ?_ _, .inl rfl⟩
  intro char mem
  simp [Text.branching, mem]

/-- An assigned quotation reads as one of two values exactly if the quoted text does. -/
theorem choiceForm_isSome_iff (identifier : IsIdentifier name) (unbroken : '\n' ∉ body) :
    (choiceForm (assigning name body)).isSome = true ↔ body.Branches := by
  have pattern : (choiceForm (assigning name body)).isSome = true ↔
      (assignment .identifier branchPattern).Fits (assigning name body) :=
    isSome_form_iff
  rw [pattern]
  constructor
  · intro fits
    obtain ⟨blanks, _, split, _, fits⟩ :=
      exists_of_assignment markless_identifier identifier fits
    obtain ⟨accepted, left, right, condition, before, after, rejected, last, rfl, all, filled⟩ :=
      exists_of_branchPattern fits
    have split : ' ' :: '"' :: (body ++ ['"']) = (blanks ++ accepted) ++ left :: 'i' :: 'f' ::
        right :: (condition ++ before :: ("else".toList ++ after :: (rejected ++ [last]))) := by
      rw [List.append_assoc]
      exact split
    -- Neither the blank nor the quote in front of the text is the blank in front of `if`.
    generalize blanks ++ accepted = front at split
    rcases front with _ | ⟨_, _ | ⟨_, front⟩⟩
    · exact absurd (List.cons.inj (List.cons.inj split).2).1 (by decide)
    · have quote : '"' = left := (List.cons.inj (List.cons.inj split).2).1
      exact absurd (all left (by simp)) (by rw [← quote]; decide)
    · have behind := (List.cons.inj (List.cons.inj split).2).2
      have closed : body ++ ['"'] =
          Text.branching front left right condition before after rejected ++ [last] := by
        simpa [Text.branching] using behind
      exact ⟨front, left, right, condition, before, after, rejected,
        (List.append_inj' closed rfl).1, all, filled⟩
  · rintro ⟨accepted, left, right, condition, before, after, rejected, rfl, blanks, filled⟩
    have blank : Span.blanks.Spells [' '] := by simp [Span.Spells, Span.blanks, isBlank]
    refine ⟨name, _, rfl, identifier.start, [' '], _, rfl, blank, _, rfl, [' '], _, rfl, blank, ?_⟩
    have whole : enquote (Text.branching accepted left right condition before after rejected) =
        Text.branching ('"' :: accepted) left right condition before after (rejected ++ ['"']) := by
      simp [enquote, Text.branching]
    rw [whole]
    refine fits_branchPattern blanks ⟨by simp, filled, by simp⟩ ?_
    rw [← whole]
    simpa [enquote] using unbroken

theorem spells_enquote (reach : Reach) (unbroken : '\n' ∉ body) :
    (Span.headed reach Text.isInline Text.isInline).Spells (enquote body) := by
  refine ⟨'"', body ++ ['"'], rfl, rfl, fun char mem => ?_⟩
  rcases List.mem_append.mp mem with mem | mem
  · simpa [Text.isInline] using fun same : char = '\n' => unbroken (same ▸ mem)
  · rw [List.mem_singleton.mp mem]
    rfl

/-- An assigned quotation is one of two values or an assignment. -/
theorem read?_assigned (name : Grammar.Name) (unbroken : '\n' ∉ body) :
    read? (assigning name.text body) =
      (choiceForm (assigning name.text body)).or (some (.assign name.text (enquote body))) := by
  have identifier := name.identifier
  have starts : Starts none (assigning name.text body) := .name identifier name.free rfl
  have remain : (candidates none []).map Reader.read = [arrowForm, closureForm, matchAssignForm,
      inputForm, choiceForm, constantForm, assignForm, callForm] := rfl
  have arrow : arrowForm (assigning name.text body) = none :=
    form_of_not_fits (not_fits_quotation markless_word identifier (by decide) (by decide))
  have closure : closureForm (assigning name.text body) = none :=
    form_of_not_fits (not_fits_quotation markless_word identifier (by decide) (by decide))
  have started : matchAssignForm (assigning name.text body) = none :=
    form_of_not_fits (not_fits_quotation markless_word identifier (by decide) (by decide))
  have input : inputForm (assigning name.text body) = none :=
    form_of_not_fits (not_fits_quotation markless_identifier identifier (by decide) (by decide))
  have constant : constantForm (assigning name.text body) = none := name.constantForm_append _
  have assign : assignForm (assigning name.text body) =
      some (.assign name.text (enquote body)) :=
    form_of_reads (name.text, enquote body, ()) (reads_assignment rfl identifier.start rfl rfl
      (.toEnd rfl (spells_enquote _ unbroken)))
  rw [@read?_eq_candidates _ none [] starts (by simp), remain]
  simp only [List.findSome?_cons, arrow, closure, started, input, constant, assign]
  cases choiceForm (assigning name.text body) <;> rfl

theorem not_fits_printing {target : Span} {value : Pattern α} (markless : Markless target) :
    ¬(assignment target value).Fits (printing body) :=
  @not_fits_call _ _ _ value (enquote body ++ [')']) markless (by decide : '=' ∉ "print".toList)

theorem read?_printed (unbroken : '\n' ∉ body) :
    read? (printing body) = some (.print (enquote body)) := by
  have starts : Starts (some .printWord) (printing body) := .keyword rfl
  have remain : (candidates (some .printWord) []).map Reader.read = [arrowForm, closureForm,
      matchAssignForm, inputForm, choiceForm, constantForm, assignForm, printForm, callForm] := rfl
  have arrow : arrowForm (printing body) = none :=
    form_of_not_fits (not_fits_printing markless_word)
  have closure : closureForm (printing body) = none :=
    form_of_not_fits (not_fits_printing markless_word)
  have started : matchAssignForm (printing body) = none :=
    form_of_not_fits (not_fits_printing markless_word)
  have input : inputForm (printing body) = none :=
    form_of_not_fits (not_fits_printing markless_identifier)
  have choice : choiceForm (printing body) = none :=
    form_of_not_fits (not_fits_printing markless_identifier)
  have constant : constantForm (printing body) = none :=
    form_of_not_fits (not_fits_printing markless_constantName)
  have assign : assignForm (printing body) = none :=
    form_of_not_fits (not_fits_printing markless_identifier)
  have print : printForm (printing body) = some (.print (enquote body)) :=
    form_of_reads (enquote body, ()) (.fixed rfl (.toWord [')'] rfl (spells_enquote _ unbroken)))
  rw [@read?_eq_candidates _ _ [] starts (by simp), remain, List.findSome?_cons, arrow,
    List.findSome?_cons, closure, List.findSome?_cons, started, List.findSome?_cons, input,
    List.findSome?_cons, choice, List.findSome?_cons, constant, List.findSome?_cons, assign,
    List.findSome?_cons, print]

theorem occursIn_eq_false {pattern : Pattern α} {text : Text}
    (misfit : ∀ rest, List.IsSuffix rest text → ¬pattern.Fits rest) :
    pattern.occursIn text = false := by
  induction text with
  | nil =>
      have whole := misfit [] (List.suffix_refl _)
      rwa [← Pattern.isSome_match?_iff, Bool.not_eq_true] at whole
  | cons char text ih =>
      have whole := misfit (char :: text) (List.suffix_refl _)
      rw [← Pattern.isSome_match?_iff, Bool.not_eq_true] at whole
      rw [Pattern.occursIn, whole, Bool.false_or]
      exact ih fun rest stands => misfit rest (stands.trans (List.suffix_cons char text))

/-- A quotation does not end with a variable. -/
theorem printedContent_enquote : printedContent (enquote body) = enquote body := by
  have other : finalVariable.occursIn (enquote body) = false := by
    refine occursIn_eq_false ?_
    rintro _ ⟨front, split⟩ ⟨_, rfl, _, ending, rfl, ⟨first, others, rfl, started, all⟩, ended⟩
    obtain ⟨init, last, shape⟩ :=
      (List.eq_nil_or_concat (first :: others ++ ending)).resolve_left (by simp)
    rw [List.concat_eq_append] at shape
    have closed : (front ++ '$' :: init) ++ [last] = ('"' :: body) ++ ['"'] := by
      simpa [shape, enquote] using split
    obtain rfl : last = '"' := by simpa using (List.append_inj' closed rfl).2
    have quote : '"' ∈ first :: others ++ ending := by simp [shape]
    rcases List.mem_append.mp quote with inside | inside
    · rcases List.mem_cons.mp inside with rfl | inside
      · exact absurd started (by decide)
      · exact absurd (all '"' inside) (by decide)
    · rcases ended with rfl | rfl
      · exact absurd inside (by simp)
      · exact absurd inside (by decide)
  rw [printedContent, other]
  rfl

end Statement

/-! ## Converting a quotation -/

namespace Conversion

open Statement
open Text (enquote)

variable {source line : Text}

/-- A source is converted to a page with one line. -/
def ConvertsTo (source line : Text) : Prop :=
  ∃ final, convert source State.initial = .ok (Text.join ['\n'] (banner ++ [line])) final

instance (source line : Text) : Decidable (ConvertsTo source line) :=
  decidable_of_iff ((convert source).passes
    (fun text _ => text == Text.join ['\n'] (banner ++ [line])) State.initial = true) (by
      rw [passes_iff]
      constructor
      · rintro ⟨text, final, done, same⟩
        exact ⟨final, by rw [done, beq_iff_eq.mp same]⟩
      · rintro ⟨final, done⟩
        exact ⟨_, final, done, beq_self_eq_true _⟩)

theorem lines_of_isBody (body : source.IsBody) : source.lines = [source] := by
  refine Text.lines_of_unbroken (fun empty => ?_) body.unbroken
  simpa [empty] using body.spoken

/-- A source of one statement that writes a line is converted by performing the statement. -/
theorem convertsTo_iff {statement : Statement} (body : source.IsBody)
    (found : read? source = some statement) (simple : statement.isSimple = true) :
    ConvertsTo source line ↔
      ∃ names, statement.perform 0 State.initial.reset =
        .ok () ({ State.initial.reset with names := names }.emit 0 line) := by
  have applies : statement.applies (State.initial.reset.dedent 0) = true := by
    cases statement with
    | arm _ _ | defaultArm _ => cases simple
    | _ => rfl
  have outer : source.indentOf = 0 := by
    have indented := @Text.indentOf_indentation_append 0 (by decide) source body
    simpa [Text.indentation] using indented
  have performed (after : State) : convertLines source.lines State.initial.reset = .ok () after ↔
      statement.perform 0 State.initial.reset = .ok () after := by
    have one : convertLine source State.initial.reset =
        statement.perform 0 State.initial.reset := by
      rw [convertLine_of_isRemark_eq_false (Text.isRemark_of_isBody body), outer, body.stripped,
        convertBody_of_applies found applies]
      rfl
    rw [lines_of_isBody body, convertLines_cons_eq_ok, one]
    constructor
    · rintro ⟨middle, done, rest⟩
      cases rest
      exact done
    · intro done
      exact ⟨after, done, rfl⟩
  constructor
  · rintro ⟨final, done⟩
    obtain ⟨after, ran, rfl, text⟩ := convert_eq_ok.mp done
    have done := (performed after).mp ran
    obtain ⟨names, written, _, _, rfl⟩ := exists_emit_of_perform found simple done
    have lines : ({ State.initial.reset with names := names }.emit 0 written
        ).flushMatch.closeAll.lines = banner ++ [written] := rfl
    rw [lines, Text.join_append_singleton _ _ (by decide),
      Text.join_append_singleton _ _ (by decide), List.append_cancel_left_eq] at text
    exact ⟨names, text ▸ done⟩
  · rintro ⟨names, done⟩
    exact ⟨_, convert_eq_ok.mpr ⟨_, (performed _).mpr done, rfl, rfl⟩⟩

theorem isLineBreak_of_visible {char : Char} (visible : Text.isBlank char = false) :
    Text.isLineBreak char = false :=
  Bool.eq_false_iff.mpr fun ends => by simp [Text.isBlank_of_isLineBreak ends] at visible

theorem isBody_of_ends {first last : Char} {middle : Text} (opens : Text.isBlank first = false)
    (closes : Text.isBlank last = false) (spoken : first ≠ '#')
    (unbroken : middle.isUnbroken = true) : Text.IsBody (first :: (middle ++ [last])) where
  stripped := Text.strip_of_ends opens closes
  spoken := by simpa using spoken
  unbroken := by
    have inside : ∀ char ∈ middle, Text.isLineBreak char = false := by
      simpa [Text.isUnbroken] using unbroken
    simpa [or_imp, forall_and] using
      ⟨isLineBreak_of_visible opens, inside, isLineBreak_of_visible closes⟩

theorem isBody_assigning (name : Grammar.Name) {body : Text} (unbroken : body.isUnbroken = true) :
    (assigning name.text body).IsBody := by
  have visible (char : Char) (mem : char ∈ name.text) : Text.isBlank char = false :=
    Grammar.isBlank_of_isMark (Grammar.isMark_of_isIdentRest (name.identifier.letters char mem))
  obtain ⟨first, others, spelled, started, _⟩ := name.identifier.start
  have shape : assigning name.text body =
      first :: ((others ++ (" = \"".toList ++ body)) ++ ['"']) := by
    rw [assigning, spelled, List.append_assoc others]
    rfl
  rw [shape]
  refine isBody_of_ends (visible first (by simp [spelled])) rfl ?_ ?_
  · rintro rfl
    exact absurd started (by decide)
  · have letters : Text.isUnbroken others = true := by
      refine List.all_eq_true.mpr fun char mem => ?_
      simp [isLineBreak_of_visible (visible char (by simp [spelled, mem]))]
    have marks : Text.isUnbroken " = \"".toList = true := by decide
    rw [Text.isUnbroken, List.all_append, List.all_append]
    simp only [Bool.and_eq_true]
    exact ⟨letters, marks, unbroken⟩

theorem isBody_printing {body : Text} (unbroken : body.isUnbroken = true) :
    (printing body).IsBody := by
  have shape : printing body = 'p' :: (("rint(\"".toList ++ (body ++ ['"'])) ++ [')']) := rfl
  rw [shape]
  refine isBody_of_ends rfl rfl (by decide) ?_
  have front : Text.isUnbroken "rint(\"".toList = true := by decide
  rw [Text.isUnbroken, List.all_append, List.all_append]
  simp only [Bool.and_eq_true]
  exact ⟨front, unbroken, rfl⟩

theorem eq_of_emit {first second : State} {left right : Text}
    (emitted : first.emit 0 left = second.emit 0 right) (same : first.lines = second.lines) :
    left = right := by
  have lines := congrArg State.lines emitted
  simpa [State.emit, State.writeLine, same] using lines

section Quoted

variable {body : Text}

theorem not_mem_of_isUnbroken (unbroken : body.isUnbroken = true) : '\n' ∉ body :=
  fun mem => absurd (List.all_eq_true.mp unbroken '\n' mem) (by decide)

/-- One of two values is written in parentheses, which no quotation is. -/
theorem not_convertsTo_of_branches (name : Grammar.Name) (unbroken : body.isUnbroken = true)
    (branches : body.Branches) :
    ¬ConvertsTo (assigning name.text body) ('$' :: (assigning name.text body ++ [';'])) := by
  have inline := not_mem_of_isUnbroken unbroken
  have chosen := (choiceForm_isSome_iff name.identifier inline).mpr branches
  obtain ⟨statement, chosen⟩ := Option.isSome_iff_exists.mp chosen
  have found := read?_assigned name inline
  rw [chosen, Option.some_or] at found
  obtain ⟨⟨target, accepted, condition, rejected, _⟩, behind, matched, rfl⟩ := form_eq_some chosen
  rw [convertsTo_iff (isBody_assigning name unbroken) found rfl]
  rintro ⟨names, done⟩
  simp only [perform, emit, declare, bind_eq_ok, expand_eq_ok, modify_eq_ok] at done
  obtain ⟨_, _, rfl, asked, _, ⟨_, rfl⟩, first, _, ⟨_, rfl⟩, second, _, ⟨_, rfl⟩, same⟩ := done
  have written := eq_of_emit same rfl
  simp only [List.append_assoc, List.cons_append, List.cons.injEq, true_and] at written
  obtain ⟨_, _, spelled, _⟩ := Pattern.exists_of_match?_keep matched
  have target_free := (markless_identifier target spelled).1
  have name_free := (markless_identifier name.text name.identifier.start).1
  have cut : (target ++ [' ']) ++ '=' :: ' ' :: '(' :: (asked ++ (") ? ".toList ++ (first ++
      (" : ".toList ++ (second ++ [';']))))) =
        (name.text ++ [' ']) ++ '=' :: ' ' :: (enquote body ++ [';']) := by
    rw [List.append_assoc, List.append_assoc]
    exact written.trans (List.append_assoc _ _ _)
  have behind := (Text.eq_of_first (by simp [target_free]) (by simp [name_free]) cut).2
  exact absurd (List.cons.inj (List.cons.inj behind).2).1 (by decide)

theorem convertsTo_assigning_iff (name : Grammar.Name) (unquoted : '"' ∉ body)
    (unbroken : body.isUnbroken = true) (single : ¬body.Branches) :
    ConvertsTo (assigning name.text body) ('$' :: (assigning name.text body ++ [';'])) ↔
      Expr.Inert body := by
  have inline := not_mem_of_isUnbroken unbroken
  have unchosen := mt (choiceForm_isSome_iff name.identifier inline).mp single
  have found := read?_assigned name inline
  rw [Option.not_isSome_iff_eq_none.mp unchosen, Option.none_or] at found
  rw [convertsTo_iff (isBody_assigning name unbroken) found rfl,
    ← @Expr.expandPlain_enquote_iff body (Names.empty.declare name.text) unquoted]
  simp only [perform, emit, declare, bind_eq_ok, withNames_eq_ok, modify_eq_ok,
    Expr.expandValue_enquote, Expr.expand_enquote, Except.ok.injEq]
  constructor
  · rintro ⟨names, _, _, rfl, written, _, ⟨expanded, rfl⟩, same⟩
    have text := eq_of_emit same rfl
    simp only [assigning, List.append_assoc, List.cons_append, List.cons.injEq, true_and,
      List.append_cancel_left_eq, List.append_cancel_right_eq] at text
    exact expanded.trans text
  · intro same
    refine ⟨Names.empty.declare name.text, (), _, rfl, enquote body, _, ⟨same, rfl⟩, ?_⟩
    simp only [assigning, List.append_assoc, List.cons_append]
    rfl

theorem convertsTo_printing_iff (unquoted : '"' ∉ body) (unbroken : body.isUnbroken = true) :
    ConvertsTo (printing body) ("echo ".toList ++ (enquote body ++ [';'])) ↔ Expr.Inert body := by
  have found := read?_printed (not_mem_of_isUnbroken unbroken)
  rw [convertsTo_iff (isBody_printing unbroken) found rfl,
    ← @Expr.expandPlain_enquote_iff body Names.empty unquoted]
  simp only [perform, printedContent_enquote, emit, bind_eq_ok, expand_eq_ok, modify_eq_ok,
    Expr.expand_enquote, Except.ok.injEq]
  constructor
  · rintro ⟨names, written, _, ⟨expanded, rfl⟩, same⟩
    have text := eq_of_emit same rfl
    simp only [List.append_assoc, List.append_cancel_left_eq, List.append_cancel_right_eq] at text
    exact expanded.trans text
  · intro same
    refine ⟨Names.empty, enquote body, _, ⟨same, rfl⟩, ?_⟩
    rw [List.append_assoc]
    rfl

/-- A quoted text is assigned as it stands exactly if nothing in it is rewritten and it does not
read as one of two values.  It is printed as it stands exactly if nothing in it is rewritten. -/
theorem quotation_survives_iff (name : Grammar.Name) (unquoted : '"' ∉ body)
    (unbroken : body.isUnbroken = true) :
    (ConvertsTo (assigning name.text body) ('$' :: (assigning name.text body ++ [';'])) ↔
      Expr.Inert body ∧ ¬body.Branches) ∧
    (ConvertsTo (printing body) ("echo ".toList ++ (enquote body ++ [';'])) ↔
      Expr.Inert body) := by
  refine ⟨?_, convertsTo_printing_iff unquoted unbroken⟩
  by_cases branches : body.Branches
  · exact iff_of_false (not_convertsTo_of_branches name unbroken branches)
      fun survives => survives.2 branches
  · rw [convertsTo_assigning_iff name unquoted unbroken branches, and_iff_left branches]

end Quoted

/-- A variable. -/
def plainName : Grammar.Name :=
  ⟨"v".toList, by decide, by decide⟩

/-- A text with a quote, dots, a parenthesis and the word `if`, of which none is rewritten. -/
def plainQuote : Text :=
  "it's x.lend( 1. if ".toList

theorem quotation_survives_iff_plain :
    '"' ∉ plainQuote ∧ plainQuote.isUnbroken = true ∧
      ConvertsTo (assigning plainName.text plainQuote)
        ('$' :: (assigning plainName.text plainQuote ++ [';'])) ∧
      Expr.Inert plainQuote ∧ ¬plainQuote.Branches ∧
      ConvertsTo (printing plainQuote) ("echo ".toList ++ (enquote plainQuote ++ [';'])) := by
  have unquoted : '"' ∉ plainQuote := by decide
  have unbroken : plainQuote.isUnbroken = true := by decide
  have assigned : ConvertsTo (assigning plainName.text plainQuote)
      ('$' :: (assigning plainName.text plainQuote ++ [';'])) := by decide +kernel
  have survives := quotation_survives_iff plainName unquoted unbroken
  have inert := survives.1.mp assigned
  exact ⟨unquoted, unbroken, assigned, inert.1, inert.2, survives.2.mpr inert.1⟩

/-- The name of a built-in function is replaced inside of a quotation. -/
theorem not_survives_builtin :
    '"' ∉ "len(a)".toList ∧ Text.isUnbroken "len(a)".toList = true ∧
      ¬ConvertsTo (assigning plainName.text "len(a)".toList)
        ('$' :: (assigning plainName.text "len(a)".toList ++ [';'])) ∧
      ConvertsTo (assigning plainName.text "len(a)".toList) "$v = \"count(a)\";".toList := by
  refine ⟨by decide, by decide, by decide +kernel, by decide +kernel⟩

end Conversion
end Ephp
