import Ephp.Proofs.Selectors
import Ephp.Proofs.Unbroken

/-!
# Labels of a switch

An arm of a match and a label of a switch are spelled alike, and the form of an arm is tried first.
It takes a line with a colon inside of its label, and where no match is open it then turns the line
down, but no other form is tried any more.  So such a line opens a block, and the labels that stay
labels are those without a colon behind their first character.
-/

namespace Ephp

namespace Pattern

theorem Fits.widen {α : Type} {span wide : Span} {next : Pattern α} {text : Text}
    (wider : ∀ run, span.Spells run → wide.Spells run) (fits : (keep span next).Fits text) :
    (keep wide next).Fits text := by
  obtain ⟨run, rest, split, spelled, tail⟩ := fits
  exact ⟨run, rest, split, wider run spelled, tail⟩

theorem spells_word_of_headed {reach : Reach} {starts admits : Char → Bool}
    (letters : ∀ char, starts char = true ∨ admits char = true → Text.isIdentRest char = true)
    (run : Text) (spelled : (Span.headed reach starts admits).Spells run) :
    Span.word.Spells run := by
  obtain ⟨first, rest, rfl, started, all⟩ := spelled
  exact ⟨first, rest, rfl, Grammar.isWordChar_of_isIdentRest (letters first (.inl started)),
    fun char mem => Grammar.isWordChar_of_isIdentRest (letters char (.inr (all char mem)))⟩

theorem spells_word_of_identifier (run : Text) (spelled : Span.identifier.Spells run) :
    Span.word.Spells run :=
  (Grammar.IsIdentifier.of_spells spelled).word

theorem spells_word_of_constantName (run : Text) (spelled : Span.constantName.Spells run) :
    Span.word.Spells run := by
  refine spells_word_of_headed (fun char letter => ?_) run spelled
  simp only [Bool.or_eq_true] at letter
  simp only [Text.isIdentRest, Bool.or_eq_true, Text.isAlphanum_iff, Text.isAlpha_iff]
  grind

end Pattern

namespace Statement

open Ephp.Pattern

/-- The line of a label. -/
def labelText (value : Text) : Text :=
  "case ".toList ++ (value ++ [':'])

theorem labelText_eq (value : Text) : labelText value = "case ".toList ++ value ++ [':'] :=
  (List.append_assoc _ _ _).symm

theorem mem_labelText {char : Char} {value : Text} (mem : char ∈ value) : char ∈ labelText value :=
  List.mem_append_right _ (List.mem_append_left _ mem)

/-! ## Reading a label -/

/-- The readers that are tried on a label before the reader of labels. -/
def beforeLabel : List (Text → Option Statement) :=
  [arrowForm, closureForm, matchAssignForm, armForm, inputForm, choiceForm, constantForm,
    assignForm]

theorem read?_labelText_eq (value : Text) :
    read? (labelText value) =
      (beforeLabel ++ [headerForm "case".toList .label, callForm]).findSome?
        fun read => read (labelText value) := by
  have starts : Grammar.Starts (some .caseWord) (labelText value) := .keyword rfl
  exact @Grammar.read?_eq_candidates _ _ [] starts (by simp)

/-- None of the readers that are tried first reads a label. -/
theorem isLabel_of_beforeLabel {read : Text → Option Statement} (mem : read ∈ beforeLabel)
    {line : Text} {statement : Statement} (found : read line = some statement) :
    statement.isLabel = false := by
  have built {α : Type} {pattern : Pattern α} {build : α → Statement}
      (other : ∀ kept, (build kept).isLabel = false)
      (found : form pattern build line = some statement) : statement.isLabel = false := by
    obtain ⟨result, _, rfl⟩ := Option.map_eq_some_iff.mp found
    exact other result.1
  simp only [beforeLabel, List.mem_cons, List.not_mem_nil, or_false] at mem
  rcases mem with rfl | rfl | rfl | rfl | rfl | rfl | rfl | rfl <;>
    exact built (fun _ => rfl) found

/-- A line that one of these readers takes is no label. -/
theorem isLabel_of_isSome {value : Text} {read : Text → Option Statement}
    (mem : read ∈ beforeLabel) (takes : (read (labelText value)).isSome = true)
    {statement : Statement} (found : read? (labelText value) = some statement) :
    statement.isLabel = false := by
  rw [read?_labelText_eq, List.findSome?_append, Option.or_eq_some_iff] at found
  rcases found with earlier | ⟨none, _⟩
  · obtain ⟨other, other_mem, taken⟩ := List.exists_of_findSome?_eq_some earlier
    exact isLabel_of_beforeLabel other_mem taken
  · rw [List.findSome?_eq_none_iff.mp none read mem] at takes
    cases takes

theorem spells_concat_colon (reach : Reach) {text : Text}
    (inline : ∀ char ∈ text, Text.isInline char = true) :
    (Span.headed reach Text.isInline Text.isInline).Spells (text ++ [':']) := by
  have all : ∀ char ∈ text ++ [':'], Text.isInline char = true :=
    List.forall_mem_append.mpr ⟨inline, List.forall_mem_singleton.mpr rfl⟩
  obtain ⟨first, rest, whole⟩ : ∃ first rest, text ++ [':'] = first :: rest :=
    List.exists_cons_of_ne_nil (by simp)
  rw [whole] at all ⊢
  exact ⟨first, rest, rfl, List.forall_mem_cons.mp all⟩

theorem isSome_assignForm_labelText {rest : Text}
    (inline : ∀ char ∈ rest, Text.isInline char = true) :
    (assignForm (labelText ('=' :: rest))).isSome = true := by
  have blank : Span.blanks.Spells [' '] := List.forall_mem_singleton.mpr rfl
  refine isSome_form_iff.mpr ⟨"case".toList, ' ' :: '=' :: (rest ++ [':']), rfl, ?_, [' '], _, rfl,
    blank, rest ++ [':'], rfl, [], rest ++ [':'], rfl, fun _ none => absurd none List.not_mem_nil,
    rest ++ [':'], [], (List.append_nil _).symm, spells_concat_colon _ inline, .inl rfl⟩
  exact ⟨'c', "ase".toList, rfl, rfl, List.all_eq_true.mp (by decide : "ase".toList.all _ = true)⟩

section Label

variable {first : Char} {rest : Text} (solid : Text.isBlank first = false)

include solid in
theorem spells_label (reach : Reach) (inline : ∀ char ∈ rest, Text.isInline char = true) :
    (Span.headed reach Text.isInline Text.isInline).Spells (first :: rest) := by
  refine ⟨first, rest, rfl, bne_iff_ne.mpr ?_, inline⟩
  rintro rfl
  cases solid

include solid in
/-- The form of an arm takes a label exactly if there is a colon behind its first character. -/
theorem isSome_armForm_labelText_iff (inline : ∀ char ∈ rest, Text.isInline char = true) :
    (armForm (labelText (first :: rest))).isSome = true ↔ ':' ∈ rest := by
  refine isSome_form_iff.trans ⟨?_, fun colon => ?_⟩
  · rintro ⟨_, split, _, _, rfl, ⟨_, blanks, rfl, _, blank⟩, _, _, rfl, ⟨start, more, rfl, _, _⟩,
      _, rfl, skipped, _, rfl, _, _, ending, rfl, ⟨head, tail, rfl, _, _⟩, _⟩
    change "case".toList ++ ' ' :: first :: (rest ++ [':']) = _ at split
    have inside := (List.cons.inj (List.append_cancel_left split)).2
    cases blanks with
    | cons second blanks =>
        rw [(List.cons.inj inside).1, blank second List.mem_cons_self] at solid
        cases solid
    | nil =>
        -- Something follows the colon of the arm, so it is not the last one of the line.
        have cut : rest ++ [':'] = (more ++ [':']) ++ (skipped ++ (head :: tail ++ ending)) :=
          (List.cons.inj inside).2.trans (List.append_assoc more [':'] _).symm
        have shorter := congrArg List.dropLast cut
        rw [List.dropLast_concat, List.dropLast_append_of_ne_nil (by simp)] at shorter
        rw [shorter]
        simp
  · obtain ⟨front, back, rfl⟩ := List.mem_iff_append.mp colon
    obtain ⟨front_inline, behind⟩ := List.forall_mem_append.mp inline
    have back_inline := (List.forall_mem_cons.mp behind).2
    exact ⟨' ' :: first :: ((front ++ ':' :: back) ++ [':']), rfl, [' '], _, rfl,
      ⟨' ', [], rfl, rfl, by simp⟩, first :: front, ':' :: (back ++ [':']), by simp,
      spells_label solid _ front_inline, back ++ [':'], rfl, [], back ++ [':'], rfl,
      fun _ none => absurd none List.not_mem_nil, back ++ [':'], [], (List.append_nil _).symm,
      spells_concat_colon _ back_inline, .inl rfl⟩

variable (other : first ≠ '=')
include solid other

theorem not_fits_labelText {α : Type} {target : Span} (value : Pattern α)
    (words : ∀ run, target.Spells run → Span.word.Spells run) :
    ¬(assignment target value).Fits (labelText (first :: rest)) := fun fits =>
  not_fits_clause (List.all_eq_true.mp (by decide : "case".toList.all _ = true)) solid other
    (fits.widen words)

/-- The form of an arm is the first that a label can have, unless it starts with an equals sign. -/
theorem read?_labelText_of_ne :
    read? (labelText (first :: rest)) =
      [armForm, inputForm, choiceForm, constantForm, assignForm, headerForm "case".toList .label,
        callForm].findSome? fun read => read (labelText (first :: rest)) := by
  have misfit {α : Type} (value : Pattern α) :=
    @not_fits_labelText first rest solid other α .word value fun _ spelled => spelled
  have arrow : arrowForm (labelText (first :: rest)) = none := form_of_not_fits (misfit _)
  have closure : closureForm (labelText (first :: rest)) = none := form_of_not_fits (misfit _)
  have started : matchAssignForm (labelText (first :: rest)) = none := form_of_not_fits (misfit _)
  rw [read?_labelText_eq, beforeLabel]
  simp only [List.cons_append, List.nil_append, List.findSome?_cons, arrow, closure, started]

/-- A label without a colon behind its first character is read as a label. -/
theorem read?_labelText (inline : ∀ char ∈ rest, Text.isInline char = true)
    (absent : ':' ∉ rest) :
    read? (labelText (first :: rest)) = some (.label (first :: rest)) := by
  have misfit {α : Type} (value : Pattern α) :=
    @not_fits_labelText first rest solid other α .identifier value spells_word_of_identifier
  have arm : armForm (labelText (first :: rest)) = none := by
    rw [← Option.not_isSome_iff_eq_none, isSome_armForm_labelText_iff solid inline]
    exact absent
  have input : inputForm (labelText (first :: rest)) = none := form_of_not_fits (misfit _)
  have choice : choiceForm (labelText (first :: rest)) = none := form_of_not_fits (misfit _)
  have constant : constantForm (labelText (first :: rest)) = none :=
    form_of_not_fits (not_fits_labelText solid other _ spells_word_of_constantName)
  have assign : assignForm (labelText (first :: rest)) = none := form_of_not_fits (misfit _)
  have label : headerForm "case".toList .label (labelText (first :: rest)) =
      some (.label (first :: rest)) :=
    form_of_reads (first :: rest, ()) (.fixed rfl (.gap solid
      (.toWord [':'] rfl (spells_label solid _ inline))))
  rw [read?_labelText_of_ne solid other]
  simp only [List.findSome?_cons, arm, input, choice, constant, assign, label]

/-- A label with a colon behind its first character is read as an arm. -/
theorem exists_arm_of_labelText (inline : ∀ char ∈ rest, Text.isInline char = true)
    (colon : ':' ∈ rest) :
    ∃ values result, read? (labelText (first :: rest)) = some (.arm values result) := by
  obtain ⟨statement, arm⟩ := Option.isSome_iff_exists.mp
    ((isSome_armForm_labelText_iff solid inline).mpr colon)
  obtain ⟨⟨⟨values, result, _⟩, _⟩, _, rfl⟩ := Option.map_eq_some_iff.mp arm
  refine ⟨values, result, ?_⟩
  rw [read?_labelText_of_ne solid other, List.findSome?_cons, arm]

end Label

end Statement

/-! ## Performing a label -/

namespace State

theorem flushMatch_of_closed {state : State} (closed : state.collected.isOpen = false) :
    state.flushMatch = state := by
  simp [flushMatch, Match.lines, closed]

/-- A match that is not open before blocks are closed is not open behind them. -/
theorem isOpen_dedent {indent : Int} {state : State} (closed : state.collected.isOpen = false) :
    (state.dedent indent).collected.isOpen = false := by
  refine @dedent_induct indent (fun state => state.collected.isOpen = false) ?_ state closed
  intro state level below _ _ closed
  have popped : (state.pop below).flushMatch = state.pop below := flushMatch_of_closed closed
  rw [closeTop_eq, popped]
  split
  · exact closed
  · rwa [close_collected]

end State

namespace Conversion

open Statement

/-- After a label has been performed: it is written behind the break that the label before it waits
for, it waits for a break itself, and the open blocks are the same. -/
structure Labelled (indent : Int) (written : Text) (before after : State) : Prop where
  lines : after.lines = before.lines ++
    (if before.casePending then [Text.indentation (indent - 4) ++ "break;".toList] else []) ++
      [Text.indentation indent ++ labelText written]
  pending : after.casePending = true
  levels : after.levels = before.levels
  blocks : after.blocks = before.blocks

theorem Labelled.length_lines {indent : Int} {written : Text} {before after : State}
    (labelled : Labelled indent written before after) :
    after.lines.length = before.lines.length + (if before.casePending then 1 else 0) + 1 := by
  rw [labelled.lines, List.length_append, List.length_append, List.length_singleton]
  split <;> rfl

/-- Only what is read as a label is performed as one. -/
theorem Labelled.isLabel {indent : Int} {body written : Text} {before after : State}
    (labelled : Labelled indent written before after) (outcome : Outcome indent body before after) :
    ∃ statement, read? body = some statement ∧ statement.isLabel = true := by
  have lines := labelled.length_lines
  have levels := labelled.levels
  have deeper {level : Int} (same : level :: before.levels = before.levels) :
      ∃ statement, read? body = some statement ∧ statement.isLabel = true :=
    absurd same (List.cons_ne_self level before.levels)
  cases outcome with
  | @wrote text names _ _ _ _ _ =>
      -- One line is written and what is pending stays, so a break is missing or nothing is pending.
      have waits : before.casePending = true := labelled.pending
      change (before.lines ++ [Text.indentation indent ++ text]).length = _ at lines
      rw [if_pos waits, List.length_append, List.length_singleton] at lines
      omega
  | opened names _ _ _ _ _ _ _ => exact deeper levels
  | acquired names _ _ _ => exact deeper levels
  | looped _ => exact deeper levels
  | ended _ _ open_eq _ => exact absurd (levels.trans open_eq).symm (List.cons_ne_self _ _)
  | switched _ _ _ => exact deeper levels
  | labelled found label _ _ => exact ⟨_, found, label⟩
  | started names _ _ =>
      change before.lines.length = _ at lines
      omega
  | armed arm _ _ _ _ _ =>
      change before.lines.length = _ at lines
      omega

/-- A label is performed as a label. -/
theorem labelled_of_read? {indent : Int} {body value written : Text} {state : State}
    (found : read? body = some (.label value))
    (expanded : Expr.expand state.names value = .ok written) :
    ∃ after, convertBody indent body state = .ok () after ∧
      Labelled indent written (state.dedent indent) after := by
  rw [convertBody_of_applies found rfl]
  rw [← State.dedent_names indent state] at expanded
  generalize state.dedent indent = reached at expanded ⊢
  have left : (if reached.casePending then reached.emit (indent - 4) "break;".toList
      else reached).names = reached.names := by
    split <;> rfl
  refine ⟨{ (if reached.casePending then reached.emit (indent - 4) "break;".toList
    else reached).emit indent ("case ".toList ++ written ++ [':']) with
      casePending := true }, ?_, ?_⟩
  · simp only [perform, setCasePending, Conversion.emit, bind_eq_ok, breakPending_eq_ok,
      expand_eq_ok, modify_eq_ok]
    exact ⟨(), _, rfl, written, _, ⟨by rw [left, expanded], rfl⟩, (), _, rfl, rfl⟩
  · refine ⟨?_, rfl, ?_, ?_⟩
    · rw [labelText_eq]
      split <;> simp [State.emit, State.writeLine]
    · split <;> rfl
    · split <;> rfl

/-- A line with a final colon that is no statement opens a block. -/
theorem convertUnknown_concat_colon (indent : Int) (header : Text) (state : State) :
    convertUnknown indent (header ++ [':']) state =
      .ok () ((state.emit indent (header ++ " \x7b".toList)).openBlock .unnamed (indent + 4)) := by
  have colon : Text.endsWith (header ++ [':']) [':'] = true :=
    List.isSuffixOf_iff_suffix.mpr (List.suffix_append header [':'])
  rw [convertUnknown, if_pos colon, List.dropLast_concat]
  rfl

/-- In a state without an open match a label is written and no block is opened exactly if there is
no colon behind the first character of the label, and the first is no equals sign.  With such a
colon the line opens a block. -/
theorem label_stays_iff {line rest written : Text} {first : Char} (state : State)
    (unbroken : line.isUnbroken = true) (spelled : line.strip = labelText (first :: rest))
    (solid : Text.isBlank first = false) (closed : state.collected.isOpen = false)
    (expanded : Expr.expand state.names (first :: rest) = .ok written) :
    ((∃ after, convertLine line state = .ok () after ∧
        Labelled line.indentOf written (state.dedent line.indentOf) after) ↔
      first ≠ '=' ∧ ':' ∉ rest) ∧
    (first ≠ '=' → ':' ∈ rest →
      convertLine line state = .ok ()
        (((state.dedent line.indentOf).emit line.indentOf
          ("case ".toList ++ (first :: rest) ++ " \x7b".toList)).openBlock .unnamed
            (line.indentOf + 4))) := by
  have spoken : line.isRemark = false := by
    rw [Text.isRemark, spelled]
    rfl
  have inline : ∀ char ∈ rest, Text.isInline char = true := by
    intro char mem
    have whole : (labelText (first :: rest)).isUnbroken = true :=
      spelled ▸ Text.isUnbroken_of_isInfix (Text.strip_isInfix line) unbroken
    refine bne_iff_ne.mpr ?_
    rintro rfl
    exact not_mem_of_isUnbroken whole (mem_labelText (List.mem_cons_of_mem _ mem))
  rw [convertLine_of_isRemark_eq_false spoken, spelled]
  refine ⟨⟨?_, ?_⟩, ?_⟩
  · rintro ⟨after, done, labelled⟩
    obtain ⟨statement, found, label⟩ := labelled.isLabel (outcome_of_convertBody done)
    have untaken {read : Text → Option Statement} (mem : read ∈ beforeLabel) :
        (read (labelText (first :: rest))).isSome ≠ true := fun takes => by
      rw [isLabel_of_isSome mem takes found] at label
      cases label
    constructor
    · rintro rfl
      exact untaken (by simp [beforeLabel]) (isSome_assignForm_labelText inline)
    · intro colon
      exact untaken (by simp [beforeLabel]) ((isSome_armForm_labelText_iff solid inline).mpr colon)
  · rintro ⟨other, absent⟩
    exact labelled_of_read? (read?_labelText solid other inline absent) expanded
  · intro other colon
    obtain ⟨values, result, found⟩ := exists_arm_of_labelText solid other inline colon
    have declined : applies (state.dedent line.indentOf) (.arm values result) = false :=
      State.isOpen_dedent closed
    rw [convertBody_eq, found]
    simp only [declined, Bool.false_eq_true, if_false]
    exact convertUnknown_concat_colon _ ("case ".toList ++ (first :: rest)) _

/-- A state inside of a switch, behind its first label. -/
def switching : State :=
  { State.initial with
    levels := [4, 0], blocks := [.switch], switchPending := true, casePending := true }

theorem label_stays_iff_quoted :
    (∃ after, convertLine "    case 'a b':".toList switching = .ok () after ∧
      Labelled 4 "'a b'".toList (switching.dedent 4) after) ∧
    convertLine "    case A::B:".toList switching =
      .ok () (((switching.dedent 4).emit 4 "case A::B \x7b".toList).openBlock .unnamed 8) := by
  constructor
  · exact (@label_stays_iff "    case 'a b':".toList "a b'".toList "'a b'".toList '\'' switching
      (by decide) (by decide) (by decide) (by decide) (by decide +kernel)).1.mpr
        ⟨by decide, by decide⟩
  · exact (@label_stays_iff "    case A::B:".toList "::B".toList "A::B".toList 'A' switching
      (by decide) (by decide) (by decide) (by decide) (by decide +kernel)).2 (by decide) (by decide)

/-- A qualified name as a label opens a block instead. -/
theorem not_labelled_qualified :
    Expr.expand .empty "A::B".toList = .ok "A::B".toList ∧
      ∃ after, convertLines ["switch x:".toList, "    case A::B:".toList] State.initial =
          .ok () after ∧
        after.lines = ["switch (x) \x7b".toList, "    case A::B \x7b".toList] ∧
        after.casePending = false ∧ after.blocks = [.unnamed, .switch] := by
  obtain ⟨_, after, done, reached⟩ := passes_iff.mp
    (by decide +kernel : (convertLines ["switch x:".toList, "    case A::B:".toList]).passes
      (fun _ after => decide (after.lines =
          ["switch (x) \x7b".toList, "    case A::B \x7b".toList] ∧
        after.casePending = false ∧ after.blocks = [.unnamed, .switch])) State.initial = true)
  exact ⟨by decide +kernel, after, done, of_decide_eq_true reached⟩

end Conversion

end Ephp
