import Ephp.Proofs.Collect
import Ephp.Proofs.Quotation
import Ephp.Proofs.Segments
import Ephp.Proofs.Verbatim
import Ephp.Proofs.Words

/-!
# The values that select an arm

The values of an arm are separated by `or` and by `and`.  The separators are found letter by letter,
inside of words and of quotations as well as between them, so a value is recorded as it stands
exactly if neither separator occurs in it.
-/

namespace Ephp

/-! ## Splitting at a word -/

namespace Text

variable {separator text : Text}

theorem splitAfter_ne_nil (skip : Nat) (text : Text) : splitAfter separator skip text ≠ [] := by
  induction text generalizing skip with
  | nil => cases skip <;> exact List.cons_ne_nil _ _
  | cons char text ih =>
      cases skip with
      | succ skip => exact ih skip
      | zero =>
          rw [splitAfter]
          split
          · exact List.cons_ne_nil _ _
          · simpa using ih 0

/-- At a character that the separator does not have, the texts before and behind are split on their
own, and the two parts that meet there are one. -/
theorem splitAfter_append_cons {mark : Char} {first back : Text} {after : List Text}
    (absent : mark ∉ separator) (filled : separator ≠ [])
    (behind : splitAt back separator = first :: after) {skip : Nat} {front : Text}
    (short : skip ≤ front.length) :
    ∃ before last, splitAfter separator skip front = before ++ [last] ∧
      splitAfter separator skip (front ++ mark :: back) =
        before ++ (last ++ mark :: first) :: after := by
  induction front generalizing skip with
  | nil =>
      obtain rfl : skip = 0 := Nat.le_zero.mp short
      have other : separator.isPrefixOf (mark :: back) = false := by
        rw [← Bool.not_eq_true, List.isPrefixOf_iff_prefix]
        intro stands
        exact filled (List.prefix_nil.mp
          (@isPrefix_of_isPrefix_append_cons separator [] back mark absent stands))
      refine ⟨[], [], rfl, ?_⟩
      rw [List.nil_append, splitAfter, other]
      exact congrArg (List.modifyHead (mark :: ·)) behind
  | cons char front ih =>
      cases skip with
      | succ skip => exact ih (Nat.le_of_succ_le_succ short)
      | zero =>
          rw [List.cons_append, splitAfter, splitAfter]
          by_cases stands : List.IsPrefix separator (char :: front)
          · have longer : List.IsPrefix separator (char :: (front ++ mark :: back)) :=
              stands.trans (List.prefix_append (char :: front) (mark :: back))
            have inside : separator.length - 1 ≤ front.length :=
              Nat.sub_le_of_le_add stands.length_le
            obtain ⟨before, last, alone, joined⟩ := ih inside
            rw [if_pos (List.isPrefixOf_iff_prefix.mpr stands),
              if_pos (List.isPrefixOf_iff_prefix.mpr longer), alone, joined]
            exact ⟨[] :: before, last, rfl, rfl⟩
          · have other : ¬List.IsPrefix separator (char :: (front ++ mark :: back)) := fun longer =>
              stands (@isPrefix_of_isPrefix_append_cons separator (char :: front) back mark absent
                longer)
            obtain ⟨before, last, alone, joined⟩ := ih (Nat.zero_le _)
            rw [if_neg (mt List.isPrefixOf_iff_prefix.mp stands),
              if_neg (mt List.isPrefixOf_iff_prefix.mp other), alone, joined]
            cases before with
            | nil => exact ⟨[], char :: last, rfl, rfl⟩
            | cons part before => exact ⟨(char :: part) :: before, last, rfl, rfl⟩

/-- A text is one part exactly if the separator does not occur in it. -/
theorem length_splitAt_eq_one_iff (filled : separator ≠ []) :
    (splitAt text separator).length = 1 ↔ ¬List.IsInfix separator text := by
  induction text with
  | nil =>
      refine iff_of_true rfl fun stands => ?_
      exact filled (List.infix_nil.mp stands)
  | cons char text ih =>
      rw [splitAt, splitAfter, List.infix_cons_iff, not_or]
      by_cases stands : List.IsPrefix separator (char :: text)
      · have more := List.length_pos_iff.mpr
          (@splitAfter_ne_nil separator (separator.length - 1) text)
        rw [if_pos (List.isPrefixOf_iff_prefix.mpr stands), List.length_cons]
        exact iff_of_false (by omega) fun absent => absent.1 stands
      · rw [if_neg (mt List.isPrefixOf_iff_prefix.mp stands), List.length_modifyHead]
        exact ih.trans (and_iff_right stands).symm

theorem splitAt_of_not_isInfix (absent : ¬List.IsInfix separator text) :
    splitAt text separator = [text] := by
  induction text with
  | nil => rfl
  | cons char text ih =>
      rw [List.infix_cons_iff, not_or] at absent
      rw [splitAt, splitAfter, if_neg (mt List.isPrefixOf_iff_prefix.mp absent.1)]
      exact congrArg (List.modifyHead (char :: ·)) (ih absent.2)

end Text

/-! ## The values of an arm -/

namespace Statement

open Text (join splitAt strip)

/-- The parts of a text between the occurrences of `and`, without the blanks around them. -/
def conjuncts (text : Text) : List Text :=
  (splitAt text "and".toList).map strip

theorem armValues_eq (values : Text) :
    armValues values = (splitAt values "or".toList).flatMap conjuncts :=
  List.map_flatMap

theorem conjuncts_append_blank (text : Text) : conjuncts (text ++ [' ']) = conjuncts text := by
  obtain ⟨before, last, alone, joined⟩ := Text.splitAfter_append_cons
    (by decide : ' ' ∉ "and".toList) (by decide) (rfl : splitAt [] "and".toList = [[]])
    (Nat.zero_le text.length)
  rw [conjuncts, conjuncts, splitAt, splitAt, alone, joined]
  simp only [List.map_append, List.map_cons, Text.strip_append_blank]

theorem conjuncts_blank_cons (text : Text) : conjuncts (' ' :: text) = conjuncts text := by
  obtain ⟨first, after, split⟩ :=
    List.exists_cons_of_ne_nil (@Text.splitAfter_ne_nil "and".toList 0 text)
  rw [conjuncts, conjuncts, splitAt, splitAt, Text.splitAfter, split]
  simp [Text.strip_blank_cons]

/-- The values on both sides of an `or` between blanks are values of their own. -/
theorem armValues_or (front back : Text) :
    armValues (front ++ (" or ".toList ++ back)) = armValues front ++ armValues back := by
  obtain ⟨first, after, split⟩ :=
    List.exists_cons_of_ne_nil (@Text.splitAfter_ne_nil "or".toList 0 back)
  have behind : splitAt ("or ".toList ++ back) "or".toList = [] :: (' ' :: first) :: after := by
    have spaced : splitAt (' ' :: back) "or".toList = (' ' :: first) :: after :=
      congrArg (List.modifyHead (' ' :: ·)) split
    exact congrArg ([] :: ·) spaced
  obtain ⟨before, last, alone, joined⟩ := Text.splitAfter_append_cons
    (by decide : ' ' ∉ "or".toList) (by decide) behind (Nat.zero_le front.length)
  change splitAt front "or".toList = _ at alone
  change splitAt (front ++ (" or ".toList ++ back)) "or".toList = _ at joined
  change splitAt back "or".toList = _ at split
  rw [armValues_eq, armValues_eq, armValues_eq, alone, joined, split]
  simp only [List.flatMap_append, List.flatMap_cons, List.flatMap_nil, List.append_nil,
    List.append_assoc, conjuncts_append_blank, conjuncts_blank_cons]

theorem armValues_join {choices : List Text} (filled : choices ≠ []) :
    armValues (join " or ".toList choices) = choices.flatMap armValues := by
  induction choices with
  | nil => exact absurd rfl filled
  | cons choice choices ih =>
      cases choices with
      | nil => rw [Text.join_singleton, List.flatMap_singleton]
      | cons second choices =>
          rw [Text.join_cons_cons, List.append_assoc, armValues_or, ih (List.cons_ne_nil _ _)]
          exact List.flatMap_cons.symm

/-- A text in which neither of the two separators occurs. -/
def Whole (text : Text) : Prop :=
  ¬List.IsInfix "or".toList text ∧ ¬List.IsInfix "and".toList text

instance (text : Text) : Decidable (Whole text) :=
  inferInstanceAs (Decidable (_ ∧ _))

theorem armValues_of_whole {text : Text} (whole : Whole text) (stripped : text.strip = text) :
    armValues text = [text] := by
  rw [armValues_eq, Text.splitAt_of_not_isInfix whole.1, List.flatMap_singleton, conjuncts,
    Text.splitAt_of_not_isInfix whole.2, List.map_singleton, stripped]

theorem conjuncts_ne_nil (text : Text) : conjuncts text ≠ [] :=
  mt List.map_eq_nil_iff.mp (Text.splitAfter_ne_nil 0 text)

theorem length_armValues_pos (text : Text) : 0 < (armValues text).length := by
  obtain ⟨first, after, split⟩ :=
    List.exists_cons_of_ne_nil (@Text.splitAfter_ne_nil "or".toList 0 text)
  rw [armValues_eq, splitAt, split, List.flatMap_cons, List.length_append]
  exact Nat.add_pos_left (List.length_pos_iff.mpr (conjuncts_ne_nil first)) _

theorem whole_of_length_armValues {text : Text} (single : (armValues text).length = 1) :
    Whole text := by
  have each (part : Text) : 0 < (conjuncts part).length :=
    List.length_pos_iff.mpr (conjuncts_ne_nil part)
  have undivided : (splitAt text "or".toList).length = 1 := by
    obtain ⟨first, after, split⟩ :=
      List.exists_cons_of_ne_nil (@Text.splitAfter_ne_nil "or".toList 0 text)
    change splitAt text "or".toList = first :: after at split
    rw [armValues_eq, split] at single
    rw [split]
    cases after with
    | nil => rfl
    | cons second after =>
        rw [List.flatMap_cons, List.flatMap_cons, List.length_append, List.length_append] at single
        have one := each first
        have two := each second
        omega
  have disjoint := (Text.length_splitAt_eq_one_iff (by decide)).mp undivided
  refine ⟨disjoint, (Text.length_splitAt_eq_one_iff (by decide)).mp ?_⟩
  rwa [armValues_eq, Text.splitAt_of_not_isInfix disjoint, List.flatMap_singleton, conjuncts,
    List.length_map] at single

theorem length_le_length_flatMap (choices : List Text) :
    choices.length ≤ (choices.flatMap armValues).length := by
  induction choices with
  | nil => exact Nat.le_refl 0
  | cons choice choices ih =>
      have first := length_armValues_pos choice
      rw [List.flatMap_cons, List.length_append, List.length_cons]
      omega

/-- If no more values are read than are given, none of the given ones is divided. -/
theorem whole_of_length_flatMap {choices : List Text}
    (same : (choices.flatMap armValues).length = choices.length) :
    ∀ choice ∈ choices, Whole choice := by
  induction choices with
  | nil => exact fun _ mem => absurd mem List.not_mem_nil
  | cons choice choices ih =>
      have first := length_armValues_pos choice
      have others := length_le_length_flatMap choices
      rw [List.flatMap_cons, List.length_append, List.length_cons] at same
      refine List.forall_mem_cons.mpr ⟨whole_of_length_armValues ?_, ih ?_⟩
      · omega
      · omega

/-! ## Reading an arm -/

/-- A value that can select an arm: a word, or a quotation without quotes and colons in it. -/
inductive Selector : Text → Prop where
  | word {text : Text} (word : Expr.IsWord text) : Selector text
  | quoted {quote : Char} {body : Text} (quotes : Expr.isQuote quote = true)
    (plain : body.all (fun char => !Expr.isQuote char && char != ':') = true)
    (unbroken : body.isUnbroken = true) : Selector (quote :: (body ++ [quote]))

namespace Selector

variable {text : Text}

theorem isBlank_of_isQuote {char : Char} (quotes : Expr.isQuote char = true) :
    Text.isBlank char = false := by
  rcases Expr.eq_of_isQuote quotes with rfl | rfl <;> rfl

theorem stripped (selector : Selector text) : text.strip = text := by
  cases selector with
  | word word =>
      exact Text.strip_of_solid fun char mem => Text.isBlank_of_isWordChar (word.letters char mem)
  | quoted quotes _ _ =>
      exact Text.strip_of_ends (isBlank_of_isQuote quotes) (isBlank_of_isQuote quotes)

/-- What stands on the line of an arm before the colon: no colon and no line break. -/
theorem mem (selector : Selector text) {char : Char} (mem : char ∈ text) :
    char ≠ ':' ∧ Text.isLineBreak char = false := by
  cases selector with
  | word word =>
      refine ⟨?_, Conversion.isLineBreak_of_visible
        (Text.isBlank_of_isWordChar (word.letters char mem))⟩
      rintro rfl
      exact absurd (word.letters ':' mem) (by decide)
  | quoted quotes plain unbroken =>
      have quote {char : Char} (quotes : Expr.isQuote char = true) :
          char ≠ ':' ∧ Text.isLineBreak char = false := by
        rcases Expr.eq_of_isQuote quotes with rfl | rfl <;> decide
      rcases List.mem_cons.mp mem with rfl | mem
      · exact quote quotes
      rcases List.mem_append.mp mem with inside | last
      · have colon := (Bool.and_eq_true_iff.mp (List.all_eq_true.mp plain char inside)).2
        exact ⟨bne_iff_ne.mp colon, by simpa using List.all_eq_true.mp unbroken char inside⟩
      · rw [List.mem_singleton.mp last]
        exact quote quotes

theorem exists_first (selector : Selector text) :
    ∃ first rest, text = first :: rest ∧ Text.isBlank first = false ∧ first ≠ '=' := by
  cases selector with
  | word word =>
      obtain ⟨first, rest, rfl⟩ := List.exists_cons_of_ne_nil word.filled
      have letter := word.letters first List.mem_cons_self
      refine ⟨first, rest, rfl, Text.isBlank_of_isWordChar letter, ?_⟩
      rintro rfl
      exact absurd letter (by decide)
  | quoted quotes _ _ =>
      refine ⟨_, _, rfl, isBlank_of_isQuote quotes, ?_⟩
      rintro rfl
      exact absurd quotes (by decide)

theorem body?_eq_none (selector : Selector text) : Format.body? text = none := by
  cases selector with
  | word word =>
      exact Expr.body?_of_quoteless fun char mem =>
        Expr.isQuote_of_isWordChar (word.letters char mem)
  | quoted quotes _ _ => rcases Expr.eq_of_isQuote quotes with rfl | rfl <;> rfl

end Selector

/-- The line of an arm with the values `choices`. -/
def armText (choices : List Text) (result : Text) : Text :=
  "case ".toList ++ (join " or ".toList choices ++ (": ".toList ++ result))

theorem armText_eq (choices : List Text) (result : Text) : armText choices result =
    "case ".toList ++ (join " or ".toList choices ++ (": ".toList ++ result)) := rfl

theorem not_fits_clause {α : Type} {value : Pattern α} {keyword rest : Text} {first : Char}
    (letters : ∀ char ∈ keyword, Text.isWordChar char = true) (solid : Text.isBlank first = false)
    (other : first ≠ '=') :
    ¬(assignment .word value).Fits (keyword ++ ' ' :: first :: rest) := by
  rintro ⟨run, _, split, ⟨head, tail, rfl, started, all⟩, blanks, _, rfl, blank, behind, rfl, _⟩
  have spelled : ∀ char ∈ head :: tail, Text.isWordChar char = true :=
    List.forall_mem_cons.mpr ⟨started, all⟩
  have stops : (blanks ++ '=' :: behind).Stops Text.isWordChar := by
    cases blanks with
    | nil => rfl
    | cons head blanks =>
        exact Bool.eq_false_iff.mpr fun letter => by
          simpa [Text.isBlank_of_isWordChar letter] using blank head List.mem_cons_self
  have word : keyword = head :: tail := by
    have same := congrArg (List.takeWhile Text.isWordChar) split
    rw [Text.takeWhile_append_of_stops letters (by rfl)] at same
    exact same.trans (Text.takeWhile_append_of_stops spelled stops)
  rw [word, List.append_cancel_left_eq] at split
  rcases blanks with _ | ⟨space, _ | ⟨second, blanks⟩⟩
  · exact absurd (List.cons.inj split).1 (by decide)
  · exact other (List.cons.inj (List.cons.inj split).2).1
  · have visible := blank second (by simp)
    rw [← (List.cons.inj (List.cons.inj split).2).1, solid] at visible
    cases visible

theorem spells_of_isUnbroken (reach : Reach) {text : Text} (filled : text ≠ [])
    (unbroken : text.isUnbroken = true) :
    (Span.headed reach Text.isInline Text.isInline).Spells text := by
  have inline : ∀ char ∈ text, Text.isInline char = true := by
    intro char mem
    refine bne_iff_ne.mpr fun same => ?_
    exact Conversion.not_mem_of_isUnbroken unbroken (same ▸ mem)
  obtain ⟨first, rest, rfl⟩ := List.exists_cons_of_ne_nil filled
  exact ⟨first, rest, rfl, List.forall_mem_cons.mp inline⟩

section Line

variable {choices : List Text} {result : Text} (filled : choices ≠ [])
  (valid : ∀ choice ∈ choices, Selector choice)

include filled valid in
theorem exists_first_of_join :
    ∃ first rest, join " or ".toList choices = first :: rest ∧ Text.isBlank first = false ∧
      first ≠ '=' := by
  obtain ⟨choice, others, rfl⟩ := List.exists_cons_of_ne_nil filled
  obtain ⟨first, rest, rfl, solid, other⟩ := (valid choice List.mem_cons_self).exists_first
  cases others with
  | nil => exact ⟨first, rest, Text.join_singleton _ _, solid, other⟩
  | cons second others =>
      refine ⟨first, rest ++ (" or ".toList ++ join " or ".toList (second :: others)), ?_, solid,
        other⟩
      rw [Text.join_cons_cons, List.append_assoc, List.cons_append]

include valid in
theorem mem_join_selectors {char : Char} (mem : char ∈ join " or ".toList choices) :
    char ≠ ':' ∧ Text.isLineBreak char = false := by
  have separator : " or ".toList.all (fun char => char ≠ ':' ∧ Text.isLineBreak char = false) =
      true := by decide
  rcases Grammar.mem_join mem with mem | ⟨choice, given, mem⟩
  · exact of_decide_eq_true (List.all_eq_true.mp separator char mem)
  · exact (valid choice given).mem mem

include valid in
theorem isUnbroken_join : Text.isUnbroken (join " or ".toList choices) = true :=
  List.all_eq_true.mpr fun char mem => by simp [(mem_join_selectors valid mem).2]

variable (given : result ≠ []) (stripped : result.strip = result)
  (unbroken : result.isUnbroken = true)
include filled valid given stripped unbroken

theorem read?_armText :
    read? (armText choices result) = some (.arm (join " or ".toList choices) result) := by
  obtain ⟨first, rest, split, solid, other⟩ := exists_first_of_join filled valid
  have values : (Span.headed .shortest Text.isInline Text.isInline).Spells
      (join " or ".toList choices) :=
    spells_of_isUnbroken _ (split ▸ List.cons_ne_nil _ _) (isUnbroken_join valid)
  have stops (back : Text) : (join " or ".toList choices ++ back).Stops Text.isBlank := by
    rw [split]
    exact solid
  have ends : Text.Stops Text.isBlank result := by
    obtain ⟨head, tail, rfl⟩ := List.exists_cons_of_ne_nil given
    refine Bool.eq_false_iff.mpr fun blank => ?_
    exact Text.head?_strip_ne blank (congrArg List.head? stripped)
  have here : armForm (armText choices result) =
      some (.arm (join " or ".toList choices) result) := by
    refine form_of_reads (_, _, ()) (.fixed rfl (.gap (stops _) (.upTo rfl values ?_ ?_)))
    · exact fun colon => (mem_join_selectors valid colon).1 rfl
    · exact .fixed rfl (.blank ends (.toEnd rfl (spells_of_isUnbroken _ given unbroken)))
  have misfit {α : Type} (value : Pattern α) :
      ¬(assignment .word value).Fits (armText choices result) := by
    rw [armText_eq, split]
    exact not_fits_clause (List.all_eq_true.mp (by decide : "case".toList.all _ = true)) solid other
  have starts : Grammar.Starts (some .caseWord) (armText choices result) := .keyword rfl
  have remain : (Grammar.candidates (some .caseWord) []).map Grammar.Reader.read =
      [arrowForm, closureForm, matchAssignForm, armForm, inputForm, choiceForm, constantForm,
        assignForm, headerForm "case".toList .label, callForm] := rfl
  have arrow : arrowForm (armText choices result) = none := form_of_not_fits (misfit _)
  have closure : closureForm (armText choices result) = none := form_of_not_fits (misfit _)
  have started : matchAssignForm (armText choices result) = none := form_of_not_fits (misfit _)
  rw [@Grammar.read?_eq_candidates _ _ [] starts (by simp), remain, List.findSome?_cons, arrow,
    List.findSome?_cons, closure, List.findSome?_cons, started, List.findSome?_cons, here]

omit filled in
theorem isBody_armText : (armText choices result).IsBody := by
  obtain ⟨front, last, rfl⟩ := (List.eq_nil_or_concat result).resolve_left given
  rw [List.concat_eq_append] at stripped unbroken ⊢
  have visible : Text.isBlank last = false := by
    refine Bool.eq_false_iff.mpr fun blank => ?_
    have ends := congrArg List.getLast? stripped
    exact Text.getLast?_strip_ne blank (ends.trans List.getLast?_concat)
  have shape : armText choices (front ++ [last]) =
      'c' :: (("ase ".toList ++ (join " or ".toList choices ++ (": ".toList ++ front))) ++
        [last]) := by
    simp only [armText_eq, List.append_assoc]
    rfl
  have values := isUnbroken_join valid
  rw [shape]
  refine Conversion.isBody_of_ends rfl visible (by decide) ?_
  simp only [Text.isUnbroken, List.all_append, Bool.and_eq_true] at values unbroken ⊢
  exact ⟨by decide, values, by decide, unbroken.1⟩

end Line

end Statement

namespace Conversion

open Statement

section Arm

variable {choices : List Text} {result outcome : Text} (filled : choices ≠ [])
  (valid : ∀ choice ∈ choices, Selector choice) (given : result ≠ [])
  (stripped : result.strip = result) (unbroken : result.isUnbroken = true)
include filled valid given stripped unbroken

theorem convertLine_armText_iff {state : State} {indent : Int} (nonneg : 0 ≤ indent)
    (isOpen : (state.dedent indent).collected.isOpen = true)
    (written : Expr.expand state.names result = .ok outcome) {values : List Text} :
    convertLine (Text.indentation indent ++ armText choices result) state =
        .ok () { state.dedent indent with
          collected := (state.dedent indent).collected.add [⟨values, outcome⟩] } ↔
      (choices.flatMap armValues).mapM (Expr.expand state.names) = .ok values := by
  rw [convertLine_of_isBody nonneg (isBody_armText valid given stripped unbroken),
    convertBody_of_applies (read?_armText filled valid given stripped unbroken) isOpen]
  rw [← State.dedent_names indent state] at written ⊢
  generalize state.dedent indent = reached at written ⊢
  simp only [perform, addArm, bind_eq_ok, mapM_expand_eq_ok, expand_eq_ok, modify_eq_ok, stripped,
    armValues_join filled]
  constructor
  · rintro ⟨actual, _, ⟨each, rfl⟩, text, _, ⟨expanded, rfl⟩, same⟩
    have arms := congrArg (fun after : State => after.collected.arms) same
    obtain ⟨rfl, _⟩ : actual = values ∧ text = outcome := by
      simpa [Match.add] using arms
    exact each
  · intro each
    exact ⟨values, _, ⟨each, rfl⟩, outcome, _, ⟨written, rfl⟩, rfl⟩

/-- Where a match is open, the line of an arm records the values that are given, each of them
expanded, exactly if neither `or` nor `and` occurs inside of one of them. -/
theorem selectors_recorded_iff (state : State) {indent : Int} (nonneg : 0 ≤ indent)
    (isOpen : (state.dedent indent).collected.isOpen = true)
    (written : Expr.expand state.names result = .ok outcome) :
    ∃ values, choices.mapM (Expr.expand state.names) = .ok values ∧
      (convertLine (Text.indentation indent ++ armText choices result) state =
          .ok () { state.dedent indent with
            collected := (state.dedent indent).collected.add [⟨values, outcome⟩] } ↔
        ∀ choice ∈ choices, Whole choice) := by
  obtain ⟨values, each⟩ := Except.exists_mapM fun choice mem =>
    Expr.exists_expand (valid choice mem).body?_eq_none state.names
  refine ⟨values, each, ?_⟩
  rw [convertLine_armText_iff filled valid given stripped unbroken nonneg isOpen written]
  constructor
  · -- Both lists of values are as long as the texts that they are expanded from.
    intro divided
    have lengths := congrArg List.length (Except.mapM_eq_ok_iff.mp each)
    have others := congrArg List.length (Except.mapM_eq_ok_iff.mp divided)
    rw [List.length_map, List.length_map] at lengths others
    exact whole_of_length_flatMap (others.trans lengths.symm)
  · intro whole
    have single : choices.flatMap armValues = choices := by
      refine (List.flatMap_congr fun choice mem => ?_).trans (List.flatMap_singleton' choices)
      exact armValues_of_whole (whole choice mem) (valid choice mem).stripped
    rw [single, each]

end Arm

/-- A state in which a match without arms is open. -/
def matching : State :=
  { State.initial with collected := ⟨some "x".toList, some .assigned, some "v".toList, []⟩ }

/-- Two quotations and a word, none of which has a separator in it. -/
def colours : List Text :=
  ["\"red\"".toList, "'dark blue'".toList, "teal".toList]

theorem selectors_recorded_iff_colours :
    convertLine (Text.indentation 4 ++ armText colours "f(1)".toList) matching =
      .ok () { matching.dedent 4 with
        collected := (matching.dedent 4).collected.add [⟨colours, "f(1)".toList⟩] } := by
  have valid : ∀ choice ∈ colours, Selector choice := by
    have red := @Selector.quoted '"' "red".toList rfl rfl rfl
    have blue := @Selector.quoted '\'' "dark blue".toList rfl rfl rfl
    have teal : Selector "teal".toList := .word (by decide)
    exact List.forall_mem_cons.mpr ⟨red, List.forall_mem_cons.mpr ⟨blue,
      List.forall_mem_singleton.mpr teal⟩⟩
  obtain ⟨values, each, recorded⟩ := selectors_recorded_iff (by decide : colours ≠ []) valid
    (by decide : "f(1)".toList ≠ []) (by decide) (by decide) matching (by decide : (0 : Int) ≤ 4)
    (by decide) (by decide +kernel : Expr.expand matching.names "f(1)".toList = .ok "f(1)".toList)
  obtain rfl : colours = values := by
    have same : colours.mapM (Expr.expand matching.names) = .ok colours := by decide +kernel
    exact Except.ok.inj (same.symm.trans each)
  exact recorded.mpr (by decide)

/-- A quotation that ends with the letters of a separator is divided, and both of its parts are
recorded. -/
theorem not_recorded_divided :
    ["\"red\"".toList, "\"color\"".toList].mapM (Expr.expand (Names.empty.declare ['v'])) =
        .ok ["\"red\"".toList, "\"color\"".toList] ∧
      ∃ after, convertLines ["v = match x:".toList,
          "    case \"red\" or \"color\": 1".toList] State.initial = .ok () after ∧
        after.collected.arms =
          [⟨["\"red\"".toList, "\"col".toList, "\"".toList], "1".toList⟩] := by
  obtain ⟨_, after, done, arms⟩ := passes_iff.mp
    (by decide +kernel : (convertLines ["v = match x:".toList,
      "    case \"red\" or \"color\": 1".toList]).passes (fun _ after => after.collected.arms ==
        [⟨["\"red\"".toList, "\"col".toList, "\"".toList], "1".toList⟩]) State.initial = true)
  exact ⟨by decide +kernel, after, done, beq_iff_eq.mp arms⟩

end Conversion

end Ephp
