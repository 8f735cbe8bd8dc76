import Ephp.Proofs.Escapes
import Ephp.Proofs.Fixtures
import Ephp.Proofs.Quotation

/-!
# What stands behind a format text

An expression that starts like a format text is taken for one up to its end.  If something follows
the closing quote, the quote is an ordinary character of the body, the text behind it is part of the
body as well, and the last character of the expression is dropped in the place of the quote.
-/

namespace Ephp

namespace Text

/-- A substitution that writes two characters at least leaves two of a text that has them. -/
theorem two_le_length_substitute {rule : Text → Option (Text × Text)}
    (long : ∀ text written behind, rule text = some (written, behind) → 2 ≤ written.length)
    {text : Text} (size : 2 ≤ text.length) : 2 ≤ (substitute rule text).length := by
  have first (char : Char) (rest : Text) : 1 ≤ (substitute rule (char :: rest)).length := by
    rcases substitute_cons rule char rest with ⟨written, _, more, applied, same⟩ | same
    · have enough := long _ _ _ applied
      rw [same, List.length_append]
      omega
    · simp [same]
  cases text with
  | nil => cases size
  | cons char rest =>
      cases rest with
      | nil => exact absurd size (by simp)
      | cons second rest =>
          rcases substitute_cons rule char (second :: rest) with
            ⟨written, _, more, applied, same⟩ | same
          · have enough := long _ _ _ applied
            rw [same, List.length_append]
            omega
          · have behind := first second rest
            rw [same, List.length_cons]
            omega

theorem replace_ne_nil {old new text : Text} (filled : old ≠ []) (written : new ≠ [])
    (given : text ≠ []) : replace old new text ≠ [] := by
  induction text using replace_induct filled with
  | nil => exact absurd rfl given
  | occurrence rest ih =>
      rw [replace_occurrence filled]
      exact List.append_ne_nil_of_left_ne_nil written _
  | copied char rest absent ih =>
      rw [replace_cons absent]
      exact List.cons_ne_nil _ _

end Text

namespace Format

open Segment

/-- Text without an opening brace starts the first literal, and the placeholders are those of the
text behind it. -/
theorem segmentsFrom_append {front rest : Text} (filled : front ≠ []) (unopened : '{' ∉ front) :
    ∃ more others, segmentsFrom false (front ++ rest) = literal (front ++ more) :: others ∧
      ∀ inner, placeholder inner ∈ others → placeholder inner ∈ segmentsFrom false rest := by
  induction front with
  | nil => exact absurd rfl filled
  | cons char front ih =>
      obtain ⟨other, unopened⟩ := not_or.mp (mt List.mem_cons.mpr unopened)
      rw [List.cons_append, segmentsFrom, if_neg (Ne.symm other)]
      cases front with
      | cons second front =>
          obtain ⟨more, others, split, inside⟩ := ih (List.cons_ne_nil _ _) unopened
          rw [split]
          exact ⟨more, others, rfl, inside⟩
      | nil =>
          rw [List.nil_append]
          cases behind : segmentsFrom false rest with
          | nil => exact ⟨[], [], rfl, fun _ mem => mem⟩
          | cons segment others =>
              cases segment with
              | literal text =>
                  exact ⟨text, others, rfl, fun _ mem => List.mem_cons_of_mem _ mem⟩
              | placeholder text => exact ⟨[], placeholder text :: others, rfl, fun _ mem => mem⟩

theorem segments_of_unopened {text : Text} (filled : text ≠ []) (unopened : '{' ∉ text) :
    segments text = [literal text] := by
  have read := segmentsFrom_literal filled unopened (fun _ mem => nomatch mem : ∀ next ∈
    (segmentsFrom false []).head?, next.isLiteral = false)
  rwa [List.append_nil] at read

theorem escapeQuotes_of_unquoted {text : Text} (unquoted : '"' ∉ text) :
    escapeQuotes text = text := by
  induction text with
  | nil => rfl
  | cons char text ih =>
      obtain ⟨other, unquoted⟩ := not_or.mp (mt List.mem_cons.mpr unquoted)
      rw [escapeQuotes_cons (Ne.symm other), ih unquoted]

theorem quote_eq (text : Text) : quote text = Text.enquote (escapeQuotes text) := rfl

end Format

namespace Expr

open Format
open Text (enquote isFixture)

variable {names : Names} {body tail : Text}

/-! ## The body of a format text with a tail -/

theorem two_le_length_convertCalls {text : Text} (size : 2 ≤ text.length) :
    2 ≤ (convertCalls text).length := by
  have split : 2 ≤ (convertSplit text).length := by
    refine Text.two_le_length_substitute (fun _ written _ applied => ?_) size
    obtain ⟨_, _, _, _, _, _, rfl⟩ := exists_of_rule_methodCall applied
    simp
  have strip : 2 ≤ (convertStrip (convertSplit text)).length := by
    refine Text.two_le_length_substitute (fun _ written _ applied => ?_) split
    obtain ⟨_, _, _, _, rfl⟩ := exists_of_rule_bareMethodCall applied
    simp
  have append : 2 ≤ (convertAppend (convertStrip (convertSplit text))).length := by
    refine Text.two_le_length_substitute (fun _ written _ applied => ?_) strip
    obtain ⟨_, _, _, _, _, _, rfl⟩ := exists_of_rule_methodCall applied
    simp
    omega
  have renamed {spellings : List (Text × Text)} (long : ∀ pair ∈ spellings, 2 ≤ pair.2.length)
      {text : Text} (size : 2 ≤ text.length) : 2 ≤ (respell spellings text).length := by
    induction spellings generalizing text with
    | nil => exact size
    | cons pair spellings ih =>
        obtain ⟨enough, long⟩ := List.forall_mem_cons.mp long
        refine ih long (Text.two_le_length_substitute (fun _ written _ applied => ?_) size)
        simp only [Option.map_eq_some_iff, Prod.mk.injEq] at applied
        obtain ⟨_, _, rfl, _⟩ := applied
        exact enough
  exact renamed (by decide) append

theorem two_le_length_append (filled : body ≠ []) (tail : Text) :
    2 ≤ (convertCalls (body ++ '"' :: tail)).length := by
  have given := List.length_pos_iff.mpr filled
  apply two_le_length_convertCalls
  rw [List.length_append, List.length_cons]
  omega

/-- The start of a format text is part of no call. -/
theorem convertCalls_format (text : Text) :
    convertCalls ('f' :: '"' :: text) = 'f' :: '"' :: convertCalls text := by
  have idle {α : Type} {next : Pattern α} {method : Text} {write : Text × α → Text} (text : Text) :
      (Pattern.keep .word (.fixed ('.' :: method) next)).replace write ('f' :: '"' :: text) =
        'f' :: '"' :: (Pattern.keep .word (.fixed ('.' :: method) next)).replace write text := by
    have copied := @replace_cons_of_other '"' rfl α (.fixed ('.' :: method) next) write text
    rw [← copied]
    apply Text.substitute_of_eq_none
    rw [Pattern.rule, Option.map_eq_none_iff, ← Option.not_isSome_iff_eq_none,
      Pattern.isSome_match?_iff]
    rintro ⟨_, _, split, ⟨first, others, rfl, _, all⟩, rest, rfl, _⟩
    cases others with
    | nil => exact absurd (List.cons.inj (List.cons.inj split).2).1 (by decide)
    | cons second others =>
        obtain ⟨rfl, _⟩ := List.cons.inj (List.cons.inj split).2
        exact absurd (all '"' List.mem_cons_self) (by decide)
  have split : convertSplit ('f' :: '"' :: text) = 'f' :: '"' :: convertSplit text := idle text
  have strip (text : Text) : convertStrip ('f' :: '"' :: text) = 'f' :: '"' :: convertStrip text :=
    idle text
  have append (text : Text) :
      convertAppend ('f' :: '"' :: text) = 'f' :: '"' :: convertAppend text := idle text
  have renamed (text : Text) : respell builtins ('f' :: '"' :: text) =
      respell builtins ['f'] ++ '"' :: respell builtins text :=
    respell_append_cons (by decide) ['f'] text
  have letter : respell builtins ['f'] = ['f'] := by decide
  rw [convertCalls, split, strip, append, renamed, letter, convertCalls]
  rfl

theorem enquote_append (body tail : Text) :
    enquote body ++ tail = '"' :: (body ++ '"' :: tail) := by
  simp [enquote]

/-- The quote behind the body stays in front of the fixtures of the tail. -/
theorem exists_of_convertCalls (body tail : Text) :
    ∃ front back, convertCalls (body ++ '"' :: tail) = front ++ '"' :: back ∧
      (∀ char ∈ front, isFixture char = true → char ∈ body) ∧
        ∀ char ∈ back, isFixture char = true → char ∈ tail := by
  have kept := filter_convertCalls (body ++ '"' :: tail)
  rw [List.filter_append, List.filter_eq_append_iff] at kept
  obtain ⟨front, rest, whole, before, behind⟩ := kept
  rw [List.filter_cons_of_pos (by decide), List.filter_eq_cons_iff] at behind
  obtain ⟨between, back, rfl, volatile, _, after⟩ := behind
  refine ⟨front ++ between, back, by simp [whole], fun char mem fixture => ?_,
    fun char mem fixture => ?_⟩
  · rcases List.mem_append.mp mem with mem | mem
    · exact List.mem_of_mem_filter (before ▸ List.mem_filter.mpr ⟨mem, fixture⟩)
    · exact absurd fixture (volatile char mem)
  · exact List.mem_of_mem_filter (after ▸ List.mem_filter.mpr ⟨mem, fixture⟩)

/-- A body without braces and quotes is written as it stands. -/
theorem expandFormat_enquote (filled : body ≠ []) (unopened : '{' ∉ body) (unquoted : '"' ∉ body) :
    expandFormat names ('f' :: enquote body) = .ok (enquote body) := by
  have found : body? ('f' :: enquote body) = some body := by
    simp [enquote, body?]
  rw [expandFormat, found]
  simp only [segments_of_unopened filled unopened, List.mapM_cons, List.mapM_nil, expandSegment,
    quote_eq, escapeQuotes_of_unquoted unquoted]
  exact congrArg Except.ok (Text.join_singleton _ _)

/-- A format text with a tail is expanded by its segments, as far as the last character. -/
theorem expand_format (names : Names) (text : Text) :
    expand names ('f' :: '"' :: text) =
      (segments (convertCalls text).dropLast).mapM (expandSegment names) >>= joinSegments := by
  rw [expand_eq, convertCalls_format, body?, Option.isSome_some, if_pos rfl, expandFormat, body?]

theorem expand_format_of_unopened {text : Text} (filled : (convertCalls text).dropLast ≠ [])
    (unopened : '{' ∉ (convertCalls text).dropLast) :
    expand names ('f' :: '"' :: text) = .ok (quote (convertCalls text).dropLast) := by
  rw [expand_format, segments_of_unopened filled unopened]
  exact congrArg Except.ok (Text.join_singleton _ _)

theorem convertCalls_enquote_iff :
    convertCalls (enquote body) = enquote body ↔
      Callless body ∧ ∀ pair ∈ builtins, ¬List.IsInfix pair.1 body := by
  have words : ∀ pair ∈ builtins, pair.1 ≠ [] ∧ pair.1.head? ≠ some '"' ∧
      pair.1.getLast? ≠ some '"' := by decide
  have stands (pair : Text × Text) (mem : pair ∈ builtins) :=
    @Text.isInfix_enquote_iff body pair.1 (words pair mem).1 (words pair mem).2.1
      (words pair mem).2.2
  rw [convertCalls_eq_self_iff]
  refine and_congr ?_ (forall₂_congr fun pair mem => not_congr (stands pair mem))
  constructor
  · rintro ⟨split, strip, append⟩
    rw [calls_enquote_iff] at split strip append
    exact ⟨split, strip, append⟩
  · rintro ⟨split, strip, append⟩
    rw [← @calls_enquote_iff body] at split strip append
    exact ⟨split, strip, append⟩

theorem respell_ne_nil {spellings : List (Text × Text)}
    (filled : ∀ pair ∈ spellings, pair.1 ≠ [] ∧ pair.2 ≠ []) {text : Text} (given : text ≠ []) :
    respell spellings text ≠ [] := by
  induction spellings generalizing text with
  | nil => exact given
  | cons pair spellings ih =>
      obtain ⟨⟨old, new⟩, filled⟩ := List.forall_mem_cons.mp filled
      exact ih filled (Text.replace_ne_nil old new given)

theorem markVariables_ne_nil {text : Text} (given : text ≠ []) : markVariables names text ≠ [] := by
  intro empty
  apply given
  rw [← List.flatten_splitBy (fun left right => Text.isWordChar left == Text.isWordChar right) text]
  refine List.flatten_eq_nil_iff.mpr fun run mem => ?_
  have written := List.flatMap_eq_nil_iff.mp empty run mem
  rw [markRun] at written
  split at written
  · cases written
  · exact written

/-- Only the empty text is expanded to nothing. -/
theorem expandPlain_ne_nil {text : Text} (given : text ≠ []) : expandPlain names text ≠ [] := by
  intro empty
  have dots : Text.replace "..".toList ['.'] text ≠ [] :=
    Text.replace_ne_nil (by decide) (by decide) given
  apply dots
  rw [← flatMap_partsFrom none (Text.replace "..".toList ['.'] text)]
  refine List.flatMap_eq_nil_iff.mpr fun part mem => ?_
  have written := List.flatMap_eq_nil_iff.mp empty part mem
  cases part with
  | literal text => exact written
  | code text =>
      by_contra filled
      exact respell_ne_nil (by decide) (markVariables_ne_nil filled) written

theorem exists_join_cons {first : Text} {others : List Text} :
    ∃ more, Text.join " . ".toList (first :: others) = first ++ more := by
  cases others with
  | nil => exact ⟨[], by simp⟩
  | cons second others => exact ⟨_, by rw [Text.join_cons_cons, List.append_assoc]⟩

/-! ## Absorbing the tail -/

/-- A text without quotes, braces and backslashes. -/
def isSmooth (text : Text) : Bool :=
  text.all fun char => !"\"'\x7b\x7d\\".toList.contains char

theorem not_mem_of_isSmooth (smooth : isSmooth body = true) {char : Char}
    (mark : "\"'\x7b\x7d\\".toList.contains char = true) : char ∉ body := by
  intro mem
  have other := List.all_eq_true.mp smooth char mem
  rw [mark] at other
  cases other

section Tail

variable (filled : body ≠ []) (smooth : isSmooth body = true)
  (quoteless : ∀ char ∈ tail, isQuote char = false)
include filled smooth quoteless

/-- The first literal ends with the expression, or it goes on behind the quote. -/
theorem exists_expand_format (names : Names) :
    ∃ written, expand names ('f' :: (enquote body ++ tail)) = .ok written ∧
      ((∃ front, convertCalls (body ++ '"' :: tail) = front ++ ['"'] ∧ '"' ∉ front ∧
        written = enquote front) ∨
      ∃ front rest, '"' ∉ front ∧ written = '"' :: (front ++ '\\' :: '"' :: rest)) := by
  obtain ⟨front, back, split, before, behind⟩ := exists_of_convertCalls body tail
  have absent {char : Char} (mark : "\"'\x7b\x7d\\".toList.contains char = true)
      (fixture : isFixture char = true) : char ∉ front := fun mem =>
    not_mem_of_isSmooth smooth mark (before char mem fixture)
  have unquoted : '"' ∉ front := absent rfl rfl
  have unopened : '{' ∉ front := absent rfl rfl
  rw [enquote_append]
  cases back with
  | nil =>
      have given : front ≠ [] := by
        have size := two_le_length_append filled tail
        rw [split, List.length_append] at size
        rintro rfl
        exact absurd size (by decide)
      have cut : (convertCalls (body ++ '"' :: tail)).dropLast = front := by
        rw [split, List.dropLast_concat]
      refine ⟨enquote front, ?_, .inl ⟨front, split, unquoted, rfl⟩⟩
      rw [expand_format_of_unopened (by rwa [cut]) (by rwa [cut]), cut, quote_eq,
        escapeQuotes_of_unquoted unquoted]
  | cons second back =>
      have cut : (convertCalls (body ++ '"' :: tail)).dropLast =
          (front ++ ['"']) ++ (second :: back).dropLast := by
        rw [split]
        simp
      obtain ⟨more, others, read, inside⟩ := @segmentsFrom_append (front ++ ['"'])
        (second :: back).dropLast (by simp) (by simpa using unopened)
      have plain (char : Char) (mem : char ∈ second :: back) : isQuote char = false := by
        refine Bool.eq_false_iff.mpr fun quoted => ?_
        have fixture : isFixture char = true := by
          rcases eq_of_isQuote quoted with rfl | rfl <;> rfl
        rw [quoteless char (behind char mem fixture)] at quoted
        cases quoted
      -- No placeholder is a format text, as there are no quotes behind the one that was passed.
      obtain ⟨texts, each⟩ : ∃ texts, others.mapM (expandSegment names) = .ok texts := by
        refine Except.exists_mapM fun segment mem => ?_
        cases segment with
        | literal text => exact ⟨_, rfl⟩
        | placeholder inner =>
            refine exists_expand (body?_of_quoteless fun char mem_inner => plain char ?_) names
            have stripped := (Text.strip_isInfix inner).subset mem_inner
            exact List.dropLast_subset _ (subset_of_mem_segments (inside inner mem) stripped)
      obtain ⟨rest, joined⟩ := @exists_join_cons (quote (front ++ ['"'] ++ more)) texts
      refine ⟨quote (front ++ ['"'] ++ more) ++ rest, ?_,
        .inr ⟨front, escapeQuotes more ++ '"' :: rest, unquoted, ?_⟩⟩
      · rw [expand_format, cut, segments, read, List.mapM_cons, each, ← joined]
        rfl
      · rw [quote_eq, List.append_assoc, escapeQuotes_append, escapeQuotes_of_unquoted unquoted,
          List.singleton_append, escapeQuotes_quote]
        simp [enquote]

include filled smooth in
omit quoteless in
theorem expand_format_of_not_mem (names : Names) (unopened : '{' ∉ tail) :
    expand names ('f' :: (enquote body ++ tail)) =
      .ok (quote (convertCalls (body ++ '"' :: tail)).dropLast) := by
  have absent : '{' ∉ convertCalls (body ++ '"' :: tail) := by
    intro mem
    have kept : '{' ∈ (body ++ '"' :: tail).filter isFixture := by
      rw [← filter_convertCalls]
      exact List.mem_filter.mpr ⟨mem, rfl⟩
    rcases List.mem_append.mp (List.mem_of_mem_filter kept) with mem | mem
    · exact not_mem_of_isSmooth smooth rfl mem
    · rcases List.mem_cons.mp mem with same | mem
      · cases same
      · exact unopened mem
  rw [enquote_append]
  apply expand_format_of_unopened
  · intro empty
    have size := two_le_length_append filled tail
    have short := congrArg List.length empty
    rw [List.length_dropLast] at short
    simp at short
    omega
  · exact fun mem => absent (List.dropLast_subset _ mem)

/-- What follows a format text is part of it.  It is kept behind the format text exactly if there
is nothing, and no call is converted inside of the format text.  Unless a placeholder is opened in
it, it stands in the literal up to its last character, which is dropped. -/
theorem format_absorbs_tail (names : Names) (spaced : ∀ first ∈ tail.head?, first = ' ') :
    ∃ written behind, expand names ('f' :: (enquote body ++ tail)) = .ok written ∧
      expandFormat names ('f' :: enquote body) = .ok (enquote body) ∧
      expand names tail = .ok behind ∧
      (written = enquote body ++ behind ↔
        tail = [] ∧ Callless body ∧ ∀ pair ∈ builtins, ¬List.IsInfix pair.1 body) ∧
      ('{' ∉ tail → written = quote (convertCalls (body ++ '"' :: tail)).dropLast) := by
  have unquoted : '"' ∉ body := not_mem_of_isSmooth smooth rfl
  have alone : expandFormat names ('f' :: enquote body) = .ok (enquote body) :=
    expandFormat_enquote filled (not_mem_of_isSmooth smooth rfl) unquoted
  obtain ⟨written, expanded, ends⟩ := exists_expand_format filled smooth quoteless names
  have after : expand names tail = .ok (expandPlain names (convertCalls tail)) := by
    rw [expand_eq, body?_convertCalls (body?_of_quoteless quoteless)]
    rfl
  refine ⟨written, _, expanded, alone, after, ?_, fun unopened => ?_⟩
  · rw [← convertCalls_enquote_iff]
    constructor
    · intro kept
      rcases ends with ⟨front, split, free, rfl⟩ | ⟨front, rest, free, rfl⟩
      · obtain ⟨rfl, nothing⟩ := Text.eq_of_first free unquoted
          (by simpa [enquote] using kept : front ++ '"' :: [] = body ++ '"' :: _)
        have empty : tail = [] := by
          cases tail with
          | nil => rfl
          | cons first rest =>
              obtain rfl := spaced first rfl
              rw [convertCalls_cons (by decide)] at nothing
              exact absurd nothing.symm (expandPlain_ne_nil (List.cons_ne_nil _ _))
        refine ⟨empty, ?_⟩
        rw [empty] at split
        rw [enquote, convertCalls_cons (by decide), split]
      · -- The quote that is passed gets a backslash in front, and the body has none.
        have same : (front ++ ['\\']) ++ '"' :: rest =
            body ++ '"' :: expandPlain names (convertCalls tail) := by
          simpa [enquote] using kept
        have slashed := (Text.eq_of_first (by simp [free]) unquoted same).1
        exact absurd (slashed ▸ by simp) (not_mem_of_isSmooth smooth (rfl :
          "\"'\x7b\x7d\\".toList.contains '\\' = true))
    · rintro ⟨rfl, same⟩
      rw [enquote, convertCalls_cons (by decide)] at same
      rw [expand_format_of_not_mem filled smooth names List.not_mem_nil, (List.cons.inj same).2,
        List.dropLast_concat, quote_eq, escapeQuotes_of_unquoted unquoted] at expanded
      have nothing : expandPlain names (convertCalls []) = [] := rfl
      rw [nothing, List.append_nil, Except.ok.inj expanded]
  · rw [expand_format_of_not_mem filled smooth names unopened] at expanded
    exact (Except.ok.inj expanded).symm

end Tail

theorem format_absorbs_tail_spaced :
    expand ⟨[['n']], []⟩ "f\"sum: \" . n".toList = .ok "\"sum: \\\" . \"".toList ∧
      expand ⟨[['n']], []⟩ "f\"sum: \"".toList = .ok "\"sum: \"".toList := by
  have filled : "sum: ".toList ≠ [] := by decide
  have smooth : isSmooth "sum: ".toList = true := by decide
  constructor
  · have quoteless : ∀ char ∈ " . n".toList, isQuote char = false := by
      intro char mem
      simpa using List.all_eq_true.mp (rfl : " . n".toList.all (!isQuote ·) = true) char mem
    obtain ⟨written, _, expanded, _, _, _, absorbed⟩ := format_absorbs_tail filled smooth quoteless
      ⟨[['n']], []⟩ (fun first mem => (Option.some.inj mem).symm)
    have literal : written = "\"sum: \\\" . \"".toList :=
      (absorbed (by decide)).trans (by decide +kernel)
    exact expanded.trans (congrArg Except.ok literal)
  · have quoteless : ∀ char ∈ ([] : Text), isQuote char = false :=
      fun _ mem => absurd mem List.not_mem_nil
    obtain ⟨written, behind, expanded, _, nothing, kept, _⟩ := format_absorbs_tail filled smooth
      quoteless ⟨[['n']], []⟩ (by simp)
    have empty : expand ⟨[['n']], []⟩ [] = .ok [] := by decide +kernel
    obtain rfl := Except.ok.inj (empty.symm.trans nothing)
    have literal := kept.mpr ⟨rfl, callless_of_not_mem (by decide), by decide⟩
    exact expanded.trans (congrArg Except.ok literal)

/-- What follows the format text moves into the literal, and the last character is gone. -/
theorem not_kept_behind_format :
    expand .empty "f\"a\" b".toList = .ok "\"a\\\" \"".toList ∧
      expandFormat .empty "f\"a\"".toList = .ok "\"a\"".toList ∧
      expand .empty " b".toList = .ok " b".toList := by
  decide +kernel

end Expr

end Ephp
