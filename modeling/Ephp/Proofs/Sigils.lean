import Mathlib.Data.List.Infix
import Ephp.Proofs.Grammar
import Ephp.Proofs.Literals
import Ephp.Proofs.Rewriting

/-!
# Where sigils stand

A variable of an expression is an identifier between word boundaries, outside of all closed
literals, that is declared and not defined.  An expression without calls, doubled dots and keywords
is expanded by writing a sigil in front of each of its variables.  The expansion works on the runs
of the parts of the expression, but where a part starts or ends there is a quote or an end of the
expression, and so the parts have the word boundaries of the whole.
-/

namespace Ephp
namespace Expr

open Text (isWordChar)

/-- A word boundary: of the characters around a place, exactly one is a word character. -/
def IsBoundary (before after : Text) : Prop :=
  before.getLast?.any isWordChar ≠ after.head?.any isWordChar

/-- The text `word` is a variable where it stands between `before` and `after`. -/
structure IsVariable (names : Names) (before word after : Text) : Prop where
  identifier : word.isIdentifier = true
  starts : IsBoundary before (word ++ after)
  ends : IsBoundary (before ++ word) after
  outside : Outside before (word ++ after)
  declared : word ∈ names.declared
  undefined : word ∉ names.defined

/-- A variable starts at the place between two parts of an expression. -/
def VariableAt (names : Names) (before after : Text) : Prop :=
  ∃ word rest, after = word ++ rest ∧ IsVariable names before word rest

/-- Between `before` and `after`, a text is written with a sigil in front of each variable. -/
inductive Sigiled (names : Names) (after : Text) : Text → Text → Text → Prop where
  | nil {before : Text} : Sigiled names after before [] []
  | marked {before text written : Text} {char : Char}
      (starts : VariableAt names before (char :: text ++ after))
      (rest : Sigiled names after (before ++ [char]) text written) :
      Sigiled names after before (char :: text) ('$' :: char :: written)
  | copied {before text written : Text} {char : Char}
      (other : ¬VariableAt names before (char :: text ++ after))
      (rest : Sigiled names after (before ++ [char]) text written) :
      Sigiled names after before (char :: text) (char :: written)

/-! ## Variables and runs of word characters -/

section Variables

variable {names : Names} {before after : Text}

theorem isWordChar_of_isIdentifier {word : Text} (identifier : word.isIdentifier = true) :
    word ≠ [] ∧ ∀ char ∈ word, isWordChar char = true := by
  cases word with
  | nil => simp [Text.isIdentifier] at identifier
  | cons first rest =>
      rw [Text.isIdentifier, Bool.and_eq_true, List.all_eq_true] at identifier
      have spelled : Grammar.IsIdentifier (first :: rest) :=
        .of_spells ⟨first, rest, rfl, identifier.1, identifier.2⟩
      exact ⟨List.cons_ne_nil _ _, spelled.wordOrNothing⟩

theorem any_getLast?_append {word : Text} (filled : word ≠ [])
    (letters : ∀ char ∈ word, isWordChar char = true) :
    (before ++ word).getLast?.any isWordChar = true := by
  obtain ⟨front, last, rfl⟩ := (List.eq_nil_or_concat word).resolve_left filled
  simp [letters last (by simp)]

theorem stops_iff {text : Text} : text.Stops isWordChar ↔ text.head?.any isWordChar = false := by
  cases text <;> simp [Text.Stops]

theorem stops_dropWhile (admits : Char → Bool) (text : Text) :
    Text.Stops admits (text.dropWhile admits) := by
  induction text with
  | nil => trivial
  | cons char text ih =>
      rw [List.dropWhile_cons]
      split
      · exact ih
      · rename_i refused
        simpa [Text.Stops] using refused

/-- A variable is a run of word characters that is as long as it can be. -/
theorem variableAt_iff :
    VariableAt names before after ↔
      before.getLast?.any isWordChar = false ∧
        names.takesSigil (after.takeWhile isWordChar) = true ∧ Outside before after := by
  constructor
  · rintro ⟨word, rest, rfl, found⟩
    obtain ⟨filled, letters⟩ := isWordChar_of_isIdentifier found.identifier
    have starts := found.starts
    have ends := found.ends
    rw [IsBoundary, any_getLast?_append filled letters, ne_comm, ne_eq, Bool.not_eq_true,
      ← stops_iff] at ends
    refine ⟨?_, ?_, found.outside⟩
    · obtain ⟨first, others, rfl⟩ := List.exists_cons_of_ne_nil filled
      simpa [IsBoundary, letters first (by simp)] using starts
    · rw [Text.takeWhile_append_of_stops letters ends]
      simp [Names.takesSigil, found.identifier, found.declared, found.undefined]
  · rintro ⟨starts, sigil, outside⟩
    have whole := List.takeWhile_append_dropWhile (p := isWordChar) (l := after)
    simp only [Names.takesSigil, Bool.and_eq_true, List.contains_iff_mem, Bool.not_eq_true',
      ← Bool.not_eq_true] at sigil
    obtain ⟨⟨identifier, declared⟩, undefined⟩ := sigil
    obtain ⟨filled, letters⟩ := isWordChar_of_isIdentifier identifier
    refine ⟨after.takeWhile isWordChar, after.dropWhile isWordChar, whole.symm, identifier, ?_, ?_,
      whole.symm ▸ outside, declared, undefined⟩
    · obtain ⟨first, others, split⟩ := List.exists_cons_of_ne_nil filled
      rw [IsBoundary, starts, split]
      simp [letters first (by simp [split])]
    · rw [IsBoundary, any_getLast?_append filled letters, ne_comm, ne_eq, Bool.not_eq_true,
        ← stops_iff]
      exact stops_dropWhile isWordChar after

theorem not_variableAt_of_word (word : before.getLast?.any isWordChar = true) :
    ¬VariableAt names before after := by
  rw [variableAt_iff]
  simp [word]

theorem not_variableAt_of_other {text : Text} {char : Char} (other : isWordChar char = false) :
    ¬VariableAt names before (char :: text) := by
  rw [variableAt_iff]
  simp [other, Names.takesSigil, Text.isIdentifier]

end Variables

/-! ## Sigils in a context -/

namespace Sigiled

variable {names : Names} {before text more after written : Text}

theorem append {written_more : Text} (front : Sigiled names (more ++ after) before text written)
    (back : Sigiled names after (before ++ text) more written_more) :
    Sigiled names after before (text ++ more) (written ++ written_more) := by
  induction front with
  | nil => simpa using back
  | marked starts rest ih => exact marked (by simpa using starts) (ih (by simpa using back))
  | copied other rest ih => exact copied (by simpa using other) (ih (by simpa using back))

/-- The part of the writing that belongs to a part of the text. -/
theorem exists_of_append (whole : Sigiled names after before (text ++ more) written) :
    ∃ above below, written = above ++ below ∧ Sigiled names (more ++ after) before text above ∧
      Sigiled names after (before ++ text) more below := by
  induction text generalizing before written with
  | nil => exact ⟨[], written, rfl, nil, by simpa using whole⟩
  | cons char text ih =>
      cases whole with
      | marked starts rest =>
          obtain ⟨above, below, rfl, front, back⟩ := ih rest
          exact ⟨'$' :: char :: above, below, rfl, marked (by simpa using starts) front,
            by simpa using back⟩
      | copied other rest =>
          obtain ⟨above, below, rfl, front, back⟩ := ih rest
          exact ⟨char :: above, below, rfl, copied (by simpa using other) front,
            by simpa using back⟩

theorem filter_eq (whole : Sigiled names after before text written) (plain : '$' ∉ text) :
    written.filter (· != '$') = text := by
  induction whole with
  | nil => rfl
  | marked starts rest ih =>
      obtain ⟨other, plain⟩ := not_or.mp (mt List.mem_cons.mpr plain)
      simp [Ne.symm other, ih plain]
  | copied _ rest ih =>
      obtain ⟨other, plain⟩ := not_or.mp (mt List.mem_cons.mpr plain)
      simp [Ne.symm other, ih plain]

/-- No variable starts in a text that stands between `before` and `after`. -/
def Barren (names : Names) (after before text : Text) : Prop :=
  ∀ front char back, text = front ++ char :: back →
    ¬VariableAt names (before ++ front) (char :: back ++ after)

theorem Barren.tail {char : Char} (barren : Barren names after before (char :: text)) :
    Barren names after (before ++ [char]) text := by
  intro front next back split
  simpa using barren (char :: front) next back (by simp [split])

theorem of_barren (barren : Barren names after before text) :
    Sigiled names after before text text := by
  induction text generalizing before with
  | nil => exact nil
  | cons char text ih =>
      exact copied (by simpa using barren [] char text rfl) (ih barren.tail)

theorem eq_of_barren (barren : Barren names after before text)
    (whole : Sigiled names after before text written) : written = text := by
  induction whole with
  | nil => rfl
  | marked starts rest ih => exact absurd starts (by simpa using barren [] _ _ rfl)
  | copied other rest ih => rw [ih barren.tail]

end Sigiled

/-! ## Runs -/

section Runs

variable {names : Names} {run rest : Text} {word : Bool}

/-- Induction along the runs of a text. -/
theorem runs_induct {motive : Text → Prop} (nil : motive [])
    (step : ∀ run rest word, run ≠ [] → (∀ char ∈ run, isWordChar char = word) →
      Text.Stops (fun char => isWordChar char == word) rest → motive rest → motive (run ++ rest))
    (text : Text) : motive text := by
  generalize size : text.length = length
  induction length using Nat.strongRecOn generalizing text with
  | _ length ih =>
      cases text with
      | nil => exact nil
      | cons first text =>
          have whole := List.takeWhile_append_dropWhile
            (p := fun char => isWordChar char == isWordChar first) (l := first :: text)
          have dropped := stops_dropWhile (fun char => isWordChar char == isWordChar first)
            (first :: text)
          rw [← whole]
          refine step _ _ (isWordChar first) (by simp) (fun char mem => ?_) dropped
            (ih _ ?_ _ rfl)
          · simpa using List.all_eq_true.mp List.all_takeWhile char mem
          · rw [← size, List.dropWhile_cons_of_pos (by simp), List.length_cons]
            exact Nat.lt_succ_of_le (List.dropWhile_sublist _).length_le

theorem runs_append (filled : run ≠ []) (alike : ∀ char ∈ run, isWordChar char = word)
    (stops : Text.Stops (fun char => isWordChar char == word) rest) :
    runs (run ++ rest) = run :: runs rest := by
  have single : runs run = [run] := by
    refine List.splitBy_of_isChain filled (List.Pairwise.isChain ?_)
    refine List.pairwise_of_forall_mem_list fun left left_mem right right_mem => ?_
    simp [alike left left_mem, alike right right_mem]
  have split : runs (run ++ rest) = runs run ++ runs rest := by
    refine List.splitBy_append fun last last_mem first first_mem => ?_
    have last_word := alike last (List.mem_of_getLast? last_mem)
    cases rest with
    | nil => simp at first_mem
    | cons head rest =>
        obtain rfl : head = first := by simpa using first_mem
        have other : (isWordChar head == word) = false := stops
        rw [last_word, Bool.beq_comm, other]
  rw [split, single, List.singleton_append]

theorem markVariables_append (filled : run ≠ []) (alike : ∀ char ∈ run, isWordChar char = word)
    (stops : Text.Stops (fun char => isWordChar char == word) rest) :
    markVariables names (run ++ rest) = markRun names run ++ markVariables names rest := by
  rw [markVariables, runs_append filled alike stops, List.flatMap_cons]
  rfl

theorem stops_of_word (stops : Text.Stops (fun char => isWordChar char == true) rest) :
    rest.Stops isWordChar := by
  cases rest with
  | nil => trivial
  | cons first rest => simpa [Text.Stops] using stops

/-- A whole run of word characters takes a sigil in front or none at all. -/
theorem sigiled_word {before after : Text} (filled : run ≠ [])
    (letters : ∀ char ∈ run, isWordChar char = true)
    (starts : before.getLast?.any isWordChar = false) (ends : after.Stops isWordChar)
    (outside : Outside before (run ++ after)) :
    Sigiled names after before run (markRun names run) := by
  have sigil : VariableAt names before (run ++ after) ↔ names.takesSigil run = true := by
    rw [variableAt_iff, Text.takeWhile_append_of_stops letters ends]
    simp [starts, outside]
  obtain ⟨first, others, rfl⟩ := List.exists_cons_of_ne_nil filled
  have copied : Sigiled names after (before ++ [first]) others others := by
    refine .of_barren fun front char back split => not_variableAt_of_word ?_
    rw [List.append_assoc, any_getLast?_append (by simp)]
    intro letter mem
    refine letters letter ?_
    rw [split]
    simp at mem ⊢
    tauto
  rw [markRun]
  split
  · rename_i marked
    exact .marked (sigil.mpr marked) copied
  · rename_i unmarked
    exact .copied (mt sigil.mp unmarked) copied

theorem markRun_of_other (others : ∀ char ∈ run, isWordChar char = false) :
    markRun names run = run := by
  rw [markRun, if_neg]
  intro sigil
  simp only [Names.takesSigil, Bool.and_eq_true] at sigil
  obtain ⟨filled, letters⟩ := isWordChar_of_isIdentifier sigil.1.1
  obtain ⟨first, rest, rfl⟩ := List.exists_cons_of_ne_nil filled
  simp [others first List.mem_cons_self] at letters

theorem sigiled_other {before after : Text} (others : ∀ char ∈ run, isWordChar char = false) :
    Sigiled names after before run (markRun names run) := by
  rw [markRun_of_other others]
  refine .of_barren fun front char back split => not_variableAt_of_other (others char ?_)
  simp [split]

/-- Code whose word boundaries are those of its context gets the sigils of the context. -/
theorem sigiled_markVariables {before text after : Text}
    (starts : before.getLast?.any isWordChar = false ∨ text.Stops isWordChar)
    (ends : after.Stops isWordChar)
    (outside : ∀ front back, text = front ++ back → Outside (before ++ front) (back ++ after)) :
    Sigiled names after before text (markVariables names text) := by
  induction text using runs_induct generalizing before with
  | nil => exact .nil
  | step run rest word filled alike stops ih =>
      rw [markVariables_append filled alike stops]
      have later : Sigiled names after (before ++ run) rest (markVariables names rest) := by
        refine ih ?_ fun front back split => ?_
        · cases word with
          | true => exact .inr (stops_of_word stops)
          | false =>
              obtain ⟨front, last, rfl⟩ := (List.eq_nil_or_concat run).resolve_left filled
              exact .inl (by simp [alike last (by simp)])
        · have place := outside (run ++ front) back (by simp [split])
          simpa using place
      refine .append ?_ later
      cases word with
      | false => exact sigiled_other alike
      | true =>
          refine sigiled_word filled alike (starts.resolve_right fun stopped => ?_) ?_ ?_
          · obtain ⟨first, others, rfl⟩ := List.exists_cons_of_ne_nil filled
            have refused : isWordChar first = false := stopped
            simp [alike first (by simp)] at refused
          · cases rest with
            | nil => exact ends
            | cons first rest => exact stops_of_word stops
          · simpa using outside [] (run ++ rest) rfl

end Runs

/-! ## Parts -/

/-- Write a part of an expression with the sigils of its variables. -/
def markPart (names : Names) : Part → Text
  | .literal text => text
  | .code text => markVariables names text

section Parts

variable {names : Names}

theorem flatMap_ofCode {write : Part → Text} (empty : write (.code []) = []) (code : Text) :
    (Part.ofCode code).flatMap write = write (.code code) := by
  unfold Part.ofCode
  split
  · rename_i nothing
    rw [nothing, empty]
    rfl
  · simp

theorem parts_of_quoteless {text : Text} (plain : ∀ char ∈ text, isQuote char = false) :
    parts text = Part.ofCode text := by
  have single := @partsFrom_code text plain [] (by simp [partsFrom])
  rwa [List.append_nil, partsFrom, List.append_nil] at single

theorem countP_flatMap_le {α : Type} {counted : Char → Bool} {first second : α → Text}
    {items : List α}
    (each : ∀ item, (first item).countP counted ≤ (second item).countP counted) :
    (items.flatMap first).countP counted ≤ (items.flatMap second).countP counted := by
  induction items with
  | nil => exact Nat.le_refl _
  | cons item items ih =>
      rw [List.flatMap_cons, List.flatMap_cons, List.countP_append, List.countP_append]
      exact Nat.add_le_add (each item) ih

/-- Sigils and the spellings of keywords have no dots. -/
theorem count_parts_le (names : Names) (text : Text) :
    ((parts text).flatMap (expandPart names)).count '.' ≤ text.count '.' := by
  have whole := flatMap_partsFrom none text
  conv_rhs => rw [← whole]
  refine countP_flatMap_le fun part => ?_
  cases part with
  | literal text => exact Nat.le_refl _
  | code code =>
      refine (count_respell_le (by decide) _).trans ?_
      have joined : (runs code).flatMap id = code := by
        rw [List.flatMap_id, runs, List.flatten_splitBy]
      change (markVariables names code).count '.' ≤ code.count '.'
      conv_rhs => rw [← joined]
      refine countP_flatMap_le fun run => ?_
      rw [markRun]
      split <;> simp

theorem isWordChar_of_isQuote {quote : Char} (quoted : isQuote quote = true) :
    isWordChar quote = false :=
  Bool.eq_false_iff.mpr fun word => by simp [isQuote_of_isWordChar word] at quoted

/-- No variable starts in a closed literal. -/
theorem barren_literal {before literal : Text} (closed : IsLiteral before literal) (after : Text) :
    Sigiled.Barren names after before literal := by
  intro front char back split starts
  obtain ⟨_, quote, body, quoted, _, rfl⟩ := id closed
  cases front with
  | nil =>
      obtain ⟨rfl, _⟩ := List.cons.inj split
      exact not_variableAt_of_other (isWordChar_of_isQuote quoted) starts
  | cons first front =>
      obtain ⟨_, _, place⟩ := variableAt_iff.mp starts
      have spanned := place before _ after (by simp [split]) closed
      have lengths := congrArg List.length split
      simp only [List.length_append, List.length_cons] at spanned lengths
      omega

/-- Code without quotes lies outside of all literals if no literal is open in front of it. -/
theorem outside_of_code {before code front back after : Text} (closed : openQuote before = none)
    (plain : ∀ char ∈ code, isQuote char = false) (split : code = front ++ back) :
    Outside (before ++ front) (back ++ after) := by
  refine outside_of_openQuote ?_
  rw [openQuote_append_code closed fun char mem => plain char (by simp [split, mem])]
  simp

theorem outside_of_unclosed {before code front back : Text} {rest : Text} {quote : Char}
    (closed : openQuote before = none) (plain : ∀ char ∈ code, isQuote char = false)
    (quoted : isQuote quote = true) (absent : quote ∉ rest)
    (split : code ++ quote :: rest = front ++ back) : Outside (before ++ front) back := by
  rcases List.append_eq_append_iff.mp split with ⟨more, rfl, behind⟩ | ⟨more, rfl, rfl⟩
  · cases more with
    | nil =>
        have place := @outside_of_code before code code [] back closed plain (by simp)
        simpa using place
    | cons first more =>
        rw [List.cons_append] at behind
        obtain ⟨rfl, rfl⟩ := List.cons.inj behind
        obtain ⟨absent_more, absent_back⟩ := not_or.mp (mt List.mem_append.mpr absent)
        refine outside_of_openQuote ?_
        rw [← List.append_assoc, openQuote_append_quote (openQuote_append_code closed plain) quoted
          absent_more]
        simpa using absent_back
  · exact outside_of_code closed plain rfl

theorem sigiled_parts (text : Text) {before : Text} (closed : openQuote before = none)
    (starts : before.getLast?.any isWordChar = false) :
    Sigiled names [] before text ((parts text).flatMap (markPart names)) := by
  induction text using parts_induct generalizing before with
  | ending text plain =>
      rw [parts_of_quoteless plain, flatMap_ofCode rfl]
      exact sigiled_markVariables (.inl starts) trivial fun _ _ => outside_of_code closed plain
  | unclosed code quote rest plain quoted absent =>
      rw [parts, partsFrom_unclosed plain quoted absent, flatMap_ofCode rfl]
      refine sigiled_markVariables (.inl starts) trivial fun front back split => ?_
      rw [List.append_nil]
      exact outside_of_unclosed closed plain quoted absent split
  | closed code quote body rest plain quoted absent ih =>
      have between : openQuote (before ++ code) = none := openQuote_append_code closed plain
      have literal : IsLiteral (before ++ code) (quote :: body ++ [quote]) :=
        ⟨between, quote, body, quoted, absent, rfl⟩
      have other := isWordChar_of_isQuote quoted
      rw [parts, partsFrom_code_literal plain quoted absent, List.flatMap_append,
        List.flatMap_cons, flatMap_ofCode rfl]
      refine .append ?_ (.append (.of_barren (barren_literal literal _)) (ih ?_ ?_))
      · exact sigiled_markVariables (.inl starts) other fun _ _ => outside_of_code closed plain
      · exact literal.openQuote_eq_none
      · rw [← List.append_assoc, List.getLast?_concat]
        simpa using other

end Parts

/-! ## Expressions -/

/-- The words that make the expansion of an expression do more than write sigils. -/
def triggers : List Text :=
  ["$".toList, "len(".toList, "open(".toList, "int(".toList, "..".toList, ".split".toList,
    ".strip".toList, ".append".toList, "True".toList, "False".toList, "None".toList,
    " and ".toList, " or ".toList, " not ".toList]

/-- An expression that is no format text and has none of the words that are rewritten. -/
structure Bare (text : Text) : Prop where
  untriggered : ∀ word ∈ triggers, ¬List.IsInfix word text
  doubleQuoted : ¬List.IsPrefix "f\"".toList text
  singleQuoted : ¬List.IsPrefix "f'".toList text

instance (text : Text) : Decidable (Bare text) :=
  decidable_of_iff ((∀ word ∈ triggers, ¬List.IsInfix word text) ∧
    ¬List.IsPrefix "f\"".toList text ∧ ¬List.IsPrefix "f'".toList text)
    ⟨fun all => ⟨all.1, all.2.1, all.2.2⟩,
      fun bare => ⟨bare.untriggered, bare.doubleQuoted, bare.singleQuoted⟩⟩

namespace Bare

variable {names : Names} {text : Text}

theorem body?_eq_none (bare : Bare text) : Format.body? text = none := by
  unfold Format.body?
  split
  · exact absurd (List.prefix_append ['f', '"'] _) bare.doubleQuoted
  · exact absurd (List.prefix_append ['f', '\''] _) bare.singleQuoted
  · rfl

theorem not_mem_sigil (bare : Bare text) : '$' ∉ text := by
  intro mem
  obtain ⟨front, back, rfl⟩ := List.append_of_mem mem
  exact bare.untriggered "$".toList (by decide) ⟨front, back, by simp⟩

theorem inert (bare : Bare text) : Inert text := by
  have callless {method : Text} {bare_call : Bool} (mem : '.' :: method ∈ triggers) :
      ¬Calls method bare_call text := by
    rintro ⟨front, char, blanks, arguments, back, rfl, -⟩
    exact bare.untriggered _ mem ⟨front ++ [char], _, by simp; rfl⟩
  exact ⟨⟨callless (by decide), callless (by decide), callless (by decide)⟩,
    fun pair mem => bare.untriggered pair.1 (by revert pair; decide),
    bare.untriggered _ (by decide)⟩

theorem filter_markVariables (code : Text) :
    (markVariables names code).filter (· != '$') = code.filter (· != '$') := by
  have each : List.filter (· != '$') ∘ markRun names = List.filter (· != '$') := by
    funext run
    rw [Function.comp_apply, markRun]
    split <;> simp
  rw [markVariables, List.flatMap_def, List.filter_flatten, List.map_map, each,
    ← List.filter_flatten, runs, List.flatten_splitBy]

theorem isInfix_of_mem_parts {part : Part} (mem : part ∈ parts text) :
    List.IsInfix part.text text := by
  have stands := List.infix_of_mem_flatten (List.mem_map_of_mem (f := Part.text) mem)
  rwa [← List.flatMap_def, parts, flatMap_partsFrom] at stands

/-- The keywords do not stand in the code of a part, with or without sigils. -/
theorem expandPart_eq (bare : Bare text) {part : Part} (mem : part ∈ parts text) :
    expandPart names part = markPart names part := by
  cases part with
  | literal _ => rfl
  | code code =>
      have here : List.IsInfix code text := isInfix_of_mem_parts mem
      have plain : code.filter (· != '$') = code := by
        refine List.filter_eq_self.mpr fun char char_mem => ?_
        have other : char ≠ '$' := fun same => bare.not_mem_sigil (same ▸ here.subset char_mem)
        simpa using other
      have spelled : ∀ pair ∈ keywords,
          pair.1.filter (· != '$') = pair.1 ∧ pair.1 ∈ triggers := by decide
      refine respell_eq_self fun pair pair_mem stands => ?_
      obtain ⟨unsigiled, trigger⟩ := spelled pair pair_mem
      have unmarked := stands.filter (· != '$')
      rw [unsigiled, filter_markVariables, plain] at unmarked
      exact bare.untriggered _ trigger (unmarked.trans here)

theorem expand_eq (bare : Bare text) :
    expand names text = .ok ((parts text).flatMap (markPart names)) := by
  rw [Expr.expand_eq, bare.inert.convertCalls_eq_self, bare.body?_eq_none]
  simp only [Option.isSome_none, Bool.false_eq_true, if_false, expandPlain,
    Text.replace_eq_self bare.inert.dots]
  rw [List.flatMap_congr fun part mem => bare.expandPart_eq mem]

end Bare

/-- Expanding an expression writes a sigil in front of each variable and nothing else.  The closed
literals are copied. -/
theorem expand_sigiled (names : Names) {text : Text} (bare : Bare text) :
    ∃ written, expand names text = .ok written ∧ Sigiled names [] [] text written ∧
      written.filter (· != '$') = text ∧
      ∀ front literal back, text = front ++ literal ++ back → IsLiteral front literal →
        ∃ above below, written = above ++ literal ++ below ∧
          above.filter (· != '$') = front ∧ below.filter (· != '$') = back := by
  have whole : Sigiled names [] [] text ((parts text).flatMap (markPart names)) :=
    sigiled_parts text rfl rfl
  refine ⟨_, bare.expand_eq, whole, whole.filter_eq bare.not_mem_sigil, ?_⟩
  rintro front literal back rfl closed
  have plain := bare.not_mem_sigil
  rw [List.mem_append, List.mem_append, not_or, not_or] at plain
  obtain ⟨_, below, split, upper, lower⟩ := whole.exists_of_append
  obtain ⟨above, copied, rfl, first, second⟩ := upper.exists_of_append
  obtain rfl := second.eq_of_barren (barren_literal closed _)
  exact ⟨above, below, split, first.filter_eq plain.1.1, lower.filter_eq plain.2⟩

/-- Two variables and a constant. -/
def mixedNames : Names :=
  ⟨["x".toList, "y".toList, "MAX".toList], ["MAX".toList]⟩

/-- The words of both variables inside and outside of a literal, in a longer word and behind a quote
without a partner. -/
def mixedExpression : Text :=
  Text.join " + ".toList ["x".toList, "\"x 'y\"".toList, "éx".toList, "MAX(y)".toList, "'x".toList]

theorem expand_sigiled_mixed :
    Bare mixedExpression ∧ IsLiteral "x + ".toList "\"x 'y\"".toList ∧
      ∃ written, expand mixedNames mixedExpression = .ok written ∧
        written = Text.join " + ".toList
          ["$x".toList, "\"x 'y\"".toList, "éx".toList, "MAX($y)".toList, "'$x".toList] ∧
        Sigiled mixedNames [] [] mixedExpression written ∧
        written.filter (· != '$') = mixedExpression := by
  have bare : Bare mixedExpression := by decide +kernel
  have literal : IsLiteral "x + ".toList "\"x 'y\"".toList :=
    ⟨rfl, '"', "x 'y".toList, rfl, by decide, rfl⟩
  obtain ⟨written, done, sigiled, filtered, _⟩ := expand_sigiled mixedNames bare
  refine ⟨bare, literal, written, done, ?_, sigiled, filtered⟩
  have computed : expand mixedNames mixedExpression = .ok (Text.join " + ".toList
      ["$x".toList, "\"x 'y\"".toList, "éx".toList, "MAX($y)".toList, "'$x".toList]) := by
    decide +kernel
  exact Except.ok.inj (done.symm.trans computed)

end Expr
end Ephp
