import Ephp.Proofs.Sigils

/-!
# The words of code

Code is written run by run as far as sigils and the spellings of values go, and runs without word
characters are copied.  So the writing of a text can be cut at every character that is no word
character.  The spellings of the logical operators are another matter: they are found by the blanks
around them, and a blank is part of no word.
-/

namespace Ephp

/-- Induction along the items of a text between the occurrences of a character. -/
theorem Text.split_induct {motive : Text → Prop} (mark : Char)
    (last : ∀ text, mark ∉ text → motive text)
    (cut : ∀ item rest, mark ∉ item → motive rest → motive (item ++ mark :: rest))
    (text : Text) : motive text := by
  generalize size : text.length = length
  induction length using Nat.strongRecOn generalizing text with
  | _ length ih =>
      by_cases mem : mark ∈ text
      · obtain ⟨item, rest, rfl, absent⟩ := List.eq_append_cons_of_mem mem
        refine cut item rest absent (ih rest.length ?_ rest rfl)
        rw [← size, List.length_append, List.length_cons]
        omega
      · exact last text mem

namespace Text

/-- No word character is blank. -/
theorem isBlank_of_isWordChar {char : Char} (word : isWordChar char = true) :
    isBlank char = false := by
  have checked : ∀ code ∈ List.range' 0x09 5 ++ (List.range' 0x1C 5 ++ (List.range' 0x2000 11 ++
      [0x85, 0xA0, 0x1680, 0x2028, 0x2029, 0x202F, 0x205F, 0x3000])),
        isWordChar (Char.ofNat code) = false := by
    decide +kernel
  rw [← Bool.not_eq_true]
  intro blank
  have listed := checked char.toNat (by
    simp only [isBlank, Bool.or_eq_true, Bool.and_eq_true, decide_eq_true_eq, beq_iff_eq] at blank
    simp only [List.mem_append, List.mem_range'_1, List.mem_cons, List.not_mem_nil, or_false]
    omega)
  rw [Char.ofNat_toNat, word] at listed
  cases listed

theorem trim_of_free {drops : Char → Bool} {text : Text}
    (free : ∀ char ∈ text, drops char = false) : text.trim drops = text := by
  have kept {text : Text} (free : ∀ char ∈ text, drops char = false) :
      text.dropWhile drops = text := by
    cases text with
    | nil => rfl
    | cons char text => rw [List.dropWhile_cons_of_neg (by simp [free char List.mem_cons_self])]
  rw [trim, kept free, trimEnd, kept (by simpa using free), List.reverse_reverse]

theorem strip_of_solid {text : Text} (solid : ∀ char ∈ text, isBlank char = false) :
    text.strip = text :=
  trim_of_free solid

theorem strip_blank_cons (text : Text) : strip (' ' :: text) = strip text := by
  rw [strip, trim, List.dropWhile_cons_of_pos (by decide), strip, trim]

theorem strip_append_of_all (text : Text) {blanks : Text}
    (all : ∀ char ∈ blanks, isBlank char = true) : strip (text ++ blanks) = strip text := by
  have gone : (blanks ++ []).dropWhile isBlank = [] := List.dropWhile_append_of_pos all
  rw [List.append_nil] at gone
  rw [strip, trim, List.dropWhile_append, strip, trim]
  split
  · rename_i empty
    rw [List.isEmpty_iff.mp empty, gone]
  · exact trimEnd_append_of_all _ all

theorem strip_append_blank (text : Text) : strip (text ++ [' ']) = strip text :=
  strip_append_of_all text (by simp [isBlank])

end Text

namespace Expr

open Text (isWordChar)

/-- A text is a word: it has word characters and no others. -/
structure IsWord (text : Text) : Prop where
  filled : text ≠ []
  letters : ∀ char ∈ text, isWordChar char = true

instance (text : Text) : Decidable (IsWord text) :=
  decidable_of_iff (text ≠ [] ∧ text.all isWordChar = true)
    ⟨fun both => ⟨both.1, List.all_eq_true.mp both.2⟩,
      fun word => ⟨word.filled, List.all_eq_true.mpr word.letters⟩⟩

theorem IsWord.not_mem {text : Text} (word : IsWord text) {mark : Char}
    (other : isWordChar mark = false) : mark ∉ text := by
  intro mem
  rw [word.letters mark mem] at other
  cases other

/-- Words are replaced by words. -/
def Lettered (spellings : List (Text × Text)) : Prop :=
  ∀ pair ∈ spellings, IsWord pair.1 ∧ IsWord pair.2

instance (spellings : List (Text × Text)) : Decidable (Lettered spellings) :=
  inferInstanceAs (Decidable (∀ pair ∈ spellings, _))

theorem Lettered.free {spellings : List (Text × Text)} (lettered : Lettered spellings) {mark : Char}
    (other : isWordChar mark = false) : ∀ pair ∈ spellings, pair.1 ≠ [] ∧ mark ∉ pair.1 :=
  fun pair mem => ⟨(lettered pair mem).1.filled, (lettered pair mem).1.not_mem other⟩

/-! ## Runs -/

/-- Write the runs of a text one by one. -/
def mapRuns (write : Text → Text) (text : Text) : Text :=
  (runs text).flatMap write

/-- Runs without word characters are copied. -/
def Copies (write : Text → Text) : Prop :=
  ∀ run, (∀ char ∈ run, isWordChar char = false) → write run = run

/-- The words of a text: its runs of word characters. -/
def words (text : Text) : List Text :=
  (runs text).filter fun run => run.all isWordChar

/-- Induction along the words of a text. -/
theorem words_induct {motive : Text → Prop} (nil : motive [])
    (other : ∀ char rest, isWordChar char = false → motive rest → motive (char :: rest))
    (word : ∀ run rest, IsWord run → Text.Stops isWordChar rest → motive rest →
      motive (run ++ rest)) (text : Text) : motive text := by
  induction text using runs_induct with
  | nil => exact nil
  | step run rest kind filled alike stops ih =>
      cases kind with
      | true => exact word run rest ⟨filled, alike⟩ (stops_of_word stops) ih
      | false =>
          clear filled stops
          induction run with
          | nil => exact ih
          | cons char run copied =>
              obtain ⟨first, alike⟩ := List.forall_mem_cons.mp alike
              exact other char (run ++ rest) first (copied alike)

section Runs

variable {write : Text → Text} {run rest : Text} {char : Char}

theorem runs_word (word : IsWord run) (stops : rest.Stops isWordChar) :
    runs (run ++ rest) = run :: runs rest := by
  refine runs_append word.filled word.letters ?_
  cases rest with
  | nil => trivial
  | cons first rest => simpa [Text.Stops] using stops

/-- A character that is no word character lengthens the first run or is a run of its own. -/
theorem exists_runs_cons (other : isWordChar char = false) (text : Text) :
    ∃ run others, (∀ char ∈ run, isWordChar char = false) ∧
      runs (char :: text) = (char :: run) :: others ∧
        (run = [] ∧ runs text = others ∨ run ≠ [] ∧ runs text = run :: others) := by
  have whole := List.takeWhile_append_dropWhile (p := fun char => isWordChar char == false)
    (l := text)
  have stops := stops_dropWhile (fun char => isWordChar char == false) text
  have alike : ∀ char ∈ text.takeWhile (fun char => isWordChar char == false),
      isWordChar char = false := by
    intro char mem
    simpa using List.all_eq_true.mp List.all_takeWhile char mem
  generalize text.takeWhile (fun char => isWordChar char == false) = run at whole alike
  generalize text.dropWhile (fun char => isWordChar char == false) = back at whole stops
  subst whole
  refine ⟨run, runs back, alike, ?_, ?_⟩
  · exact runs_append (List.cons_ne_nil char run) (List.forall_mem_cons.mpr ⟨other, alike⟩) stops
  · by_cases empty : run = []
    · exact .inl ⟨empty, by rw [empty, List.nil_append]⟩
    · exact .inr ⟨empty, runs_append empty alike stops⟩

theorem mapRuns_word (word : IsWord run) (stops : rest.Stops isWordChar) :
    mapRuns write (run ++ rest) = write run ++ mapRuns write rest := by
  rw [mapRuns, runs_word word stops, List.flatMap_cons]
  rfl

theorem mapRuns_single (word : IsWord run) : mapRuns write run = write run := by
  have single : mapRuns write (run ++ []) = write run ++ [] := mapRuns_word word trivial
  rwa [List.append_nil, List.append_nil] at single

theorem mapRuns_cons (copies : Copies write) (other : isWordChar char = false) (text : Text) :
    mapRuns write (char :: text) = char :: mapRuns write text := by
  obtain ⟨run, others, alike, longer, ⟨rfl, same⟩ | ⟨_, same⟩⟩ := exists_runs_cons other text
  · rw [mapRuns, longer, mapRuns, same, List.flatMap_cons, copies [char] (by simpa using other)]
    rfl
  · rw [mapRuns, longer, mapRuns, same, List.flatMap_cons, List.flatMap_cons, copies run alike,
      copies (char :: run) (List.forall_mem_cons.mpr ⟨other, alike⟩)]
    rfl

/-- Writing run by run works on both sides of a character that is no word character. -/
theorem mapRuns_append_cons (copies : Copies write) (other : isWordChar char = false)
    (front back : Text) :
    mapRuns write (front ++ char :: back) = mapRuns write front ++ char :: mapRuns write back := by
  induction front using words_induct with
  | nil => exact mapRuns_cons copies other back
  | other first rest refused ih =>
      rw [List.cons_append, mapRuns_cons copies refused, ih, mapRuns_cons copies refused]
      rfl
  | word run rest word stops ih =>
      have stops_before : Text.Stops isWordChar (rest ++ char :: back) := by
        cases rest with
        | nil => exact other
        | cons first rest => exact stops
      rw [List.append_assoc, mapRuns_word word stops_before, ih,
        mapRuns_word word stops, List.append_assoc]

/-- Writing run by run works behind a character that is no word character. -/
theorem mapRuns_append (copies : Copies write) {front : Text}
    (ends : front.getLast?.any isWordChar = false) (back : Text) :
    mapRuns write (front ++ back) = mapRuns write front ++ mapRuns write back := by
  rcases List.eq_nil_or_concat front with rfl | ⟨front, last, rfl⟩
  · rfl
  · rw [List.concat_eq_append] at ends ⊢
    have other : isWordChar last = false := by simpa using ends
    rw [List.append_assoc, List.singleton_append, mapRuns_append_cons copies other,
      mapRuns_append_cons copies other, List.append_assoc]
    rfl

theorem words_word (word : IsWord run) (stops : rest.Stops isWordChar) :
    words (run ++ rest) = run :: words rest := by
  rw [words, runs_word word stops, List.filter_cons_of_pos]
  · rfl
  · exact List.all_eq_true.mpr word.letters

theorem words_cons (other : isWordChar char = false) (text : Text) :
    words (char :: text) = words text := by
  obtain ⟨run, others, alike, longer, ⟨rfl, same⟩ | ⟨filled, same⟩⟩ := exists_runs_cons other text
  · rw [words, longer, words, same, List.filter_cons_of_neg (by simp [other])]
  · obtain ⟨first, more, rfl⟩ := List.exists_cons_of_ne_nil filled
    have refused := alike first List.mem_cons_self
    rw [words, longer, words, same, List.filter_cons_of_neg (by simp [other]),
      List.filter_cons_of_neg (by simp [refused])]

theorem countP_mapRuns {counted : Char → Bool}
    (each : ∀ run, (write run).countP counted = run.countP counted) (text : Text) :
    (mapRuns write text).countP counted = text.countP counted := by
  have pointwise (items : List Text) :
      (items.flatMap write).countP counted = items.flatten.countP counted := by
    induction items with
    | nil => rfl
    | cons item items ih =>
        rw [List.flatMap_cons, List.flatten_cons, List.countP_append, List.countP_append, each, ih]
  rw [mapRuns, pointwise, runs, List.flatten_splitBy]

end Runs

/-! ## Sigils and values -/

/-- The truth values and the null value with their spellings in the output. -/
def values : List (Text × Text) :=
  [("True".toList, "true".toList), ("False".toList, "false".toList), ("None".toList, "null".toList)]

/-- The logical operators with their spellings in the output. -/
def operators : List (Text × Text) :=
  [("and".toList, "&&".toList), ("or".toList, "||".toList), ("not".toList, "!".toList)]

/-- A word between blanks. -/
def spaced (word : Text) : Text :=
  ' ' :: (word ++ [' '])

/-- Write a run of characters with its sigil and with the spellings of the values in it. -/
def spellRun (names : Names) (run : Text) : Text :=
  respell values (markRun names run)

/-- Write a stretch of code. -/
def expandCode (names : Names) (text : Text) : Text :=
  respellKeywords (markVariables names text)

section Code

variable {names : Names} {text run : Text}

theorem respellKeywords_eq (text : Text) :
    respellKeywords text =
      respell (operators.map fun pair => (spaced pair.1, spaced pair.2)) (respell values text) :=
  rfl

theorem gains_values : Gains Char.isLower values := by
  decide

theorem copies_markRun : Copies (markRun names) :=
  fun _ => markRun_of_other

theorem isInfix_markRun_iff {word : Text} (filled : word ≠ []) (plain : '$' ∉ word) :
    List.IsInfix word (markRun names run) ↔ List.IsInfix word run := by
  rw [markRun]
  split
  · rw [List.infix_cons_iff]
    refine or_iff_right fun front => ?_
    obtain ⟨first, rest, rfl⟩ := List.exists_cons_of_ne_nil filled
    obtain ⟨rfl, _⟩ := List.cons_prefix_cons.mp front
    exact plain List.mem_cons_self
  · rfl

/-- A run is written with nothing but its sigil exactly if no value stands in it. -/
theorem spellRun_eq_markRun_iff :
    spellRun names run = markRun names run ↔ ∀ pair ∈ values, ¬List.IsInfix pair.1 run := by
  have plain : ∀ pair ∈ values, pair.1 ≠ [] ∧ '$' ∉ pair.1 := by decide
  rw [spellRun, gains_values.respell_eq_self_iff]
  refine forall₂_congr fun pair mem => not_congr ?_
  exact isInfix_markRun_iff (plain pair mem).1 (plain pair mem).2

theorem lettered_values : Lettered values := by
  decide

theorem copies_spellRun : Copies (spellRun names) := by
  intro run others
  rw [spellRun_eq_markRun_iff.mpr, copies_markRun run others]
  intro pair mem stands
  have word := (lettered_values pair mem).1
  obtain ⟨first, first_mem⟩ := List.exists_mem_of_ne_nil _ word.filled
  exact word.not_mem (others first (stands.subset first_mem)) first_mem

theorem markVariables_cons {mark : Char} (other : isWordChar mark = false) (back : Text) :
    markVariables names (mark :: back) = mark :: markVariables names back :=
  mapRuns_cons copies_markRun other back

theorem markVariables_append_cons {mark : Char} (other : isWordChar mark = false)
    (front back : Text) : markVariables names (front ++ mark :: back) =
      markVariables names front ++ mark :: markVariables names back :=
  mapRuns_append_cons copies_markRun other front back

/-- Values are respelled run by run. -/
theorem respell_markVariables (text : Text) :
    respell values (markVariables names text) = mapRuns (spellRun names) text := by
  induction text using words_induct with
  | nil => rfl
  | other char rest other ih =>
      rw [markVariables_cons other, respell_mark (lettered_values.free other), ih,
        mapRuns_cons copies_spellRun other]
  | word run rest word stops ih =>
      have marked : markVariables names (run ++ rest) = markRun names run ++ _ :=
        mapRuns_word word stops
      rw [marked, mapRuns_word word stops, ← ih]
      -- No value has the character behind the word, be there one.
      cases rest with
      | nil =>
          change respell values (markRun names run ++ []) = spellRun names run ++ respell values []
          rw [List.append_nil, respell_nil, List.append_nil, spellRun]
      | cons mark back =>
          change respell values (_ ++ markVariables names (mark :: back)) = _
          rw [markVariables_cons stops, respell_append_cons (lettered_values.free stops),
            respell_mark (lettered_values.free stops), spellRun]

theorem mem_markVariables {mark : Char} (other : mark ≠ '$') :
    mark ∈ markVariables names text ↔ mark ∈ text := by
  have filtered := congrArg (mark ∈ ·) (@Bare.filter_markVariables names text)
  simpa [other] using filtered

theorem not_mem_of_other {mark : Char} (other : isWordChar mark = false) (sigil : mark ≠ '$')
    (absent : mark ∉ text) : mark ∉ mapRuns (spellRun names) text := by
  rw [← respell_markVariables]
  refine not_mem_respell (fun pair mem => ?_) (mt (mem_markVariables sigil).mp absent)
  exact List.count_eq_zero.mpr ((lettered_values pair mem).2.not_mem other)

theorem not_mem_mapRuns_spellRun (absent : ' ' ∉ text) : ' ' ∉ mapRuns (spellRun names) text :=
  not_mem_of_other rfl (by decide) absent

theorem not_mem_markRun {mark : Char} (other : mark ≠ '$') (absent : mark ∉ run) :
    mark ∉ markRun names run := by
  rw [markRun]
  split
  · simp [other, absent]
  · exact absent

theorem countP_markRun {counted : Char → Bool} (sigil : counted '$' = false) (run : Text) :
    (markRun names run).countP counted = run.countP counted := by
  rw [markRun]
  split
  · rw [List.countP_cons_of_neg (by simp [sigil])]
  · rfl

theorem countP_spellRun (run : Text) :
    (spellRun names run).countP isGained = run.countP isGained := by
  rw [spellRun, countP_respell (by decide), countP_markRun (by decide)]

/-- Neither a sigil nor the spelling of a keyword has more or fewer of the letters that built-in
functions gain. -/
theorem countP_expandCode (text : Text) :
    (expandCode names text).countP isGained = text.countP isGained := by
  rw [expandCode, respellKeywords, countP_respell (by decide)]
  exact countP_mapRuns (countP_markRun (by decide)) text

end Code

/-! ## Expressions without quotes -/

section Quoteless

variable {names : Names} {text : Text}

theorem eq_of_isQuote {char : Char} (quoted : isQuote char = true) : char = '"' ∨ char = '\'' := by
  simpa [isQuote] using quoted

theorem body?_of_quoteless (plain : ∀ char ∈ text, isQuote char = false) :
    Format.body? text = none := by
  unfold Format.body?
  split
  · exact absurd (plain '"' (by simp)) (by decide)
  · exact absurd (plain '\'' (by simp)) (by decide)
  · rfl

theorem expand_of_quoteless (plain : ∀ char ∈ text, isQuote char = false) :
    expand names text = .ok (expandPlain names (convertCalls text)) := by
  rw [expand_eq, body?_convertCalls (body?_of_quoteless plain)]
  rfl

theorem expandPlain_of_quoteless (plain : ∀ char ∈ text, isQuote char = false) :
    expandPlain names text = expandCode names (Text.replace "..".toList ['.'] text) := by
  have dotted : ∀ char ∈ Text.replace "..".toList ['.'] text, isQuote char = false := by
    intro char mem
    rcases Text.mem_replace (by decide) mem with mem | mem
    · rw [List.mem_singleton.mp mem]
      rfl
    · exact plain char mem
  rw [expandPlain, parts_of_quoteless dotted, flatMap_ofCode rfl]
  rfl

/-- An expression without quotes and method calls is all code. -/
theorem expand_of_callless (plain : ∀ char ∈ text, isQuote char = false)
    (callless : Callless text) : expand names text = .ok (expandCode names (rewrite text)) := by
  have renamed : ∀ char ∈ respell builtins text, isQuote char = false := by
    intro char mem
    by_contra quoted
    rw [Bool.not_eq_false] at quoted
    refine not_mem_respell ?_ (fun mem => ?_) mem
    · rcases eq_of_isQuote quoted with rfl | rfl <;> decide
    · rw [plain char mem] at quoted
      cases quoted
  rw [expand_of_quoteless plain, convertCalls_of_callless callless,
    expandPlain_of_quoteless renamed, rewrite, convertCalls_of_callless callless]

theorem callless_of_not_mem (absent : '.' ∉ text) : Callless text := by
  have idle (method : Text) (bare : Bool) : ¬Calls method bare text := by
    rintro ⟨front, char, blanks, arguments, back, rfl, -⟩
    simp at absent
  exact ⟨idle _ _, idle _ _, idle _ _⟩

end Quoteless

end Expr
end Ephp
