import Ephp.Proofs.Words

/-!
# Names of called functions

Built-in functions are renamed by their spelling in front of an opening parenthesis, before words
are told apart and before variables take their sigils.  So the end of a longer name is taken for a
built-in function, and the other name of a built-in function for a variable.  The names of the
called functions are written as they should be exactly if neither happens.
-/

namespace Ephp

namespace Text

/-! ## Names in front of a parenthesis -/

/-- Put `new` for `old` at the end of a text. -/
def swapEnd (old new : Text) : Text → Text
  | [] => []
  | char :: rest => if char :: rest = old then new else char :: swapEnd old new rest

section SwapEnd

variable {old new : Text}

theorem mem_swapEnd {char : Char} {text : Text} (mem : char ∈ swapEnd old new text) :
    char ∈ new ∨ char ∈ text := by
  induction text with
  | nil => exact .inr mem
  | cons first rest ih =>
      rw [swapEnd] at mem
      split at mem
      · exact .inl mem
      · rcases List.mem_cons.mp mem with rfl | mem
        · exact .inr List.mem_cons_self
        · exact (ih mem).imp_right fun mem => List.mem_cons_of_mem first mem

/-- A word up to a parenthesis is replaced in front of the first parenthesis of a text if it stands
there. -/
theorem replace_append_paren (filled : old ≠ []) (absent : '(' ∉ old) {item : Text}
    (plain : '(' ∉ item) (rest : Text) :
    replace (old ++ ['(']) (new ++ ['(']) (item ++ '(' :: rest) =
      swapEnd old new item ++ '(' :: replace (old ++ ['(']) (new ++ ['(']) rest := by
  have other {front : Text} (plain : '(' ∉ front) (differs : front ≠ old) :
      ¬List.IsPrefix (old ++ ['(']) (front ++ '(' :: rest) := by
    rintro ⟨back, split⟩
    rw [List.append_assoc] at split
    exact differs (eq_of_first absent plain split).1.symm
  induction item with
  | nil => exact replace_cons (other plain filled.symm)
  | cons char item ih =>
      rw [swapEnd]
      split
      · rename_i same
        have found : char :: item ++ '(' :: rest = (old ++ ['(']) ++ rest := by simp [same]
        rw [found, replace_occurrence (by simp)]
        simp
      · rename_i differs
        rw [List.cons_append, replace_cons (by exact other plain differs),
          ih fun mem => plain (List.mem_cons_of_mem char mem)]
        rfl

/-- What ends with no word character is no part of a word that is swapped behind it. -/
theorem swapEnd_append (letters : ∀ char ∈ old, isWordChar char = true) {front : Text}
    (ends : front.getLast?.any isWordChar = false) (name : Text) :
    swapEnd old new (front ++ name) = front ++ swapEnd old new name := by
  induction front with
  | nil => rfl
  | cons char front ih =>
      have differs : char :: front ++ name ≠ old := by
        rintro rfl
        have spelled : ∀ letter ∈ char :: front, isWordChar letter = true := fun letter mem =>
          letters letter (List.mem_append_left name mem)
        rw [← List.nil_append (char :: front),
          Expr.any_getLast?_append (List.cons_ne_nil char front) spelled] at ends
        cases ends
      rw [List.cons_append, swapEnd, if_neg (by exact differs), ih, List.cons_append]
      cases front with
      | nil => rfl
      | cons second front => simpa using ends

theorem swapEnd_eq_self {text : Text} (other : ¬List.IsSuffix old text) :
    swapEnd old new text = text := by
  induction text with
  | nil => rfl
  | cons char rest ih =>
      obtain ⟨differs, other⟩ := not_or.mp (mt List.suffix_cons_iff.mpr other)
      rw [swapEnd, if_neg (Ne.symm differs), ih other]

end SwapEnd

/-- A replacement stops in front of a text that lacks the last character of the replaced word. -/
theorem replace_append_of_not_mem {old new front back : Text} {mark : Char}
    (ends : old.getLast? = some mark) (absent : mark ∉ back) :
    replace old new (front ++ back) = replace old new front ++ back := by
  obtain ⟨start, rfl⟩ := List.getLast?_eq_some_iff.mp ends
  have filled : start ++ [mark] ≠ [] := by simp
  induction front using replace_induct filled with
  | nil => exact replace_eq_self fun stands => absent (stands.subset (by simp))
  | occurrence rest ih =>
      rw [List.append_assoc, replace_occurrence filled, ih, replace_occurrence filled,
        List.append_assoc]
  | copied char rest other ih =>
      rw [replace_cons other, List.cons_append, List.cons_append, replace_cons, ih]
      intro stands
      have both := List.prefix_append (char :: rest) back
      rcases List.prefix_or_prefix_of_prefix stands both with shorter | ⟨more, longer⟩
      · exact other shorter
      -- An occurrence that goes beyond the front ends with the mark behind it.
      · rw [← List.cons_append, ← longer, List.prefix_append_right_inj] at stands
        rcases List.eq_nil_or_concat more with rfl | ⟨_, last, rfl⟩
        · exact other ⟨[], by simpa using longer.symm⟩
        · rw [List.concat_eq_append, ← List.append_assoc] at longer
          obtain ⟨_, same⟩ := List.append_inj' longer rfl
          exact absent (stands.subset (by simp [List.cons.inj same]))

theorem getLast?_replace {old new : Text} {mark : Char} (old_ends : old.getLast? = some mark)
    (new_ends : new.getLast? = some mark) (text : Text) :
    (replace old new text).getLast? = text.getLast? := by
  have filled : old ≠ [] := by
    rintro rfl
    cases old_ends
  induction text using replace_induct filled with
  | nil => rfl
  | occurrence rest ih =>
      rw [replace_occurrence filled, List.getLast?_append, List.getLast?_append, ih, old_ends,
        new_ends]
  | copied char rest other ih =>
      rw [replace_cons other, List.getLast?_cons, List.getLast?_cons, ih]

end Text

namespace Expr

open Text (isWordChar swapEnd)

/-- The built-in functions whose names differ. -/
def builtinNames : List (Text × Text) :=
  [("len".toList, "count".toList), ("open".toList, "fopen".toList), ("int".toList, "intval".toList)]

/-- Put every second word of the list for its first at the end of a text, one pair after the
other. -/
def swapEnds (spellings : List (Text × Text)) (text : Text) : Text :=
  spellings.foldl (fun text pair => swapEnd pair.1 pair.2 text) text

/-- The word at the end of a text. -/
def lastWord (text : Text) : Text :=
  (text.reverse.takeWhile isWordChar).reverse

/-- The words in front of the opening parentheses of a text.  Where a parenthesis stands behind no
word, this is the empty one. -/
def callees (text : Text) : List Text :=
  (text.splitOn '(').dropLast.map lastWord

/-- Write the name of a called function: the other name of a built-in function, and any other name
with a sigil if it is a variable. -/
def spellCallee (names : Names) (name : Text) : Text :=
  (builtinNames.lookup name).getD (markRun names name)

/-- Write the items of an expression between its opening parentheses, where the word at the end of
an item is the name of a called function. -/
def writeItems (names : Names) : List Text → Text
  | [] => []
  | [last] => expandPlain names last
  | item :: next :: items =>
      expandPlain names (item.trimEnd isWordChar) ++
        (spellCallee names (lastWord item) ++ '(' :: writeItems names (next :: items))

/-- Write an expression with each called function by its own name. -/
def writeCalls (names : Names) (text : Text) : Text :=
  writeItems names (text.splitOn '(')

/-- The name of a called function is written as it should be. -/
inductive Faithful (names : Names) (name : Text) : Prop
  | builtin {target : Text} (renamed : (name, target) ∈ builtinNames)
      (plain : names.takesSigil target = false)
  | native (ends : ∀ pair ∈ builtinNames, ¬List.IsSuffix pair.1 name)
      (plain : ∀ pair ∈ values, ¬List.IsInfix pair.1 name)

/-! ## Renaming -/

section Renaming

variable {spellings : List (Text × Text)} {front item name : Text}

theorem letters_swapEnds (lettered : Lettered spellings)
    (letters : ∀ char ∈ name, isWordChar char = true) :
    ∀ char ∈ swapEnds spellings name, isWordChar char = true := by
  induction spellings generalizing name with
  | nil => exact letters
  | cons pair spellings ih =>
      obtain ⟨⟨_, target⟩, lettered⟩ := List.forall_mem_cons.mp lettered
      refine ih lettered fun char mem => ?_
      exact (Text.mem_swapEnd mem).elim (target.letters char) (letters char)

theorem swapEnds_append (lettered : Lettered spellings)
    (ends : front.getLast?.any isWordChar = false) (name : Text) :
    swapEnds spellings (front ++ name) = front ++ swapEnds spellings name := by
  induction spellings generalizing name with
  | nil => rfl
  | cons pair spellings ih =>
      obtain ⟨⟨word, _⟩, lettered⟩ := List.forall_mem_cons.mp lettered
      rw [swapEnds, List.foldl_cons, Text.swapEnd_append word.letters ends]
      exact ih lettered _

/-- Words up to a parenthesis are respelled at the end of each item in front of one. -/
theorem respell_append_paren (lettered : Lettered spellings) (plain : '(' ∉ item) (rest : Text) :
    respell (spellings.map fun pair => (pair.1 ++ ['('], pair.2 ++ ['('])) (item ++ '(' :: rest) =
      swapEnds spellings item ++
        '(' :: respell (spellings.map fun pair => (pair.1 ++ ['('], pair.2 ++ ['('])) rest := by
  have other : isWordChar '(' = false := by decide
  induction spellings generalizing item rest with
  | nil => rfl
  | cons pair spellings ih =>
      obtain ⟨⟨word, target⟩, lettered⟩ := List.forall_mem_cons.mp lettered
      rw [List.map_cons, respell_cons,
        Text.replace_append_paren word.filled (word.not_mem other) plain, ih lettered]
      · rfl
      · exact fun mem => (Text.mem_swapEnd mem).elim (target.not_mem other) plain

theorem builtins_eq :
    builtins = builtinNames.map fun pair => (pair.1 ++ ['('], pair.2 ++ ['(']) :=
  rfl

theorem lettered_builtinNames : Lettered builtinNames := by
  decide

theorem respell_builtins_append (plain : '(' ∉ item) (rest : Text) :
    respell builtins (item ++ '(' :: rest) =
      swapEnds builtinNames item ++ '(' :: respell builtins rest := by
  rw [builtins_eq]
  exact respell_append_paren lettered_builtinNames plain rest

theorem swapEnds_eq_self (others : ∀ pair ∈ spellings, ¬List.IsSuffix pair.1 name) :
    swapEnds spellings name = name := by
  induction spellings with
  | nil => rfl
  | cons pair spellings ih =>
      obtain ⟨other, others⟩ := List.forall_mem_cons.mp others
      rw [swapEnds, List.foldl_cons, Text.swapEnd_eq_self other]
      exact ih others

/-- A name that gains no letter ends with no built-in function. -/
theorem not_isSuffix_of_countP_le (plain : '(' ∉ name)
    (kept : (swapEnds builtinNames name).countP isGained ≤ name.countP isGained) :
    ∀ pair ∈ builtinNames, ¬List.IsSuffix pair.1 name := by
  intro pair mem
  rintro ⟨front, rfl⟩
  have called : (respell builtins (front ++ pair.1 ++ ['('])).countP isGained ≤
      (front ++ pair.1 ++ ['(']).countP isGained := by
    rw [respell_builtins_append plain, List.countP_append, List.countP_append]
    exact Nat.add_le_add_right kept _
  have absent := gains_builtins.absent called
  rw [builtins_eq] at absent
  exact absent _ (List.mem_map_of_mem mem) ⟨front, [], by simp⟩

end Renaming

/-! ## Called functions -/

section Callees

variable {names : Names} {front item name : Text}

theorem spellRun_of_builtin {target : Text} (mem : (name, target) ∈ builtinNames) :
    spellRun names (swapEnds builtinNames name) = spellCallee names name ↔
      names.takesSigil target = false := by
  have renamed : ∀ pair ∈ builtinNames, swapEnds builtinNames pair.1 = pair.2 ∧
      builtinNames.lookup pair.1 = some pair.2 ∧
        ∀ value ∈ values, ¬List.IsInfix value.1 pair.2 := by decide
  obtain ⟨swapped, found, plain⟩ := renamed _ mem
  rw [swapped, spellCallee, found, Option.getD_some, spellRun_eq_markRun_iff.mpr plain, markRun]
  cases names.takesSigil target <;> simp

theorem spellRun_of_native (plain : '(' ∉ name) (native : ∀ target, (name, target) ∉ builtinNames) :
    spellRun names (swapEnds builtinNames name) = spellCallee names name ↔
      (∀ pair ∈ builtinNames, ¬List.IsSuffix pair.1 name) ∧
        ∀ pair ∈ values, ¬List.IsInfix pair.1 name := by
  have missing : builtinNames.lookup name = none := by
    rw [List.lookup_eq_none_iff]
    rintro ⟨other, target⟩ mem
    simpa using fun same : name = other => native target (same ▸ mem)
  rw [spellCallee, missing, Option.getD_none]
  constructor
  · intro same
    have counts := congrArg (List.countP isGained) same
    rw [countP_spellRun, countP_markRun (by decide)] at counts
    have ends := not_isSuffix_of_countP_le plain counts.le
    rw [swapEnds_eq_self ends, spellRun_eq_markRun_iff] at same
    exact ⟨ends, same⟩
  · rintro ⟨ends, values⟩
    rw [swapEnds_eq_self ends, spellRun_eq_markRun_iff.mpr values]

theorem spellRun_eq_spellCallee_iff (plain : '(' ∉ name) :
    spellRun names (swapEnds builtinNames name) = spellCallee names name ↔
      Faithful names name := by
  by_cases builtin : ∃ target, (name, target) ∈ builtinNames
  · obtain ⟨target, mem⟩ := builtin
    constructor
    · exact fun same => .builtin mem ((spellRun_of_builtin mem).mp same)
    · rintro (⟨renamed, plain⟩ | ⟨ends, _⟩)
      · exact (spellRun_of_builtin renamed).mpr plain
      · exact absurd (List.suffix_refl name) (ends _ mem)
  · rw [spellRun_of_native plain (not_exists.mp builtin)]
    constructor
    · exact fun both => .native both.1 both.2
    · rintro (⟨renamed, _⟩ | ⟨ends, values⟩)
      · exact absurd ⟨_, renamed⟩ builtin
      · exact ⟨ends, values⟩

theorem trimEnd_append_lastWord (text : Text) :
    text.trimEnd isWordChar ++ lastWord text = text := by
  rw [Text.trimEnd, lastWord, ← List.reverse_append, List.takeWhile_append_dropWhile,
    List.reverse_reverse]

theorem letters_lastWord (text : Text) : ∀ char ∈ lastWord text, isWordChar char = true := by
  intro char mem
  exact List.all_eq_true.mp List.all_takeWhile char (List.mem_reverse.mp mem)

theorem any_getLast?_trimEnd (text : Text) :
    (text.trimEnd isWordChar).getLast?.any isWordChar = false := by
  rw [Text.trimEnd, List.getLast?_reverse, ← stops_iff]
  exact stops_dropWhile isWordChar text.reverse

theorem respell_append_of_not_mem {spellings : List (Text × Text)} {mark : Char} {back : Text}
    (ends : ∀ pair ∈ spellings, pair.1.getLast? = some mark) (absent : mark ∉ back) (front : Text) :
    respell spellings (front ++ back) = respell spellings front ++ back := by
  induction spellings generalizing front with
  | nil => rfl
  | cons pair spellings ih =>
      obtain ⟨first, ends⟩ := List.forall_mem_cons.mp ends
      rw [respell_cons, Text.replace_append_of_not_mem first absent, ih ends, respell_cons]

theorem mapRuns_spellRun (letters : ∀ char ∈ name, isWordChar char = true) :
    mapRuns (spellRun names) name = spellRun names name := by
  by_cases empty : name = []
  · rw [empty]
    rfl
  · exact mapRuns_single ⟨empty, letters⟩

/-- A word at the end of code is written on its own. -/
theorem expandCode_append (ends : front.getLast?.any isWordChar = false)
    (letters : ∀ char ∈ name, isWordChar char = true) :
    expandCode names (front ++ name) = expandCode names front ++ spellRun names name := by
  have blankless : ' ' ∉ name := fun mem => absurd (letters ' ' mem) (by decide)
  have unspaced : ' ' ∉ mapRuns (spellRun names) name := not_mem_mapRuns_spellRun blankless
  rw [mapRuns_spellRun letters] at unspaced
  rw [expandCode, respellKeywords_eq, respell_markVariables, mapRuns_append copies_spellRun ends,
    mapRuns_spellRun letters, respell_append_of_not_mem (by decide) unspaced,
    ← respell_markVariables, ← respellKeywords_eq]
  rfl

theorem expandCode_append_paren (front back : Text) :
    expandCode names (front ++ '(' :: back) =
      expandCode names front ++ '(' :: expandCode names back := by
  rw [expandCode, markVariables_append_cons (by decide), respellKeywords,
    respell_append_cons (by decide)]
  rfl

/-- Expand code whose method calls are converted already. -/
def expandRest (names : Names) (text : Text) : Text :=
  expandCode names (Text.replace "..".toList ['.'] (respell builtins text))

/-- An item in front of a parenthesis is written up to its last word, and its last word is renamed
before it is written. -/
theorem expandRest_append (plain : '(' ∉ item) (unquoted : ∀ char ∈ item, isQuote char = false)
    (rest : Text) : expandRest names (item ++ '(' :: rest) =
      expandPlain names (item.trimEnd isWordChar) ++
        (spellRun names (swapEnds builtinNames (lastWord item)) ++
          '(' :: expandRest names rest) := by
  have letters := letters_swapEnds lettered_builtinNames (letters_lastWord item)
  have ends := any_getLast?_trimEnd item
  have renamed := swapEnds_append lettered_builtinNames ends (lastWord item)
  rw [trimEnd_append_lastWord] at renamed
  have dot : "..".toList.getLast? = some '.' := by decide
  have dotless : '.' ∉ swapEnds builtinNames (lastWord item) := fun mem =>
    absurd (letters '.' mem) (by decide)
  rw [← Text.getLast?_replace dot (by decide : ['.'].getLast? = some '.')] at ends
  rw [expandRest, respell_builtins_append plain, renamed,
    Text.replace_append_cons (by decide) (by decide), Text.replace_append_of_not_mem dot dotless,
    expandCode_append_paren, expandCode_append ends letters, expandPlain_of_quoteless,
    List.append_assoc]
  · rfl
  · intro char mem
    exact unquoted char ((Text.trimEnd_sublist isWordChar item).subset mem)

theorem expandRest_of_not_mem (plain : '(' ∉ item)
    (unquoted : ∀ char ∈ item, isQuote char = false) :
    expandRest names item = expandPlain names item := by
  rw [expandRest, expandPlain_of_quoteless unquoted, respell_eq_self]
  intro pair mem stands
  have opened : ∀ pair ∈ builtins, '(' ∈ pair.1 := by decide
  exact plain (stands.subset (opened pair mem))

theorem writeCalls_append (plain : '(' ∉ item) (rest : Text) :
    writeCalls names (item ++ '(' :: rest) =
      expandPlain names (item.trimEnd isWordChar) ++
        (spellCallee names (lastWord item) ++ '(' :: writeCalls names rest) := by
  obtain ⟨next, items, split⟩ := List.exists_cons_of_ne_nil (List.splitOn_ne_nil '(' rest)
  rw [writeCalls, List.splitOn_append_cons_self_of_not_mem plain, split, writeItems, ← split]
  rfl

theorem callees_append (plain : '(' ∉ item) (rest : Text) :
    callees (item ++ '(' :: rest) = lastWord item :: callees rest := by
  rw [callees, List.splitOn_append_cons_self_of_not_mem plain,
    List.dropLast_cons_of_ne_nil (List.splitOn_ne_nil '(' rest)]
  rfl

theorem not_mem_spellCallee (plain : '(' ∉ name) : '(' ∉ spellCallee names name := by
  rw [spellCallee]
  cases found : builtinNames.lookup name with
  | none => exact not_mem_markRun (by decide) plain
  | some target =>
      have unopened : ∀ pair ∈ builtinNames, '(' ∉ pair.2 := by decide
      obtain ⟨_, _, split, _⟩ := List.lookup_eq_some_iff.mp found
      exact unopened (name, target) (by simp [split])

theorem expandRest_eq_writeCalls_iff {text : Text}
    (unquoted : ∀ char ∈ text, isQuote char = false) :
    expandRest names text = writeCalls names text ↔
      ∀ name ∈ callees text, Faithful names name := by
  induction text using Text.split_induct '(' with
  | last text plain =>
      rw [expandRest_of_not_mem plain unquoted, writeCalls, callees,
        List.splitOn_eq_singleton plain]
      simp [writeItems]
  | cut item rest plain ih =>
      have item_unquoted : ∀ char ∈ item, isQuote char = false := fun char mem =>
        unquoted char (List.mem_append_left _ mem)
      have rest_unquoted : ∀ char ∈ rest, isQuote char = false := fun char mem =>
        unquoted char (List.mem_append_right _ (List.mem_cons_of_mem _ mem))
      have unopened : '(' ∉ lastWord item := fun mem =>
        absurd (letters_lastWord item '(' mem) (by decide)
      rw [expandRest_append plain item_unquoted, writeCalls_append plain, callees_append plain,
        List.append_cancel_left_eq, List.forall_mem_cons, ← ih rest_unquoted,
        ← spellRun_eq_spellCallee_iff unopened]
      -- The name is written without a parenthesis on either side, so the first ones agree.
      constructor
      · refine Text.eq_of_first (not_mem_respell (by decide) (not_mem_markRun (by decide) ?_))
          (not_mem_spellCallee unopened)
        have letters := letters_swapEnds lettered_builtinNames (letters_lastWord item)
        exact fun mem => absurd (letters '(' mem) (by decide)
      · rintro ⟨first, others⟩
        rw [first, others]

end Callees

/-- An expression without quotes and method calls is written with each called function by its own
name exactly if no name ends like a built-in function without being one, no value stands in a name,
and no built-in function is renamed to a variable. -/
theorem expand_eq_writeCalls_iff (names : Names) {text : Text}
    (unquoted : ∀ char ∈ text, isQuote char = false) (callless : Callless text) :
    expand names text = .ok (writeCalls names text) ↔
      ∀ name ∈ callees text, Faithful names name := by
  rw [expand_of_callless unquoted callless, rewrite, convertCalls_of_callless callless,
    Except.ok.injEq]
  exact expandRest_eq_writeCalls_iff unquoted

/-- Two variables, one of which is called. -/
def calledNames : Names :=
  ⟨["f".toList, "x".toList], []⟩

/-- Calls of built-in functions, of a variable and of a function of no other name, with parentheses
that call nothing. -/
def nestedCalls : Text :=
  "(f(len(x)) + trim(open(y)))".toList

theorem expand_eq_writeCalls_iff_nested :
    (∀ char ∈ nestedCalls, isQuote char = false) ∧ Callless nestedCalls ∧
      callees nestedCalls = [[], "f".toList, "len".toList, "trim".toList, "open".toList] ∧
      expand calledNames nestedCalls = .ok "($f(count($x)) + trim(fopen(y)))".toList ∧
      ∀ name ∈ callees nestedCalls, Faithful calledNames name := by
  have unquoted : ∀ char ∈ nestedCalls, isQuote char = false := by
    have all : nestedCalls.all (!isQuote ·) = true := by decide
    simpa using all
  have callless : Callless nestedCalls := callless_of_not_mem (by decide)
  have expanded : expand calledNames nestedCalls =
      .ok "($f(count($x)) + trim(fopen(y)))".toList := by decide +kernel
  have written : writeCalls calledNames nestedCalls =
      "($f(count($x)) + trim(fopen(y)))".toList := by decide +kernel
  refine ⟨unquoted, callless, by decide +kernel, expanded, ?_⟩
  exact (expand_eq_writeCalls_iff calledNames unquoted callless).mp (by rw [expanded, written])

/-- A function whose name ends like a built-in function is renamed, and a built-in function is
renamed to a variable. -/
theorem not_faithful_ends :
    ¬Faithful Names.empty "strlen".toList ∧ callees "strlen(s)".toList = ["strlen".toList] ∧
      expand Names.empty "strlen(s)".toList = .ok "strcount(s)".toList ∧
      writeCalls Names.empty "strlen(s)".toList = "strlen(s)".toList ∧
      expand ⟨["count".toList], []⟩ "len(x)".toList = .ok "$count(x)".toList ∧
      writeCalls ⟨["count".toList], []⟩ "len(x)".toList = "count(x)".toList := by
  refine ⟨?_, by decide +kernel, by decide +kernel, by decide +kernel, by decide +kernel,
    by decide +kernel⟩
  rintro (⟨renamed, _⟩ | ⟨ends, _⟩)
  · have others : ∀ pair ∈ builtinNames, pair.1 ≠ "strlen".toList := by decide
    exact others _ renamed rfl
  · exact ends ("len".toList, "count".toList) (by decide) ⟨"str".toList, rfl⟩

end Expr
end Ephp
