import Ephp.Proofs.Formatless
import Ephp.Proofs.Path
import Ephp.Proofs.Reading

/-!
# When rewriting changes a text

An expression is rewritten before its literals are told apart: method calls become calls, three
built-in functions get other names, and two dots become one.  A text in which none of these stands
is left as it is.  Rewriting a method call or two dots takes a dot away, and no other rewriting adds
one.  Renaming a built-in function adds a letter that no other rewriting takes away.
-/

namespace Ephp

/-! ## Texts that fit a pattern -/

namespace Span

variable {α : Type} {next : Text → Option α} {run rest : Text}

theorem isSome_cutRun {reach : Reach} {admits : Char → Bool}
    (all : ∀ char ∈ run, admits char = true) (success : (next rest).isSome = true) :
    (cutRun reach admits next (run ++ rest)).isSome = true := by
  cases reach with
  | longest =>
      induction run with
      | nil =>
          cases rest with
          | nil => simpa [cutRun, cutLongest] using success
          | cons first rest =>
              simp only [cutRun, List.nil_append, cutLongest]
              split
              · rfl
              · simpa using success
      | cons char run ih =>
          obtain ⟨admitted, all⟩ := List.forall_mem_cons.mp all
          obtain ⟨⟨others, found⟩, cut⟩ := Option.isSome_iff_exists.mp (ih all)
          have cut : cutLongest admits next (run ++ rest) = some (others, found) := cut
          simp [cutRun, cutLongest, admitted, cut]
  | shortest =>
      induction run with
      | nil =>
          cases rest with
          | nil => simpa [cutRun, cutShortest] using success
          | cons first rest =>
              obtain ⟨found, success⟩ := Option.isSome_iff_exists.mp success
              simp [cutRun, cutShortest, success]
      | cons char run ih =>
          obtain ⟨admitted, all⟩ := List.forall_mem_cons.mp all
          obtain ⟨⟨others, found⟩, cut⟩ := Option.isSome_iff_exists.mp (ih all)
          have cut : cutShortest admits next (run ++ rest) = some (others, found) := cut
          simp only [cutRun, List.cons_append, cutShortest, admitted, if_true, cut]
          split <;> rfl

/-- A span can be cut off exactly if it has some reading behind which `next` succeeds. -/
theorem isSome_cut?_iff {span : Span} {text : Text} :
    (span.cut? next text).isSome = true ↔
      ∃ run rest, text = run ++ rest ∧ span.Spells run ∧ (next rest).isSome = true := by
  constructor
  · intro cut
    obtain ⟨⟨run, found⟩, cut⟩ := Option.isSome_iff_exists.mp cut
    obtain ⟨rest, split, spelled, success⟩ := spells_of_cut? cut
    exact ⟨run, rest, split, spelled, by simp [success]⟩
  · rintro ⟨run, rest, rfl, spelled, success⟩
    cases span with
    | free reach admits => exact isSome_cutRun spelled success
    | headed reach starts admits =>
        obtain ⟨first, others, rfl, started, all⟩ := spelled
        simpa [cut?, started] using isSome_cutRun all success

/-- A span that reads at least one character ends with one. -/
theorem exists_last {reach : Reach} {admits : Char → Bool}
    (spelled : (Span.headed reach admits admits).Spells run) :
    ∃ before char, run = before ++ [char] ∧ admits char = true := by
  obtain ⟨first, others, rfl, started, all⟩ := spelled
  have admitted : ∀ char ∈ first :: others, admits char = true :=
    List.forall_mem_cons.mpr ⟨started, all⟩
  obtain ⟨before, char, split⟩ :=
    (List.eq_nil_or_concat (first :: others)).resolve_left (List.cons_ne_nil _ _)
  rw [List.concat_eq_append] at split
  rw [split] at admitted ⊢
  exact ⟨before, char, rfl, admitted char (by simp)⟩

end Span

namespace Pattern

variable {α : Type} {pattern : Pattern α} {text : Text}

/-- A text starts as a pattern says, whichever choice of spans is tried first. -/
def Fits : {α : Type} → Pattern α → Text → Prop
  | _, .stop, _ => True
  | _, .ending, text => text = [] ∨ text = ['\n']
  | _, .fixed word next, text => ∃ rest, text = word ++ rest ∧ next.Fits rest
  | _, .skip span next, text => ∃ run rest, text = run ++ rest ∧ span.Spells run ∧ next.Fits rest
  | _, .keep span next, text => ∃ run rest, text = run ++ rest ∧ span.Spells run ∧ next.Fits rest

theorem isSome_match?_iff : (pattern.match? text).isSome = true ↔ pattern.Fits text := by
  induction pattern generalizing text with
  | stop => simp [match?, Fits]
  | ending =>
      rw [match?, Fits]
      split <;> simp_all
  | fixed word next ih =>
      rw [match?, Fits, Option.isSome_bind, Option.any_eq_true]
      simp only [Text.after?_eq_some_iff, ih]
  | skip span next ih => simp only [match?, Fits, Option.isSome_map, Span.isSome_cut?_iff, ih]
  | keep span next ih => simp only [match?, Fits, Option.isSome_map, Span.isSome_cut?_iff, ih]

/-- A match takes the fixed words out of a text and leaves the kept spans and what is behind. -/
theorem count_of_match? (mark : Char) {behind : Text} {kept : α}
    (matched : pattern.match? text = some (kept, behind)) :
    pattern.marks.count mark + (pattern.fields kept).flatten.count mark + behind.count mark ≤
      text.count mark := by
  induction pattern generalizing text with
  | stop =>
      cases matched
      simp [marks, fields]
  | ending =>
      rw [match?] at matched
      split at matched
      · cases matched
        simp [marks, fields]
      · simp at matched
  | fixed word next ih =>
      obtain ⟨rest, rfl, tail⟩ := match?_fixed_eq_some.mp matched
      have counted := ih tail
      simp only [marks, fields, List.count_append]
      omega
  | skip span next ih =>
      obtain ⟨run, rest, rfl, _, tail⟩ := exists_of_match?_skip matched
      have counted := ih tail
      simp only [marks, fields, List.count_append]
      omega
  | keep span next ih =>
      obtain ⟨run, kept⟩ := kept
      obtain ⟨rest, rfl, _, tail⟩ := exists_of_match?_keep matched
      have counted := ih tail
      simp only [marks, fields, List.flatten_cons, List.count_append]
      omega

end Pattern

/-! ## Substitutions -/

namespace Text

variable {old new text : Text}

theorem replace_eq_self (absent : ¬List.IsInfix old text) : replace old new text = text := by
  refine substitute_eq_self fun rest stands => ?_
  rw [Option.map_eq_none_iff]
  refine Option.eq_none_iff_forall_ne_some.mpr fun behind found => absent ?_
  rw [after?_eq_some_iff.mp found] at stands
  exact (List.prefix_append old behind).isInfix.trans stands.isInfix

theorem substitute_of_eq_none {rule : Text → Option (Text × Text)} {char : Char}
    (idle : rule (char :: text) = none) :
    substitute rule (char :: text) = char :: substitute rule text := by
  rw [substitute, substituteAfter, idle]
  rfl

theorem substitute_of_eq_some {rule : Text → Option (Text × Text)} {char : Char}
    {front written behind : Text}
    (applied : rule (char :: (front ++ behind)) = some (written, behind)) :
    substitute rule (char :: (front ++ behind)) = written ++ substitute rule behind := by
  rw [substitute, substituteAfter, applied]
  simp [substituteAfter_eq]

/-- A rule that takes occurrences of `mark` away and applies somewhere makes a substitution that
takes some away. -/
theorem count_substitute_lt {mark : Char} {rule : Text → Option (Text × Text)}
    (takes : ∀ text written behind, rule text = some (written, behind) →
      List.IsSuffix behind text ∧ written.count mark + behind.count mark < text.count mark)
    (applies : ∃ rest, List.IsSuffix rest text ∧ (rule rest).isSome = true) :
    (substitute rule text).count mark < text.count mark := by
  have keeps (text written behind : Text) (applied : rule text = some (written, behind)) :
      List.IsSuffix behind text ∧ written.count mark + behind.count mark ≤ text.count mark :=
    ⟨(takes _ _ _ applied).1, (takes _ _ _ applied).2.le⟩
  induction text with
  | nil =>
      obtain ⟨rest, stands, applied⟩ := applies
      obtain ⟨⟨written, behind⟩, applied⟩ := Option.isSome_iff_exists.mp applied
      have fewer := (takes _ _ _ applied).2
      simp [List.suffix_nil.mp stands] at fewer
  | cons char text ih =>
      cases applied : rule (char :: text) with
      | some result =>
          obtain ⟨written, behind⟩ := result
          obtain ⟨⟨front, split⟩, fewer⟩ := takes _ _ _ applied
          cases front with
          | nil =>
              rw [List.nil_append] at split
              rw [split] at fewer
              omega
          | cons first front =>
              rw [List.cons_append] at split
              obtain ⟨rfl, rfl⟩ := List.cons.inj split
              have later := count_substitute_le mark rule keeps behind
              rw [substitute_of_eq_some applied, List.count_append]
              omega
      | none =>
          have later := ih (by
            obtain ⟨rest, stands, found⟩ := applies
            rcases List.suffix_cons_iff.mp stands with rfl | stands
            · simp [applied] at found
            · exact ⟨rest, stands, found⟩)
          rw [substitute_of_eq_none applied, List.count_cons, List.count_cons]
          omega

theorem count_replace_lt {mark : Char} (fewer : new.count mark < old.count mark)
    (occurs : List.IsInfix old text) : (replace old new text).count mark < text.count mark := by
  refine count_substitute_lt (fun _ written behind applied => ?_) ?_
  · simp only [Option.map_eq_some_iff, after?_eq_some_iff, Prod.mk.injEq] at applied
    obtain ⟨_, rfl, rfl, rfl⟩ := applied
    exact ⟨List.suffix_append _ _, by simpa using fewer⟩
  · obtain ⟨front, back, rfl⟩ := occurs
    refine ⟨old ++ back, ⟨front, by simp⟩, ?_⟩
    rw [Option.isSome_map, after?_eq_some_iff.mpr rfl]
    rfl

/-- A word that is replaced by one with more of the counted characters adds some to a text wherever
it occurs. -/
theorem countP_replace_ge {counted : Char → Bool} (filled : old ≠ [])
    (more : old.countP counted < new.countP counted) (text : Text) :
    text.countP counted ≤ (replace old new text).countP counted ∧
      (List.IsInfix old text → text.countP counted < (replace old new text).countP counted) := by
  induction text using replace_induct filled with
  | nil => exact ⟨Nat.zero_le _, fun occurs => absurd (List.infix_nil.mp occurs) filled⟩
  | occurrence rest ih =>
      rw [replace_occurrence filled, List.countP_append, List.countP_append]
      omega
  | copied char rest other ih =>
      rw [replace_cons other, List.countP_cons, List.countP_cons]
      refine ⟨Nat.add_le_add_right ih.1 _, fun occurs => ?_⟩
      rcases List.infix_cons_iff.mp occurs with front | later
      · exact absurd front other
      · exact Nat.add_lt_add_right (ih.2 later) _

theorem countP_replace {counted : Char → Bool} (filled : old ≠ [])
    (same : old.countP counted = new.countP counted) (text : Text) :
    (replace old new text).countP counted = text.countP counted := by
  induction text using replace_induct filled with
  | nil => rfl
  | occurrence rest ih =>
      rw [replace_occurrence filled, List.countP_append, List.countP_append, ih, same]
  | copied char rest other ih =>
      rw [replace_cons other, List.countP_cons, List.countP_cons, ih]

end Text

namespace Pattern

variable {α : Type} {pattern : Pattern α} {write : α → Text} {text : Text}

theorem replace_eq_self (idle : ∀ rest, List.IsSuffix rest text → ¬pattern.Fits rest) :
    pattern.replace write text = text := by
  refine Text.substitute_eq_self fun rest stands => ?_
  rw [rule, Option.map_eq_none_iff, ← Option.not_isSome_iff_eq_none, isSome_match?_iff]
  exact idle rest stands

theorem count_replace_lt {mark : Char}
    (takes : ∀ kept, (write kept).count mark <
      pattern.marks.count mark + (pattern.fields kept).flatten.count mark)
    (fits : ∃ rest, List.IsSuffix rest text ∧ pattern.Fits rest) :
    (pattern.replace write text).count mark < text.count mark := by
  refine Text.count_substitute_lt (fun _ written behind applied => ?_) ?_
  · simp only [rule, Option.map_eq_some_iff, Prod.exists, Prod.mk.injEq] at applied
    obtain ⟨kept, _, matched, rfl, rfl⟩ := applied
    have counted := count_of_match? mark matched
    have := takes kept
    exact ⟨isSuffix_of_match? matched, by omega⟩
  · obtain ⟨rest, stands, fits⟩ := fits
    refine ⟨rest, stands, ?_⟩
    rwa [rule, Option.isSome_map, isSome_match?_iff]

end Pattern

/-! ## Calls -/

namespace Expr

variable {method text : Text}

/-- A call of the method `method` on a word, with or without arguments, stands in a text. -/
def Calls (method : Text) (bare : Bool) (text : Text) : Prop :=
  ∃ front char blanks arguments back,
    text = front ++ char :: '.' :: (method ++ (blanks ++ '(' :: (arguments ++ ')' :: back))) ∧
      Text.isWordChar char = true ∧ (∀ blank ∈ blanks, Text.isBlank blank = true) ∧
        ')' ∉ arguments ∧ arguments.isEmpty = bare

theorem calls_iff_methodCall :
    Calls method false text ↔
      ∃ rest, List.IsSuffix rest text ∧ (methodCall method).Fits rest := by
  constructor
  · rintro ⟨front, char, blanks, arguments, back, rfl, word, all, unclosed, filled⟩
    obtain ⟨first, others, rfl⟩ := List.exists_cons_of_ne_nil (List.isEmpty_eq_false_iff.mp filled)
    obtain ⟨first_open, others_open⟩ := not_or.mp (mt List.mem_cons.mpr unclosed)
    refine ⟨_, List.suffix_append _ _, [char], _, rfl, ⟨char, [], rfl, word, by simp⟩,
      _, rfl, blanks, _, rfl, all, _, rfl, first :: others, _, rfl, ⟨first, others, rfl, ?_, ?_⟩,
      _, rfl, trivial⟩
    · simpa using Ne.symm first_open
    · intro other mem
      simpa using fun same : other = ')' => others_open (same ▸ mem)
  · rintro ⟨_, ⟨front, rfl⟩, _, _, rfl, spelled, _, rfl, blanks, _, rfl,
      blank, _, rfl, _, _, rfl, ⟨first, more, rfl, first_open, more_open⟩, back, rfl, -⟩
    obtain ⟨before, char, rfl, word⟩ := Span.exists_last spelled
    refine ⟨front ++ before, char, blanks, first :: more, back, by simp, word, blank, ?_, rfl⟩
    intro mem
    rcases List.mem_cons.mp mem with same | mem
    · simp [← same] at first_open
    · simpa using more_open _ mem

theorem calls_iff_bareMethodCall :
    Calls method true text ↔
      ∃ rest, List.IsSuffix rest text ∧ (bareMethodCall method).Fits rest := by
  constructor
  · rintro ⟨front, char, blanks, arguments, back, rfl, word, all, _, empty⟩
    obtain rfl := List.isEmpty_iff.mp empty
    exact ⟨_, List.suffix_append _ _, [char], _, rfl, ⟨char, [], rfl, word, by simp⟩,
      _, rfl, blanks, _, rfl, all, back, rfl, trivial⟩
  · rintro ⟨_, ⟨front, rfl⟩, _, _, rfl, spelled, _, rfl, blanks, _, rfl,
      blank, back, rfl, -⟩
    obtain ⟨before, char, rfl, word⟩ := Span.exists_last spelled
    exact ⟨front ++ before, char, blanks, [], back, by simp, word, blank, by simp, rfl⟩

/-! ## Rewriting a whole text -/

/-- Rewrite an expression as far as its literals are not spared. -/
def rewrite (text : Text) : Text :=
  Text.replace "..".toList ['.'] (convertCalls text)

/-- No method call that is rewritten stands in a text. -/
structure Callless (text : Text) : Prop where
  split : ¬Calls "split".toList false text
  strip : ¬Calls "strip".toList true text
  append : ¬Calls "append".toList false text

/-- Nothing that is rewritten stands in a text. -/
structure Inert (text : Text) : Prop extends Callless text where
  builtins : ∀ pair ∈ builtins, ¬List.IsInfix pair.1 text
  dots : ¬List.IsInfix "..".toList text

/-- Rewriting that takes a dot away where `found` holds, and does nothing elsewhere. -/
def Thins (step : Text → Text) (found : Text → Prop) : Prop :=
  ∀ text, (¬found text → step text = text) ∧ (found text → (step text).count '.' < text.count '.')

theorem Thins.count_le {step : Text → Text} {found : Text → Prop} (thins : Thins step found)
    (text : Text) : (step text).count '.' ≤ text.count '.' := by
  by_cases here : found text
  · exact ((thins text).2 here).le
  · exact (congrArg _ ((thins text).1 here)).le

theorem thins_replace {α : Type} {pattern : Pattern α} {write : α → Text} {found : Text → Prop}
    (fits_iff : ∀ {text}, found text ↔ ∃ rest, List.IsSuffix rest text ∧ pattern.Fits rest)
    (takes : ∀ kept, (write kept).count '.' <
      pattern.marks.count '.' + (pattern.fields kept).flatten.count '.') :
    Thins (pattern.replace write) found := by
  intro text
  rw [fits_iff]
  exact ⟨fun idle => Pattern.replace_eq_self fun rest stands fits => idle ⟨rest, stands, fits⟩,
    Pattern.count_replace_lt takes⟩

theorem thins_split : Thins convertSplit (Calls "split".toList false) := by
  refine thins_replace calls_iff_methodCall ?_
  rintro ⟨subject, arguments, _⟩
  have opening : "explode(".toList.count '.' = 0 := by decide
  have comma : ", ".toList.count '.' = 0 := by decide
  have closing : [')'].count '.' = 0 := by decide
  have dot : (methodCall "split".toList).marks.count '.' = 1 := by decide
  rw [dot]
  simp only [List.count_append, methodCall, Pattern.fields, List.flatten_cons,
    List.flatten_nil, List.count_nil]
  omega

theorem thins_strip : Thins convertStrip (Calls "strip".toList true) := by
  refine thins_replace calls_iff_bareMethodCall ?_
  rintro ⟨subject, _⟩
  have opening : "trim(".toList.count '.' = 0 := by decide
  have closing : [')'].count '.' = 0 := by decide
  have dot : (bareMethodCall "strip".toList).marks.count '.' = 1 := by decide
  rw [dot]
  simp only [List.count_append, bareMethodCall, Pattern.fields, List.flatten_cons,
    List.flatten_nil, List.count_nil]
  omega

theorem thins_append : Thins convertAppend (Calls "append".toList false) := by
  refine thins_replace calls_iff_methodCall ?_
  rintro ⟨subject, arguments, _⟩
  have target : "[] = ".toList.count '.' = 0 := by decide
  have dot : (methodCall "append".toList).marks.count '.' = 1 := by decide
  rw [dot]
  simp only [List.count_append, methodCall, Pattern.fields, List.flatten_cons,
    List.flatten_nil, List.count_nil]
  omega

theorem thins_dots :
    Thins (Text.replace "..".toList ['.']) (List.IsInfix "..".toList) :=
  fun _ => ⟨Text.replace_eq_self, Text.count_replace_lt (by decide)⟩

theorem respell_cons (pair : Text × Text) (spellings : List (Text × Text)) (text : Text) :
    respell (pair :: spellings) text = respell spellings (Text.replace pair.1 pair.2 text) := rfl

theorem respell_nil (spellings : List (Text × Text)) : respell spellings [] = [] := by
  induction spellings with
  | nil => rfl
  | cons pair spellings ih => exact ih

theorem respell_eq_self {spellings : List (Text × Text)}
    (absent : ∀ pair ∈ spellings, ¬List.IsInfix pair.1 text) : respell spellings text = text := by
  induction spellings with
  | nil => rfl
  | cons pair spellings ih =>
      obtain ⟨first, absent⟩ := List.forall_mem_cons.mp absent
      rw [respell_cons, Text.replace_eq_self first, ih absent]

/-- Respelling works on both sides of a character that no respelled word has. -/
theorem respell_append_cons {spellings : List (Text × Text)} {mark : Char}
    (free : ∀ pair ∈ spellings, pair.1 ≠ [] ∧ mark ∉ pair.1) (front back : Text) :
    respell spellings (front ++ mark :: back) =
      respell spellings front ++ mark :: respell spellings back := by
  induction spellings generalizing front back with
  | nil => rfl
  | cons pair spellings ih =>
      obtain ⟨⟨filled, absent⟩, free⟩ := List.forall_mem_cons.mp free
      rw [respell_cons, Text.replace_append_cons filled absent, ih free]
      rfl

theorem respell_mark {spellings : List (Text × Text)} {mark : Char}
    (free : ∀ pair ∈ spellings, pair.1 ≠ [] ∧ mark ∉ pair.1) (back : Text) :
    respell spellings (mark :: back) = mark :: respell spellings back := by
  have cut := respell_append_cons free [] back
  rwa [respell_nil] at cut

/-- Respelling with words that have no `mark` adds no `mark`. -/
theorem not_mem_respell {spellings : List (Text × Text)} {mark : Char}
    (free : ∀ pair ∈ spellings, pair.2.count mark = 0) (absent : mark ∉ text) :
    mark ∉ respell spellings text := by
  have fewer := count_respell_le free text
  rw [List.count_eq_zero.mpr absent, Nat.le_zero] at fewer
  exact List.count_eq_zero.mp fewer

section Counting

variable {counted : Char → Bool} {spellings : List (Text × Text)}

theorem countP_respell (same : ∀ pair ∈ spellings,
      pair.1 ≠ [] ∧ pair.1.countP counted = pair.2.countP counted) (text : Text) :
    (respell spellings text).countP counted = text.countP counted := by
  induction spellings generalizing text with
  | nil => rfl
  | cons pair spellings ih =>
      obtain ⟨⟨filled, first⟩, same⟩ := List.forall_mem_cons.mp same
      rw [respell_cons, ih same, Text.countP_replace filled first]

/-- Every spelling has more of the counted characters than the word that it is for. -/
def Gains (counted : Char → Bool) (spellings : List (Text × Text)) : Prop :=
  ∀ pair ∈ spellings, pair.1 ≠ [] ∧ pair.1.countP counted < pair.2.countP counted

instance : Decidable (Gains counted spellings) :=
  inferInstanceAs (Decidable (∀ pair ∈ spellings, _))

theorem Gains.countP_ge (gains : Gains counted spellings) (text : Text) :
    text.countP counted ≤ (respell spellings text).countP counted := by
  induction spellings generalizing text with
  | nil => exact Nat.le_refl _
  | cons pair spellings ih =>
      obtain ⟨⟨filled, first⟩, gains⟩ := List.forall_mem_cons.mp gains
      exact (Text.countP_replace_ge filled first text).1.trans (ih gains _)

/-- None of the words stands in a text to which respelling adds no counted character. -/
theorem Gains.absent (gains : Gains counted spellings)
    (kept : (respell spellings text).countP counted ≤ text.countP counted) :
    ∀ pair ∈ spellings, ¬List.IsInfix pair.1 text := by
  induction spellings with
  | nil => simp
  | cons pair spellings ih =>
      obtain ⟨⟨filled, first⟩, gains⟩ := List.forall_mem_cons.mp gains
      rw [respell_cons] at kept
      have bounded := (Gains.countP_ge gains (Text.replace pair.1 pair.2 text)).trans kept
      have absent : ¬List.IsInfix pair.1 text := fun occurs =>
        absurd ((Text.countP_replace_ge filled first text).2 occurs) (Nat.not_lt.mpr bounded)
      rw [Text.replace_eq_self absent] at kept
      exact List.forall_mem_cons.mpr ⟨absent, ih gains kept⟩

theorem Gains.respell_eq_self_iff (gains : Gains counted spellings) :
    respell spellings text = text ↔ ∀ pair ∈ spellings, ¬List.IsInfix pair.1 text :=
  ⟨fun same => gains.absent (congrArg (List.countP counted) same).le, respell_eq_self⟩

end Counting

/-- A character of which a built-in function gets one more with its other name.  No keyword gains or
loses any of these. -/
def isGained (char : Char) : Bool :=
  "cfFv".toList.contains char

theorem gains_builtins : Gains isGained builtins := by
  decide

theorem convertCalls_of_callless (callless : Callless text) :
    convertCalls text = respell builtins text := by
  rw [convertCalls, (thins_split text).1 callless.split, (thins_strip text).1 callless.strip,
    (thins_append text).1 callless.append]

/-- Where the conversion of calls keeps all dots, there is no method call to convert. -/
theorem callless_of_count_le (kept : text.count '.' ≤ (convertCalls text).count '.') :
    Callless text := by
  have renamed (text : Text) : (respell builtins text).count '.' ≤ text.count '.' :=
    count_respell_le (by decide) text
  have called := renamed (convertAppend (convertStrip (convertSplit text)))
  have appended := thins_append.count_le (convertStrip (convertSplit text))
  have stripped := thins_strip.count_le (convertSplit text)
  rw [convertCalls] at kept
  have split : ¬Calls "split".toList false text := fun found => by
    have := (thins_split text).2 found
    omega
  rw [(thins_split text).1 split] at *
  have strip : ¬Calls "strip".toList true text := fun found => by
    have := (thins_strip text).2 found
    omega
  rw [(thins_strip text).1 strip] at *
  have append : ¬Calls "append".toList false text := fun found => by
    have := (thins_append text).2 found
    omega
  exact ⟨split, strip, append⟩

/-- Rewriting that keeps all dots does no more than to rename built-in functions. -/
theorem rewrite_of_count_le (kept : text.count '.' ≤ (rewrite text).count '.') :
    Callless text ∧ rewrite text = respell builtins text := by
  have dots := thins_dots.count_le (convertCalls text)
  have callless : Callless text := callless_of_count_le (kept.trans dots)
  refine ⟨callless, ?_⟩
  have renamed : (respell builtins text).count '.' ≤ text.count '.' :=
    count_respell_le (by decide) text
  rw [rewrite, convertCalls_of_callless callless] at kept ⊢
  refine (thins_dots _).1 fun found => ?_
  have := (thins_dots _).2 found
  omega

/-- Converting calls leaves a text as it is exactly if there are none in it. -/
theorem convertCalls_eq_self_iff :
    convertCalls text = text ↔
      Callless text ∧ ∀ pair ∈ builtins, ¬List.IsInfix pair.1 text := by
  constructor
  · intro same
    have callless := callless_of_count_le (congrArg (List.count '.') same).ge
    rw [convertCalls_of_callless callless, gains_builtins.respell_eq_self_iff] at same
    exact ⟨callless, same⟩
  · rintro ⟨callless, absent⟩
    rw [convertCalls_of_callless callless, respell_eq_self absent]

theorem Inert.convertCalls_eq_self (inert : Inert text) : convertCalls text = text :=
  (convertCalls_of_callless inert.toCallless).trans (respell_eq_self inert.builtins)

/-- Rewriting leaves a text as it is exactly if nothing stands in it that is rewritten. -/
theorem rewrite_eq_self_iff : rewrite text = text ↔ Inert text := by
  constructor
  · intro same
    obtain ⟨callless, renamed⟩ := rewrite_of_count_le (congrArg (List.count '.') same).ge
    rw [same, eq_comm] at renamed
    refine ⟨callless, gains_builtins.respell_eq_self_iff.mp renamed, fun found => ?_⟩
    rw [rewrite, convertCalls_of_callless callless, renamed] at same
    exact absurd (congrArg (List.count '.') same) ((thins_dots text).2 found).ne
  · intro inert
    rw [rewrite, inert.convertCalls_eq_self, (thins_dots text).1 inert.dots]

end Expr
end Ephp
