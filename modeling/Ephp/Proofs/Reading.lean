import Ephp.Proofs.Piece

/-!
# Reading a line by a pattern

A pattern tries several places where a span can end.  On a line whose spans are followed by
characters that they do not admit, or by the mark that the pattern asks for next, the first choice
that succeeds is the one that the line was written with.  On the other hand a pattern does not match
a line that lacks one of its marks, or that starts with another word.
-/

namespace Ephp

/-- A run of characters of the class `admits` does not go on into a text. -/
def Text.Stops (admits : Char → Bool) : Text → Prop
  | [] => True
  | first :: _ => admits first = false

namespace Span

/-- Which of the possible lengths of a span is tried first. -/
def reach : Span → Reach
  | .free reach _ => reach
  | .headed reach _ _ => reach

/-- The characters that a span goes on with. -/
def admits : Span → Char → Bool
  | .free _ admits => admits
  | .headed _ _ admits => admits

/-- A text that a span can read. -/
def Spells : Span → Text → Prop
  | .free _ admits, run => ∀ char ∈ run, admits char = true
  | .headed _ starts admits, run =>
    ∃ first rest, run = first :: rest ∧ starts first = true ∧ ∀ char ∈ rest, admits char = true

variable {α : Type} {next : Text → Option α} {run rest : Text} {found : α}

theorem cutLongest_of_stops {admits : Char → Bool} (stops : rest.Stops admits)
    (success : next rest = some found) : cutLongest admits next rest = some ([], found) := by
  cases rest with
  | nil => simp [cutLongest, success]
  | cons first rest =>
      have refused : admits first = false := stops
      simp [cutLongest, refused, success]

theorem cutLongest_eq_none (admits : Char → Bool) {text : Text}
    (fails : ∀ back, List.IsSuffix back text → next back = none) :
    cutLongest admits next text = none := by
  induction text with
  | nil => simp [cutLongest, fails [] (List.suffix_refl _)]
  | cons char text ih =>
      have later := ih fun back stands => fails back (stands.trans (List.suffix_cons char text))
      simp [cutLongest, later, fails _ (List.suffix_refl _)]

/-- Nothing is cut off if `next` succeeds on the text and on nothing less. -/
theorem cutLongest_of_fails (admits : Char → Bool) (success : next rest = some found)
    (fails : ∀ back, back.length < rest.length → next back = none) :
    cutLongest admits next rest = some ([], found) := by
  cases rest with
  | nil => simp [cutLongest, success]
  | cons first rest =>
      have later := cutLongest_eq_none admits fun back stands =>
        fails back (Nat.lt_succ_of_le (List.IsSuffix.length_le stands))
      simp [cutLongest, later, success]

theorem cutLongest_append {admits : Char → Bool} (all : ∀ char ∈ run, admits char = true)
    (cut : cutLongest admits next rest = some ([], found)) :
    cutLongest admits next (run ++ rest) = some (run, found) := by
  induction run with
  | nil => exact cut
  | cons char run ih =>
      obtain ⟨admitted, all⟩ := List.forall_mem_cons.mp all
      simp [cutLongest, admitted, ih all]

theorem cutShortest_append {admits : Char → Bool} (all : ∀ char ∈ run, admits char = true)
    (success : next rest = some found)
    (fails : ∀ back, List.IsSuffix back run → back ≠ [] → next (back ++ rest) = none) :
    cutShortest admits next (run ++ rest) = some (run, found) := by
  induction run with
  | nil => cases rest <;> simp [cutShortest, success]
  | cons char run ih =>
      obtain ⟨admitted, all⟩ := List.forall_mem_cons.mp all
      have here : next (char :: (run ++ rest)) = none :=
        fails (char :: run) (List.suffix_refl _) (by simp)
      have later := ih all fun back stands =>
        fails back (stands.trans (List.suffix_cons char run))
      simp [cutShortest, admitted, here, later]

/-- A span that tries the longest choice first reads a run if it cannot go on behind it. -/
theorem cut?_of_longest {span : Span} (longest : span.reach = .longest) (spelled : span.Spells run)
    (cut : cutLongest span.admits next rest = some ([], found)) :
    span.cut? next (run ++ rest) = some (run, found) := by
  cases span with
  | free reach admits =>
      obtain rfl : reach = .longest := longest
      exact cutLongest_append spelled cut
  | headed reach starts admits =>
      obtain rfl : reach = .longest := longest
      obtain ⟨first, others, rfl, started, all⟩ := spelled
      have later : cutRun .longest admits next (others ++ rest) = some (others, found) :=
        cutLongest_append all cut
      simp [cut?, started, later]

/-- A span that tries the shortest choice first reads a run if `next` fails inside of it. -/
theorem cut?_of_shortest {span : Span} (shortest : span.reach = .shortest)
    (spelled : span.Spells run) (success : next rest = some found)
    (fails : ∀ back, List.IsSuffix back run → back ≠ [] → next (back ++ rest) = none) :
    span.cut? next (run ++ rest) = some (run, found) := by
  cases span with
  | free reach admits =>
      obtain rfl : reach = .shortest := shortest
      exact cutShortest_append spelled success fails
  | headed reach starts admits =>
      obtain rfl : reach = .shortest := shortest
      obtain ⟨first, others, rfl, started, all⟩ := spelled
      have later : cutRun .shortest admits next (others ++ rest) = some (others, found) :=
        cutShortest_append all success fun back stands =>
          fails back (stands.trans (List.suffix_cons first others))
      simp [cut?, started, later]

theorem spells_of_cut? {span : Span} {text : Text}
    (cut : span.cut? next text = some (run, found)) :
    ∃ rest, text = run ++ rest ∧ span.Spells run ∧ next rest = some found := by
  obtain ⟨rest, split, success⟩ := cut?_eq_some cut
  refine ⟨rest, split, ?_, success⟩
  cases span with
  | free reach admits =>
      obtain ⟨_, _, all, _⟩ := cutRun_eq_some cut
      exact all
  | headed reach starts admits => exact headed_of_cut? cut

end Span

namespace Text

theorem isUpper_iff {char : Char} :
    char.isUpper = true ↔ 0x41 ≤ char.toNat ∧ char.toNat ≤ 0x5A :=
  decide_eq_true_iff

theorem isLower_iff {char : Char} :
    char.isLower = true ↔ 0x61 ≤ char.toNat ∧ char.toNat ≤ 0x7A :=
  Bool.and_eq_true_iff.trans (and_congr decide_eq_true_iff decide_eq_true_iff)

theorem isAlpha_iff {char : Char} :
    char.isAlpha = true ↔ char.isUpper = true ∨ char.isLower = true :=
  Bool.or_eq_true_iff

theorem isAlphanum_iff {char : Char} :
    char.isAlphanum = true ↔ char.isAlpha = true ∨ char.isDigit = true :=
  Bool.or_eq_true_iff

theorem toNat_of_isIdentRest {char : Char} (letter : isIdentRest char = true) :
    0x30 ≤ char.toNat ∧ char.toNat ≤ 0x7A := by
  rcases (Bool.or_eq_true _ _).mp letter with letter | underscore
  · rw [isAlphanum_iff, isAlpha_iff, isUpper_iff, isLower_iff, Char.isDigit_iff_toNat] at letter
    have zero : '0'.toNat = 0x30 := rfl
    have nine : '9'.toNat = 0x39 := rfl
    omega
  · obtain rfl : char = '_' := by simpa using underscore
    decide

theorem isIdentRest_of_isBlank {char : Char} (blank : isBlank char = true) :
    isIdentRest char = false := by
  rw [← Bool.not_eq_true]
  intro letter
  have range := toNat_of_isIdentRest letter
  simp only [isBlank, Bool.or_eq_true, Bool.and_eq_true, decide_eq_true_eq, beq_iff_eq] at blank
  omega

theorem takeWhile_append_of_stops {admits : Char → Bool} {run rest : Text}
    (all : ∀ char ∈ run, admits char = true) (stops : rest.Stops admits) :
    (run ++ rest).takeWhile admits = run := by
  rw [List.takeWhile_append_of_pos all]
  cases rest with
  | nil => simp
  | cons first rest =>
      have refused : admits first = false := stops
      simp [refused]

/-- Where a mark stands for the first time, a text is cut in one way only. -/
theorem eq_of_first {mark : Char} {first second front back : Text} (absent : mark ∉ first)
    (missing : mark ∉ front) (same : first ++ mark :: second = front ++ mark :: back) :
    first = front ∧ second = back := by
  have cut {before after : Text} (free : mark ∉ before) :
      (before ++ mark :: after).takeWhile (· != mark) = before := by
    refine takeWhile_append_of_stops (fun char mem => ?_) (by simp [Stops])
    simpa using fun same : char = mark => free (same ▸ mem)
  have fronts := congrArg (List.takeWhile (· != mark)) same
  rw [cut absent, cut missing] at fronts
  subst fronts
  exact ⟨rfl, (List.cons.inj (List.append_cancel_left same)).2⟩

end Text

namespace Pattern

open Text (isBlank isIdentRest)

variable {α : Type} {next : Pattern α} {kept : α} {run rest : Text}

/-- A pattern reads a text to its end and keeps the spans `kept`. -/
def Reads (pattern : Pattern α) (text : Text) (kept : α) : Prop :=
  pattern.match? text = some (kept, [])

namespace Reads

theorem ending : Reads .ending [] () := rfl

theorem fixed {word text : Text} (split : text = word ++ rest) (tail : Reads next rest kept) :
    Reads (.fixed word next) text kept := by
  rw [Reads, match?, Text.after?_eq_some_iff.mpr split]
  exact tail

theorem skip {span : Span} (longest : span.reach = .longest) (spelled : span.Spells run)
    (stops : rest.Stops span.admits) (tail : Reads next rest kept) :
    Reads (.skip span next) (run ++ rest) kept := by
  rw [Reads, match?, Span.cut?_of_longest longest spelled (Span.cutLongest_of_stops stops tail)]
  rfl

theorem gap (stops : rest.Stops isBlank) (tail : Reads next rest kept) :
    Reads (.skip .gap next) (' ' :: rest) kept :=
  @skip α next kept [' '] rest .gap rfl ⟨' ', [], rfl, rfl, by simp⟩ stops tail

theorem blank (stops : rest.Stops isBlank) (tail : Reads next rest kept) :
    Reads (.skip .blanks next) (' ' :: rest) kept :=
  @skip α next kept [' '] rest .blanks rfl (by simp [Span.Spells, Span.blanks, isBlank]) stops tail

theorem noBlank (stops : rest.Stops isBlank) (tail : Reads next rest kept) :
    Reads (.skip .blanks next) rest kept :=
  @skip α next kept [] rest .blanks rfl (by simp [Span.Spells, Span.blanks]) stops tail

theorem of_cut? {span : Span} {text : Text}
    (cut : span.cut? next.match? text = some (run, kept, [])) :
    Reads (.keep span next) text (run, kept) := by
  rw [Reads, match?, cut]
  rfl

theorem keep {span : Span} (longest : span.reach = .longest) (spelled : span.Spells run)
    (stops : rest.Stops span.admits) (tail : Reads next rest kept) :
    Reads (.keep span next) (run ++ rest) (run, kept) :=
  of_cut? (Span.cut?_of_longest longest spelled (Span.cutLongest_of_stops stops tail))

theorem toEnd {span : Span} (longest : span.reach = .longest) (spelled : span.Spells run) :
    Reads (.keep span .ending) run (run, ()) := by
  have whole : Reads (.keep span .ending) (run ++ []) (run, ()) :=
    keep longest spelled trivial ending
  rwa [List.append_nil] at whole

/-- A span with a final word behind it reads up to the word, although it may admit the word. -/
theorem toWord {span : Span} (word : Text) (longest : span.reach = .longest)
    (spelled : span.Spells run) :
    Reads (.keep span (.fixed word .ending)) (run ++ word) (run, ()) := by
  have tail : Reads (.fixed word .ending) word () := fixed (List.append_nil _).symm ending
  refine of_cut? (Span.cut?_of_longest longest spelled
    (Span.cutLongest_of_fails span.admits tail fun back shorter => ?_))
  refine Option.eq_none_iff_forall_ne_some.mpr fun result matched => ?_
  rw [match?, Option.bind_eq_some_iff] at matched
  obtain ⟨rest, found, _⟩ := matched
  rw [Text.after?_eq_some_iff.mp found, List.length_append] at shorter
  omega

/-- A span that tries the shortest choice first reads up to the first mark. -/
theorem upTo {span : Span} {mark : Char} {word : Text} (shortest : span.reach = .shortest)
    (spelled : span.Spells run) (absent : mark ∉ run)
    (tail : Reads (.fixed (mark :: word) next) rest kept) :
    Reads (.keep span (.fixed (mark :: word) next)) (run ++ rest) (run, kept) := by
  refine of_cut? (Span.cut?_of_shortest shortest spelled tail fun back stands filled => ?_)
  obtain ⟨first, others, rfl⟩ := List.exists_cons_of_ne_nil filled
  have other : mark ≠ first := fun same => absent (same ▸ stands.subset (by simp))
  simp [match?, Text.after?, other]

end Reads

/-- The characters of the fixed words of a pattern. -/
def marks : {α : Type} → Pattern α → Text
  | _, .stop => []
  | _, .ending => []
  | _, .fixed word next => word ++ next.marks
  | _, .skip _ next => next.marks
  | _, .keep _ next => next.marks

theorem match?_fixed_eq_some {word text : Text} {result : α × Text} :
    (Pattern.fixed word next).match? text = some result ↔
      ∃ rest, text = word ++ rest ∧ next.match? rest = some result := by
  rw [match?, Option.bind_eq_some_iff]
  simp only [Text.after?_eq_some_iff]

theorem exists_of_match?_skip {span : Span} {text : Text} {result : α × Text}
    (matched : (Pattern.skip span next).match? text = some result) :
    ∃ run rest, text = run ++ rest ∧ span.Spells run ∧ next.match? rest = some result := by
  simp only [match?, Option.map_eq_some_iff, Prod.exists] at matched
  obtain ⟨run, _, _, cut, rfl⟩ := matched
  exact ⟨run, Span.spells_of_cut? cut⟩

theorem exists_of_match?_keep {span : Span} {text behind : Text}
    (matched : (Pattern.keep span next).match? text = some ((run, kept), behind)) :
    ∃ rest, text = run ++ rest ∧ span.Spells run ∧ next.match? rest = some (kept, behind) := by
  simp only [match?, Option.map_eq_some_iff, Prod.exists, Prod.mk.injEq] at matched
  obtain ⟨_, _, _, cut, ⟨rfl, rfl⟩, rfl⟩ := matched
  exact Span.spells_of_cut? cut

theorem marks_subset_of_match? {pattern : Pattern α} {text behind : Text}
    (matched : pattern.match? text = some (kept, behind)) : pattern.marks ⊆ text := by
  induction pattern generalizing text with
  | stop => simp [marks]
  | ending => simp [marks]
  | fixed word next ih =>
      obtain ⟨rest, rfl, tail⟩ := match?_fixed_eq_some.mp matched
      exact List.append_subset.mpr ⟨List.subset_append_left _ _,
        List.subset_append_of_subset_right _ (ih tail)⟩
  | skip span next ih =>
      obtain ⟨run, rest, rfl, _, tail⟩ := exists_of_match?_skip matched
      exact List.subset_append_of_subset_right _ (ih tail)
  | keep span next ih =>
      obtain ⟨rest, rfl, _, tail⟩ := exists_of_match?_keep matched
      exact List.subset_append_of_subset_right _ (ih tail)

/-- A match of `pattern` goes on to a match of `inner` at a later place of the text. -/
def Leads {β : Type} (pattern : Pattern α) (inner : Pattern β) : Prop :=
  ∀ text result, pattern.match? text = some result →
    ∃ rest answer, List.IsSuffix rest text ∧ inner.match? rest = some answer

namespace Leads

variable {β : Type} {inner : Pattern β}

theorem refl (pattern : Pattern α) : Leads pattern pattern :=
  fun _ _ matched => ⟨_, _, List.suffix_refl _, matched⟩

theorem behind (leads : Leads next inner) {front : Text} {result : α × Text}
    (tail : next.match? rest = some result) :
    ∃ later answer, List.IsSuffix later (front ++ rest) ∧ inner.match? later = some answer := by
  obtain ⟨later, answer, stands, found⟩ := leads _ _ tail
  exact ⟨later, answer, stands.trans (List.suffix_append front rest), found⟩

theorem fixed {word : Text} (leads : Leads next inner) : Leads (.fixed word next) inner := by
  intro text result matched
  obtain ⟨rest, rfl, tail⟩ := match?_fixed_eq_some.mp matched
  exact leads.behind tail

theorem skip {span : Span} (leads : Leads next inner) : Leads (.skip span next) inner := by
  intro text result matched
  obtain ⟨run, rest, rfl, _, tail⟩ := exists_of_match?_skip matched
  exact leads.behind tail

theorem keep {span : Span} (leads : Leads next inner) : Leads (.keep span next) inner := by
  intro text result matched
  obtain ⟨rest, rfl, _, tail⟩ := exists_of_match?_keep matched
  exact leads.behind tail

end Leads

theorem exists_of_match?_gap {text : Text} {result : α × Text}
    (matched : (Pattern.skip .gap next).match? text = some result) :
    ∃ front blank rest, (∀ char ∈ front, isBlank char = true) ∧ isBlank blank = true ∧
      text = front ++ blank :: rest ∧ next.match? rest = some result := by
  obtain ⟨_, rest, rfl, ⟨first, others, rfl, started, all⟩, tail⟩ := exists_of_match?_skip matched
  have blanks : ∀ char ∈ first :: others, isBlank char = true :=
    List.forall_mem_cons.mpr ⟨started, all⟩
  obtain ⟨front, blank, split⟩ := List.eq_nil_or_concat (first :: others) |>.resolve_left (by simp)
  rw [List.concat_eq_append] at split
  rw [split, List.forall_mem_append] at blanks
  exact ⟨front, blank, rest, blanks.1, blanks.2 blank (by simp), by simp [split], tail⟩

/-- A keyword between gaps has a blank on either side. -/
theorem exists_of_match?_gaps {keyword text : Text} {result : α × Text}
    (matched : (Pattern.skip .gap <| .fixed keyword <| .skip .gap next).match? text =
      some result) :
    ∃ front left right rest, (∀ char ∈ front, isBlank char = true) ∧ isBlank left = true ∧
      isBlank right = true ∧ text = front ++ left :: (keyword ++ right :: rest) := by
  obtain ⟨front, left, _, blanks, is_left, rfl, spelled⟩ := exists_of_match?_gap matched
  obtain ⟨_, rfl, tail⟩ := match?_fixed_eq_some.mp spelled
  obtain ⟨more, right, rest, more_blank, is_right, rfl, _⟩ := exists_of_match?_gap tail
  cases more with
  | nil => exact ⟨front, left, right, rest, blanks, is_left, is_right, rfl⟩
  | cons first more =>
      exact ⟨front, left, first, more ++ right :: rest, blanks, is_left,
        more_blank first (by simp), by simp⟩

/-- A pattern that matches only texts whose first identifier characters are `keyword`. -/
def Opens (keyword : Text) (pattern : Pattern α) : Prop :=
  ∀ text behind kept, pattern.match? text = some (kept, behind) →
    text.takeWhile isIdentRest = keyword

theorem opens_of_stops {keyword word : Text} (letters : keyword.all isIdentRest = true)
    (stops : ∀ {rest result}, next.match? rest = some result → (word ++ rest).Stops isIdentRest) :
    Opens keyword (.fixed (keyword ++ word) next) := by
  intro text behind kept matched
  obtain ⟨rest, rfl, tail⟩ := match?_fixed_eq_some.mp matched
  rw [List.append_assoc]
  exact Text.takeWhile_append_of_stops (List.all_eq_true.mp letters) (stops tail)

theorem opens_gap {keyword : Text} (letters : keyword.all isIdentRest = true) :
    Opens keyword (.fixed keyword <| .skip .gap next) := by
  have opens := @opens_of_stops _ (.skip .gap next) keyword [] letters fun matched => by
    obtain ⟨front, blank, rest, blanks, is_blank, rfl, _⟩ := exists_of_match?_gap matched
    cases front with
    | nil => exact Text.isIdentRest_of_isBlank is_blank
    | cons first front => exact Text.isIdentRest_of_isBlank (blanks first (by simp))
  rwa [List.append_nil] at opens

theorem opens_ending {keyword : Text} (letters : keyword.all isIdentRest = true) :
    Opens keyword (.fixed keyword .ending) := by
  have opens := @opens_of_stops _ .ending keyword [] letters fun {rest _} matched => by
    rw [match?] at matched
    split at matched
    · rename_i ended
      rcases ended with rfl | rfl
      · trivial
      · rfl
    · simp at matched
  rwa [List.append_nil] at opens

theorem opens_mark {keyword word : Text} {mark : Char} (letters : keyword.all isIdentRest = true)
    (stops : isIdentRest mark = false) :
    Opens keyword (.fixed (keyword ++ mark :: word) next) :=
  @opens_of_stops _ next keyword (mark :: word) letters fun _ => stops

end Pattern

namespace Statement

variable {α : Type} {pattern : Pattern α} {build : α → Statement} {line : Text}

theorem form_of_reads (kept : α) (reads : pattern.Reads line kept) :
    form pattern build line = some (build kept) := by
  rw [form, show pattern.match? line = some (kept, []) from reads]
  rfl

theorem form_eq_none (fails : ∀ result, pattern.match? line ≠ some result) :
    form pattern build line = none := by
  rw [form, Option.map_eq_none_iff]
  exact Option.eq_none_iff_forall_ne_some.mpr fails

theorem leads_assignment {β : Type} {target : Span} {inner : Pattern β}
    (leads : pattern.Leads inner) : (assignment target pattern).Leads inner :=
  .keep (.skip (.fixed (.skip leads)))

/-- A pattern does not match a line that lacks one of its marks. -/
theorem form_of_not_mem {mark : Char} (absent : mark ∉ line) (needed : mark ∈ pattern.marks) :
    form pattern build line = none :=
  form_eq_none fun _ matched => absent (Pattern.marks_subset_of_match? matched needed)

/-- A pattern that starts with a keyword does not match a line that starts with another word. -/
theorem form_of_opens {keyword : Text} (other : line.takeWhile Text.isIdentRest ≠ keyword)
    (opens : pattern.Opens keyword) : form pattern build line = none :=
  form_eq_none fun _ matched => other (opens _ _ _ matched)

end Statement
end Ephp
