import Ephp.Proofs.Keywords
import Ephp.Proofs.Quotation

/-!
# Loops over ranges of numbers

The header of a loop over a range is written as a loop that counts: the counter starts at the first
number, and turns are made as long as it is below the last bound, each of which ends with adding the
step.  Where the step is negative the comparison points the wrong way.  The loop then makes no turn
or never ends, and so it visits the numbers of the range exactly if the step is positive or the two
bounds are the same.
-/

namespace Ephp

/-! ## Numerals -/

namespace Text

/-- The decimal numeral of a number. -/
def decimal (number : Int) : Text :=
  if number < 0 then '-' :: Nat.toDigits 10 number.natAbs else Nat.toDigits 10 number.natAbs

/-- The number of a text of digits, of which there has to be one. -/
def digits? (text : Text) : Option Nat :=
  if text ≠ [] ∧ text.all Char.isDigit = true then some (Nat.ofDigitChars 10 text 0) else none

/-- The number of a numeral. -/
def integer? : Text → Option Int
  | '-' :: digits => (digits? digits).map fun size : Nat => -(size : Int)
  | digits => (digits? digits).map fun size : Nat => (size : Int)

theorem isDigit_of_mem_toDigits {size : Nat} : ∀ char ∈ Nat.toDigits 10 size, char.isDigit = true :=
  fun _ mem => Nat.isDigit_of_mem_toDigits (by decide) (by decide) mem

theorem digits?_toDigits (size : Nat) : digits? (Nat.toDigits 10 size) = some size := by
  have checked : (Nat.toDigits 10 size).all Char.isDigit = true :=
    List.all_eq_true.mpr isDigit_of_mem_toDigits
  rw [digits?, if_pos ⟨Nat.toDigits_ne_nil, checked⟩,
    Nat.ofDigitChars_toDigits (by decide) (by decide)]

theorem integer?_decimal (number : Int) : integer? (decimal number) = some number := by
  rw [decimal]
  split
  · rename_i negative
    rw [integer?, digits?_toDigits, Option.map_some]
    exact congrArg some (by omega)
  · rename_i positive
    have digits := digits?_toDigits number.natAbs
    have unsigned (rest : Text) : Nat.toDigits 10 number.natAbs ≠ '-' :: rest := fun signed =>
      absurd (isDigit_of_mem_toDigits '-' (signed ▸ List.mem_cons_self)) (by decide)
    rw [integer?, digits, Option.map_some]
    · exact congrArg some (by omega)
    · exact fun rest => unsigned rest

theorem mem_decimal {number : Int} {char : Char} (mem : char ∈ decimal number) :
    char = '-' ∨ char.isDigit = true := by
  rw [decimal] at mem
  split at mem
  · exact (List.mem_cons.mp mem).imp_right (isDigit_of_mem_toDigits char)
  · exact .inr (isDigit_of_mem_toDigits char mem)

theorem not_mem_decimal {number : Int} {mark : Char} (other : mark ≠ '-')
    (letter : mark.isDigit = false) : mark ∉ decimal number := by
  intro mem
  rcases mem_decimal mem with rfl | digit
  · exact other rfl
  · simp [letter] at digit

theorem isWordChar_of_isDigit {char : Char} (digit : char.isDigit = true) :
    isWordChar char = true := by
  have letter : char.isAlphanum = true := isAlphanum_iff.mpr (.inr digit)
  exact Grammar.isWordChar_of_isIdentRest (Bool.or_eq_true_iff.mpr (.inl letter))

theorem isIdentStart_of_isDigit {char : Char} (digit : char.isDigit = true) :
    isIdentStart char = false := by
  have zero : '0'.toNat = 0x30 := rfl
  have nine : '9'.toNat = 0x39 := rfl
  rw [Char.isDigit_iff_toNat] at digit
  refine Bool.or_eq_false_iff.mpr ⟨?_, beq_eq_false_iff_ne.mpr ?_⟩
  · rw [← Bool.not_eq_true, isAlpha_iff, isUpper_iff, isLower_iff]
    omega
  · rintro rfl
    exact absurd digit (by decide)

/-- A numeral is a word, or a word behind a sign. -/
theorem exists_decimal (number : Int) :
    ∃ digits, Expr.IsWord digits ∧ (∀ char ∈ digits, char.isDigit = true) ∧
      (decimal number = digits ∨ decimal number = '-' :: digits) := by
  refine ⟨Nat.toDigits 10 number.natAbs, ⟨Nat.toDigits_ne_nil, ?_⟩, isDigit_of_mem_toDigits, ?_⟩
  · exact fun char mem => isWordChar_of_isDigit (isDigit_of_mem_toDigits char mem)
  · rw [decimal]
    split
    · exact .inr rfl
    · exact .inl rfl

theorem isBlank_of_mem_decimal {number : Int} : ∀ char ∈ decimal number, isBlank char = false := by
  intro char mem
  rcases mem_decimal mem with rfl | digit
  · rfl
  · exact isBlank_of_isWordChar (isWordChar_of_isDigit digit)

/-- The items of a text are those that it is joined from. -/
theorem items_join {texts : List Text} (filled : texts ≠ [])
    (plain : ∀ text ∈ texts, ',' ∉ text ∧ text.strip = text) :
    items (join ", ".toList texts) = texts := by
  have spaced (text : Text) : items (' ' :: text) = items text := by
    obtain ⟨first, others, split⟩ := List.exists_cons_of_ne_nil (List.splitOn_ne_nil ',' text)
    rw [items, items, List.splitOn_cons_eq_if_modifyHead, if_neg (by decide), split]
    simp [strip_blank_cons]
  induction texts with
  | nil => exact absurd rfl filled
  | cons first texts ih =>
      obtain ⟨⟨absent, stripped⟩, plain⟩ := List.forall_mem_cons.mp plain
      cases texts with
      | nil => rw [join_singleton, items, List.splitOn_eq_singleton absent, List.map_singleton,
          stripped]
      | cons second texts =>
          have cut : join ", ".toList (first :: second :: texts) =
              first ++ ',' :: ' ' :: join ", ".toList (second :: texts) := by
            rw [join_cons_cons, List.append_assoc]
            rfl
          rw [cut, items, List.splitOn_append_cons_self_of_not_mem absent, List.map_cons, stripped]
          exact congrArg (first :: ·) ((spaced _).trans (ih (by simp) plain))

end Text

theorem Expr.IsWord.spells {text : Text} (word : IsWord text) : Span.word.Spells text := by
  obtain ⟨first, others, rfl⟩ := List.exists_cons_of_ne_nil word.filled
  obtain ⟨letter, letters⟩ := List.forall_mem_cons.mp word.letters
  exact ⟨first, others, rfl, letter, letters⟩

/-! ## Ranges -/

/-- A range of numbers: where it starts, where it stops and how far its numbers are apart. -/
structure Range where
  start : Int
  stop : Int
  step : Int
deriving DecidableEq, Repr

namespace Range

variable {range : Range}

/-- A number is not beyond the end of a range, which does not belong to it. -/
def Has (range : Range) (number : Int) : Prop :=
  if 0 < range.step then number < range.stop else range.stop < number

/-- How many numbers a range has. -/
def size (range : Range) : Nat :=
  if 0 < range.step then ((range.stop - range.start + range.step - 1) / range.step).toNat
  else ((range.start - range.stop - range.step - 1) / -range.step).toNat

/-- The numbers of a range, in order. -/
def numbers (range : Range) : List Int :=
  (List.range range.size).map fun index : Nat => range.start + range.step * index

/-- The rest of a range behind its first number. -/
def tail (range : Range) : Range :=
  { range with start := range.start + range.step }

/-- A range has as many numbers as can be counted off from its start before its end. -/
theorem lt_size_iff (moves : range.step ≠ 0) {index : Nat} :
    index < range.size ↔ range.Has (range.start + range.step * index) := by
  have product : (index + 1) * range.step = range.step * index + range.step := by
    rw [Int.add_mul, Int.one_mul, Int.mul_comm]
  have opposite : (index + 1) * -range.step = -(range.step * index + range.step) := by
    rw [Int.mul_neg, product]
  rw [size, Has]
  split
  · rename_i ascends
    rw [Int.lt_toNat, ← Int.add_one_le_iff, Int.le_ediv_iff_mul_le ascends, product]
    omega
  · rename_i descends
    rw [Int.lt_toNat, ← Int.add_one_le_iff, Int.le_ediv_iff_mul_le (by omega), opposite]
    omega

theorem numbers_of_not_has (moves : range.step ≠ 0) (empty : ¬range.Has range.start) :
    range.numbers = [] := by
  have none : ¬0 < range.size := by simpa [lt_size_iff moves] using empty
  rw [numbers, Nat.eq_zero_of_not_pos none]
  rfl

theorem numbers_of_has (moves : range.step ≠ 0) (filled : range.Has range.start) :
    range.numbers = range.start :: range.tail.numbers := by
  have some : 0 < range.size := by simpa [lt_size_iff moves] using filled
  have shifted (index : Nat) : range.start + range.step * (index + 1 : Nat) =
      range.tail.start + range.tail.step * index := by
    rw [Int.natCast_add, Int.mul_add]
    change _ = range.start + range.step + range.step * index
    omega
  have size : range.size = range.tail.size + 1 := by
    have counts (index : Nat) : index + 1 < range.size ↔ index < range.tail.size := by
      rw [lt_size_iff moves, lt_size_iff (show range.tail.step ≠ 0 from moves), shifted]
      rfl
    have below := counts range.tail.size
    have above := counts (range.size - 1)
    omega
  rw [numbers, size, List.range_succ_eq_map, List.map_cons, List.map_map, numbers]
  congr 1
  · simp
  · exact List.map_congr_left fun index _ => shifted index

end Range

/-! ## Loops that count -/

/-- A loop that counts: its turns are made with the counter at `start` at first, as long as it is
below `stop`, and after each of them `step` is added to it. -/
structure CountingLoop where
  counter : Text
  start : Int
  stop : Int
  step : Int
deriving DecidableEq, Repr

namespace CountingLoop

variable {loop : CountingLoop} {value : Int} {values others : List Int}

/-- From a value of the counter on, a loop makes turns with the listed values and ends. -/
inductive Visits (loop : CountingLoop) : Int → List Int → Prop
  | done {value : Int} (left : ¬value < loop.stop) : Visits loop value []
  | turn {value : Int} {values : List Int} (stays : value < loop.stop)
      (rest : Visits loop (value + loop.step) values) : Visits loop value (value :: values)

/-- A loop makes turns with the listed values and ends. -/
def Runs (loop : CountingLoop) (values : List Int) : Prop :=
  loop.Visits loop.start values

/-- A decimal numeral, or a sign. -/
def numeral : Span :=
  .headed .longest (fun char => char == '-' || char.isDigit) Char.isDigit

/-- The header of a loop that counts. -/
def header : Pattern (Text × Text × Text × Text × Text × Text × Unit) :=
  .fixed "for ($".toList <| .keep .word <| .fixed " = ".toList <| .keep numeral <|
    .fixed "; $".toList <| .keep .word <| .fixed " < ".toList <| .keep numeral <|
      .fixed "; $".toList <| .keep .word <| .fixed " += ".toList <| .keep numeral <|
        .fixed ") \x7b".toList .ending

/-- The loop that a header spells, which has the same counter in all places. -/
def read? (line : Text) : Option CountingLoop :=
  (header.match? line).bind fun ((counter, start, tested, stop, changed, step, _), _) =>
    if tested = counter ∧ changed = counter then do
      return ⟨counter, ← Text.integer? start, ← Text.integer? stop, ← Text.integer? step⟩
    else none

/-- A loop has one run at most. -/
theorem Visits.unique (first : loop.Visits value values) (second : loop.Visits value others) :
    values = others := by
  induction first generalizing others with
  | done left =>
      cases second with
      | done _ => rfl
      | turn stays _ => exact absurd stays left
  | turn stays _ ih =>
      cases second with
      | done left => exact absurd stays left
      | turn _ rest => rw [ih rest]

/-- A loop that does not count up leaves no value below its end. -/
theorem Visits.not_lt (visits : loop.Visits value values) (descends : loop.step ≤ 0) :
    ¬value < loop.stop := by
  induction visits with
  | done left => exact left
  | turn stays _ ih => omega

/-- A loop that counts up makes a turn with each number of its range. -/
theorem visits_numbers (ascends : 0 < loop.step) :
    loop.Visits value (Range.numbers ⟨value, loop.stop, loop.step⟩) := by
  have moves : loop.step ≠ 0 := by omega
  have has_iff (value : Int) :
      Range.Has ⟨value, loop.stop, loop.step⟩ value ↔ value < loop.stop := by
    rw [Range.Has, if_pos ascends]
  generalize size : (Range.numbers ⟨value, loop.stop, loop.step⟩).length = length
  induction length generalizing value with
  | zero =>
      rw [List.length_eq_zero_iff] at size
      rw [size]
      refine .done fun stays => ?_
      rw [Range.numbers_of_has moves ((has_iff value).mpr stays)] at size
      cases size
  | succ length ih =>
      by_cases stays : value < loop.stop
      · have filled := Range.numbers_of_has moves ((has_iff value).mpr stays)
        rw [filled] at size ⊢
        exact .turn stays (ih (Nat.succ.inj size))
      · rw [Range.numbers_of_not_has moves (mt (has_iff value).mp stays)] at size
        cases size

/-- A loop with the bounds and the step of a range visits the numbers of the range exactly if it
counts up or the bounds are the same. -/
theorem runs_numbers_iff (moves : loop.step ≠ 0) :
    loop.Runs (Range.numbers ⟨loop.start, loop.stop, loop.step⟩) ↔
      0 < loop.step ∨ loop.start = loop.stop := by
  have empty (bounded : ¬Range.Has ⟨loop.start, loop.stop, loop.step⟩ loop.start) :
      Range.numbers ⟨loop.start, loop.stop, loop.step⟩ = [] :=
    Range.numbers_of_not_has moves bounded
  constructor
  · intro runs
    by_contra neither
    obtain ⟨descends, differs⟩ := not_or.mp neither
    have past := Visits.not_lt runs (by omega)
    have filled : Range.Has ⟨loop.start, loop.stop, loop.step⟩ loop.start := by
      rw [Range.Has, if_neg descends]
      change loop.stop < loop.start
      omega
    rw [Runs, Range.numbers_of_has moves filled] at runs
    cases runs with
    | turn stays _ => exact past stays
  · rintro (ascends | same)
    · exact visits_numbers ascends
    · have bounded : ¬Range.Has ⟨loop.start, loop.stop, loop.step⟩ loop.start := by
        rw [Range.Has]
        change ¬if 0 < loop.step then loop.start < loop.stop else loop.stop < loop.start
        split <;> omega
      rw [Runs, empty bounded]
      exact .done (by omega)

/-- A loop ends exactly if it counts up or its counter is not below the end at first. -/
theorem exists_runs_iff :
    (∃ values, loop.Runs values) ↔ 0 < loop.step ∨ loop.stop ≤ loop.start := by
  constructor
  · rintro ⟨values, runs⟩
    by_contra neither
    obtain ⟨descends, before⟩ := not_or.mp neither
    exact Visits.not_lt runs (by omega) (by omega)
  · rintro (ascends | past)
    · exact ⟨_, visits_numbers ascends⟩
    · exact ⟨[], .done (by omega)⟩

/-- The header of a loop is read back. -/
theorem read?_header {counter : Text} (word : Expr.IsWord counter) (start stop step : Int) :
    read? ("for ($".toList ++ counter ++ " = ".toList ++ Text.decimal start ++ "; $".toList ++
        counter ++ " < ".toList ++ Text.decimal stop ++ "; $".toList ++ counter ++
        " += ".toList ++ Text.decimal step ++ [')'] ++ " \x7b".toList) =
      some ⟨counter, start, stop, step⟩ := by
  have spelled := word.spells
  have numbered (number : Int) : numeral.Spells (Text.decimal number) := by
    obtain ⟨digits, word, all, same | same⟩ := Text.exists_decimal number
    · obtain ⟨first, others, rfl⟩ := List.exists_cons_of_ne_nil word.filled
      obtain ⟨digit, all⟩ := List.forall_mem_cons.mp all
      exact ⟨first, others, same, by simp [digit], all⟩
    · exact ⟨'-', digits, same, rfl, all⟩
  have matched : header.Reads ("for ($".toList ++ (counter ++ (" = ".toList ++
      (Text.decimal start ++ ("; $".toList ++ (counter ++ (" < ".toList ++ (Text.decimal stop ++
        ("; $".toList ++ (counter ++ (" += ".toList ++ (Text.decimal step ++
          ") \x7b".toList))))))))))))
      (counter, Text.decimal start, counter, Text.decimal stop, counter, Text.decimal step, ()) :=
    .fixed rfl (.keep rfl spelled rfl (.fixed rfl (.keep rfl (numbered start) rfl (.fixed rfl
      (.keep rfl spelled rfl (.fixed rfl (.keep rfl (numbered stop) rfl (.fixed rfl (.keep rfl
        spelled rfl (.fixed rfl (.keep rfl (numbered step) rfl (.fixed rfl .ending))))))))))))
  simp only [List.append_assoc]
  change (header.match? (_ ++ (_ ++ (_ ++ (_ ++ (_ ++ (_ ++ (_ ++ (_ ++ (_ ++ (_ ++ (_ ++ (_ ++
    ") \x7b".toList))))))))))))).bind _ = _
  rw [show header.match? _ = some (_, []) from matched]
  simp [Text.integer?_decimal]

end CountingLoop

/-! ## Converting a loop over a range -/

/-- The arguments of a range: the end, both bounds, or the bounds and the step. -/
inductive RangeCall where
  | upTo (stop : Int)
  | between (start stop : Int)
  | stepping (start stop step : Int)
deriving DecidableEq, Repr

namespace RangeCall

/-- The range that is called for. -/
def range : RangeCall → Range
  | upTo stop => ⟨0, stop, 1⟩
  | between start stop => ⟨start, stop, 1⟩
  | stepping start stop step => ⟨start, stop, step⟩

/-- The arguments in their order. -/
def arguments : RangeCall → List Int
  | upTo stop => [stop]
  | between start stop => [start, stop]
  | stepping start stop step => [start, stop, step]

/-- The arguments as they stand in the source. -/
def text (call : RangeCall) : Text :=
  Text.join ", ".toList (call.arguments.map Text.decimal)

/-- The header of a loop over the range. -/
def loopHeader (counter : Text) (call : RangeCall) : Text :=
  "for ".toList ++ (counter ++ (" in ".toList ++ ("range(".toList ++ (call.text ++ "):".toList))))

theorem loopHeader_eq (counter : Text) (call : RangeCall) : call.loopHeader counter =
    "for ".toList ++ (counter ++ (" in ".toList ++ ("range(".toList ++
      (call.text ++ "):".toList)))) := rfl

theorem bounds_text (call : RangeCall) :
    Statement.Bounds.ofItems call.text.items =
      ⟨Text.decimal call.range.start, Text.decimal call.range.stop,
        Text.decimal call.range.step⟩ := by
  have zero : Text.decimal 0 = ['0'] := by decide +kernel
  have one : Text.decimal 1 = ['1'] := by decide +kernel
  rw [text, Text.items_join]
  · cases call with
    | upTo stop => rw [range, zero, one]; rfl
    | between start stop => rw [range, one]; rfl
    | stepping start stop step => rfl
  · cases call <;> simp [arguments]
  · intro text mem
    obtain ⟨number, _, rfl⟩ := List.mem_map.mp mem
    exact ⟨Text.not_mem_decimal (by decide) (by decide),
      Text.strip_of_solid Text.isBlank_of_mem_decimal⟩

theorem mem_text {call : RangeCall} {char : Char} (mem : char ∈ call.text) :
    char = ',' ∨ char = ' ' ∨ char = '-' ∨ char.isDigit = true := by
  rcases Grammar.mem_join mem with mem | ⟨text, text_mem, mem⟩
  · have listed : char = ',' ∨ char = ' ' := by simpa using mem
    exact listed.imp_right .inl
  · obtain ⟨number, _, rfl⟩ := List.mem_map.mp text_mem
    exact .inr (.inr (Text.mem_decimal mem))

end RangeCall

namespace Expr

/-- A numeral is expanded to itself, whatever names are known. -/
theorem expand_decimal (names : Names) (number : Int) :
    expand names (Text.decimal number) = .ok (Text.decimal number) := by
  have foreign : ∀ word ∈ triggers, word.any (fun char => char != '-' && !char.isDigit) = true := by
    decide
  have bare : Bare (Text.decimal number) := by
    refine ⟨fun word mem stands => ?_, fun front => ?_, fun front => ?_⟩
    · obtain ⟨char, char_mem, letter⟩ := List.any_eq_true.mp (foreign word mem)
      simp only [Bool.and_eq_true, bne_iff_ne, Bool.not_eq_true'] at letter
      exact Text.not_mem_decimal letter.1 letter.2 (stands.subset char_mem)
    · exact Text.not_mem_decimal (by decide) (by decide) (front.subset List.mem_cons_self)
    · exact Text.not_mem_decimal (by decide) (by decide) (front.subset List.mem_cons_self)
  have unquoted : ∀ char ∈ Text.decimal number, isQuote char = false := by
    intro char mem
    rcases Text.mem_decimal mem with rfl | digit
    · rfl
    · exact isQuote_of_isWordChar (Text.isWordChar_of_isDigit digit)
  have unmarked {digits : Text} (word : IsWord digits)
      (all : ∀ char ∈ digits, char.isDigit = true) : markVariables names digits = digits := by
    have plain : digits.isIdentifier = false := by
      obtain ⟨first, others, rfl⟩ := List.exists_cons_of_ne_nil word.filled
      simp [Text.isIdentifier, Text.isIdentStart_of_isDigit (all first List.mem_cons_self)]
    refine (mapRuns_single word).trans ?_
    rw [markRun, if_neg (by simp [Names.takesSigil, plain])]
  rw [bare.expand_eq, parts_of_quoteless unquoted, flatMap_ofCode rfl]
  refine congrArg Except.ok ?_
  change markVariables names _ = _
  obtain ⟨digits, word, all, same | same⟩ := Text.exists_decimal number
  · rw [same, unmarked word all]
  · rw [same, markVariables_cons (by decide), unmarked word all]

end Expr

namespace Conversion

open Statement

variable {counter : Text}

theorem read?_loopHeader (word : Expr.IsWord counter) (call : RangeCall) :
    read? (call.loopHeader counter) = some (.countLoop counter call.text) := by
  have listed {mark : Char} (other : mark ≠ ',' ∧ mark ≠ ' ' ∧ mark ≠ '-')
      (letter : mark.isDigit = false) : mark ∉ call.text := by
    intro mem
    rcases RangeCall.mem_text mem with rfl | rfl | rfl | digit
    · exact other.1 rfl
    · exact other.2.1 rfl
    · exact other.2.2 rfl
    · simp [letter] at digit
  have inline : Span.leastOrNothing.Spells call.text := by
    intro char mem
    simpa [Text.isInline] using fun same : char = '\n' =>
      listed (by decide) (by decide) (same ▸ mem)
  have solid (rest : Text) : (counter ++ rest).Stops Text.isBlank := by
    obtain ⟨first, others, rfl⟩ := List.exists_cons_of_ne_nil word.filled
    exact Text.isBlank_of_isWordChar (word.letters first List.mem_cons_self)
  have here : countLoopForm (call.loopHeader counter) = some (.countLoop counter call.text) := by
    refine form_of_reads (counter, call.text, ()) (.fixed rfl (.gap (solid _)
      (.keep rfl word.spells rfl (.gap rfl (.fixed rfl (.gap rfl ?_))))))
    exact .fixed rfl (.upTo rfl inline (listed (by decide) (by decide)) (.fixed rfl .ending))
  have equals : ∀ mark ∈ ['='], mark ∉ call.loopHeader counter := by
    intro mark mem
    rw [List.mem_singleton.mp mem]
    have unnamed : '=' ∉ counter := word.not_mem (by decide)
    have unlisted : '=' ∉ call.text := listed (by decide) (by decide)
    simp only [RangeCall.loopHeader_eq, List.mem_append, not_or]
    exact ⟨by decide, unnamed, by decide, by decide, unlisted, by decide⟩
  exact Grammar.read?_of_first (some .forWord) (.keyword rfl) equals here rfl

theorem isBody_loopHeader (word : Expr.IsWord counter) (call : RangeCall) :
    (call.loopHeader counter).IsBody := by
  have shape : call.loopHeader counter =
      'f' :: (("or ".toList ++ (counter ++ (" in range(".toList ++ (call.text ++ [')'])))) ++
        [':']) := by
    simp only [RangeCall.loopHeader_eq, List.append_assoc]
    rfl
  have letters : Text.isUnbroken counter = true :=
    List.all_eq_true.mpr fun char mem => by
      simp [isLineBreak_of_visible (Text.isBlank_of_isWordChar (word.letters char mem))]
  have numerals : Text.isUnbroken call.text = true :=
    List.all_eq_true.mpr fun char mem => by
      rcases RangeCall.mem_text mem with rfl | rfl | rfl | digit
      · rfl
      · rfl
      · rfl
      · simp [isLineBreak_of_visible
          (Text.isBlank_of_isWordChar (Text.isWordChar_of_isDigit digit))]
  rw [shape]
  refine isBody_of_ends rfl rfl (by decide) ?_
  simp only [Text.isUnbroken, List.all_append, Bool.and_eq_true] at letters numerals ⊢
  exact ⟨by decide, letters, by decide, numerals, by decide⟩

/-- The header of a loop over a range is written as the header of a loop that counts, whatever comes
before it.  The loop that is written visits the numbers of the range and ends exactly if the step is
positive or the range starts where it stops.  It ends at all exactly if the step is positive or the
range does not start below its end. -/
theorem counting_visits_range_iff (state : State) {indent : Int} (nonneg : 0 ≤ indent)
    (word : Expr.IsWord counter) (call : RangeCall) (moves : call.range.step ≠ 0) :
    ∃ header loop, convertLine (Text.indentation indent ++ call.loopHeader counter) state =
        .ok () ((((state.dedent indent).emit indent header).openBlock .countLoop
          (indent + 4)).declare counter) ∧
      CountingLoop.read? header = some loop ∧ loop.counter = counter ∧
      (loop.Runs call.range.numbers ↔ 0 < call.range.step ∨ call.range.start = call.range.stop) ∧
      ((∃ values, loop.Runs values) ↔
        0 < call.range.step ∨ call.range.stop ≤ call.range.start) := by
  refine ⟨_, ⟨counter, call.range.start, call.range.stop, call.range.step⟩, ?_,
    CountingLoop.read?_header word _ _ _, rfl, CountingLoop.runs_numbers_iff moves,
    CountingLoop.exists_runs_iff⟩
  rw [convertLine_of_isBody nonneg (isBody_loopHeader word call),
    convertBody_of_applies (read?_loopHeader word call) rfl]
  simp only [perform, call.bounds_text, bind_eq_ok, expand_eq_ok, Expr.expand_decimal, openBlock,
    declare, modify_eq_ok]
  exact ⟨_, _, ⟨rfl, rfl⟩, _, _, ⟨rfl, rfl⟩, _, _, ⟨rfl, rfl⟩, (), _, rfl, rfl⟩

theorem counting_visits_range_iff_ascending :
    (RangeCall.stepping (-2) 5 3).range.numbers = [-2, 1, 4] ∧
      ∃ header loop after, convertLine (Text.indentation 4 ++
          (RangeCall.stepping (-2) 5 3).loopHeader "é".toList) State.initial = .ok () after ∧
        after.lines = [Text.indentation 4 ++ header] ∧ CountingLoop.read? header = some loop ∧
        loop.Runs [-2, 1, 4] := by
  have numbers : (RangeCall.stepping (-2) 5 3).range.numbers = [-2, 1, 4] := by decide
  have word : Expr.IsWord "é".toList := by decide
  obtain ⟨header, loop, done, read, _, visits, _⟩ := counting_visits_range_iff State.initial
    (by decide : (0 : Int) ≤ 4) word (.stepping (-2) 5 3) (by decide)
  rw [numbers] at visits
  exact ⟨numbers, header, loop, _, done, rfl, read, visits.mpr (.inl (by decide))⟩

/-- A loop over a range that counts down makes no turn, although the range has numbers. -/
theorem not_runs_countdown :
    (RangeCall.stepping 3 0 (-1)).range.numbers = [3, 2, 1] ∧
      ∃ header loop after, convertLine "for i in range(3, 0, -1):".toList State.initial =
          .ok () after ∧
        after.lines = [header] ∧ CountingLoop.read? header = some loop ∧
        ¬loop.Runs [3, 2, 1] ∧ loop.Runs [] := by
  have numbers : (RangeCall.stepping 3 0 (-1)).range.numbers = [3, 2, 1] := by decide
  have read : CountingLoop.read? "for ($i = 3; $i < 0; $i += -1) \x7b".toList =
      some ⟨"i".toList, 3, 0, -1⟩ := by decide +kernel
  obtain ⟨_, after, done, lines⟩ := passes_iff.mp
    (by decide +kernel : (convertLine "for i in range(3, 0, -1):".toList).passes
      (fun _ after => after.lines == ["for ($i = 3; $i < 0; $i += -1) \x7b".toList])
      State.initial = true)
  refine ⟨numbers, _, _, after, done, beq_iff_eq.mp lines, read, fun runs => ?_, .done (by decide)⟩
  exact absurd (runs.unique (.done (by decide))) (by decide)

end Conversion

end Ephp
