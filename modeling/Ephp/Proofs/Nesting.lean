import Ephp.Proofs.Items
import Ephp.Proofs.Rejection

/-!
# Format texts inside of format texts

The expression of a placeholder is expanded in turn, and it can be a format text again.  Every
level takes one opening brace away at least, and the conversion of calls adds none, although it can
make the expression longer at every level.  So an expression is expanded in no more levels than it
has opening braces, and one for itself.  One level is written once, as a function of what expands
the placeholders, and then run in three ways: to its end, with a bound on the levels, and with a
record of what is asked for.
-/

namespace Ephp
namespace Expr

open Format

/-! ## One level of an expansion -/

/-- Write a segment of a format text, where `call` expands the expression of a placeholder. -/
def writeSegment {m : Type → Type} [Monad m] (call : Text → m Text) : Segment → m Text
  | .literal text => pure (quote text)
  | .placeholder inner => call inner.strip

/-- Expand an expression, where `call` expands the expressions of its placeholders. -/
def expandWith {m : Type → Type} [Monad m] [MonadExcept Fault m] (names : Names)
    (call : Text → m Text) (text : Text) : m Text :=
  match body? (convertCalls text) with
  | some body => do MonadExcept.ofExcept (joinSegments (← (segments body).mapM (writeSegment call)))
  | none => pure (expandPlain names (convertCalls text))

/-- Expand an expression in a number of levels at most.  There is no result if these are used up. -/
def expandWithin (names : Names) : Nat → Text → ExceptT Fault Option Text
  | 0, _ => ExceptT.mk none
  | levels + 1, text => expandWith names (expandWithin names levels) text

theorem expand_eq_expandWith (names : Names) (text : Text) :
    expand names text = expandWith names (expand names) text := by
  have same : expandSegment names = writeSegment (expand names) := by
    funext segment
    cases segment <;> rfl
  rw [expand_eq, expandWith]
  cases found : body? (convertCalls text) with
  | none => rfl
  | some body =>
      simp only [Option.isSome_some, if_true, expandFormat, found, same]
      refine bind_congr fun written => ?_
      cases joinSegments written <;> rfl

/-- Expressions up to the first that cannot be expanded, which is the last one that is tried. -/
def reached (names : Names) : List Text → List Text
  | [] => []
  | text :: others =>
    text :: match expand names text with
      | .ok _ => reached names others
      | .error _ => []

/-- The expressions that are expanded while a text is expanded as a format text. -/
def formatDemands (names : Names) (text : Text) : List Text :=
  match body? text with
  | some body => reached names ((segments body).flatMap segmentExpressions)
  | none => []

/-- The expressions that are expanded while an expression is expanded, one level further in. -/
def demands (names : Names) (text : Text) : List Text :=
  formatDemands names (convertCalls text)

/-- Expressions that are expanded inside of each other, from the outside in. -/
def Nested (names : Names) (texts : List Text) : Prop :=
  texts.IsChain fun outer inner => inner ∈ demands names outer

/-- Expand an expression and write down that this was asked for. -/
def record (names : Names) (text : Text) : ExceptT Fault (StateM (List Text)) Text := do
  modify (· ++ [text])
  MonadExcept.ofExcept (expand names text)

variable {names : Names} {text : Text}

/-! ## The expressions that are asked for -/

/-- A step has an outcome and asks for expressions, in this order. -/
def Asks {α : Type} (step : ExceptT Fault (StateM (List Text)) α) (outcome : Except Fault α)
    (asked : List Text) : Prop :=
  ∀ before, step.run.run before = (outcome, before ++ asked)

namespace Asks

variable {α β : Type} {step : ExceptT Fault (StateM (List Text)) α}
  {next : α → ExceptT Fault (StateM (List Text)) β}

theorem pure (answer : α) : Asks (pure answer) (.ok answer) [] := by
  intro before
  rw [List.append_nil]
  rfl

theorem ofExcept (outcome : Except Fault α) : Asks (MonadExcept.ofExcept outcome) outcome [] := by
  intro before
  rw [List.append_nil]
  cases outcome <;> rfl

theorem record (names : Names) (text : Text) :
    Asks (record names text) (expand names text) [text] := by
  intro before
  unfold Expr.record
  cases expand names text <;> rfl

theorem bind {answer : α} {outcome : Except Fault β} {first second : List Text}
    (one : Asks step (.ok answer) first) (rest : Asks (next answer) outcome second) :
    Asks (step >>= next) outcome (first ++ second) := by
  intro before
  rw [ExceptT.run_bind, StateT.run_bind, one before, ← List.append_assoc, ← rest]
  rfl

theorem stop {fault : Fault} {asked : List Text} (one : Asks step (.error fault) asked) :
    Asks (step >>= next) (.error fault) asked := by
  intro before
  rw [ExceptT.run_bind, StateT.run_bind, one before]
  rfl

/-- Steps that ask for nothing can follow. -/
theorem followed {outcome : Except Fault α} {others : α → Except Fault β} {asked : List Text}
    (one : Asks step outcome asked) (rest : ∀ answer, Asks (next answer) (others answer) []) :
    Asks (step >>= next) (outcome >>= others) asked := by
  cases outcome with
  | error fault => exact one.stop
  | ok answer =>
      have both := one.bind (rest answer)
      rwa [List.append_nil] at both

theorem mapM (names : Names) (segments : List Segment) :
    Asks (segments.mapM (writeSegment (Expr.record names)))
      (segments.mapM (writeSegment (expand names)))
      (reached names (segments.flatMap segmentExpressions)) := by
  induction segments with
  | nil => exact pure []
  | cons segment segments ih =>
      rw [List.mapM_cons, List.mapM_cons, List.flatMap_cons]
      cases segment with
      | literal text =>
          exact (pure (quote text)).bind (ih.followed fun answers => pure (quote text :: answers))
      | placeholder whole =>
          have asked := record names whole.strip
          rw [segmentExpressions, List.singleton_append, reached, writeSegment, writeSegment]
          cases done : expand names whole.strip with
          | error fault =>
              rw [done] at asked
              exact asked.stop
          | ok answer =>
              rw [done] at asked
              exact asked.bind (ih.followed fun answers => pure (answer :: answers))

end Asks

/-- While an expression is expanded, its demands are asked for and nothing else. -/
theorem asks_expandWith (names : Names) (text : Text) :
    Asks (expandWith names (record names) text) (expand names text) (demands names text) := by
  rw [expand_eq_expandWith, demands, formatDemands, expandWith, expandWith]
  cases body? (convertCalls text) with
  | none => exact Asks.pure _
  | some body =>
      refine (Asks.mapM names (segments body)).followed fun written => ?_
      cases joinSegments written <;> exact Asks.ofExcept _

/-! ## Braces -/

theorem reached_subset (names : Names) (texts : List Text) : reached names texts ⊆ texts := by
  induction texts with
  | nil => exact List.Subset.refl _
  | cons text others ih =>
      rw [reached]
      apply List.cons_subset_cons
      split
      · exact ih
      · exact List.nil_subset _

theorem count_lt_of_mem_formatDemands {inner : Text} (mem : inner ∈ formatDemands names text) :
    inner.count '{' < text.count '{' := by
  unfold formatDemands at mem
  split at mem
  · rename_i body found
    obtain ⟨segment, read, mem⟩ := List.mem_flatMap.mp (reached_subset names _ mem)
    cases segment with
    | literal _ => cases mem
    | placeholder whole =>
        obtain rfl := List.mem_singleton.mp mem
        exact count_strip_lt found read
  · cases mem

theorem count_lt_of_mem_demands {inner : Text} (mem : inner ∈ demands names text) :
    inner.count '{' < text.count '{' := by
  have fewer := count_lt_of_mem_formatDemands mem
  rwa [count_convertCalls rfl] at fewer

/-- Along expressions inside of each other the opening braces become fewer. -/
theorem Nested.length_le {inners : List Text} (nested : Nested names (text :: inners)) :
    inners.length ≤ text.count '{' := by
  induction inners generalizing text with
  | nil => exact Nat.zero_le _
  | cons inner inners ih =>
      obtain ⟨mem, nested⟩ := List.isChain_cons_cons.mp nested
      have fewer := count_lt_of_mem_demands mem
      have later := ih nested
      rw [List.length_cons]
      omega

/-! ## Expanding in a number of levels -/

/-- An action that may be given up, but whose result is otherwise that of another one. -/
def Tracks {α : Type} (bounded : ExceptT Fault Option α) (action : Except Fault α) : Prop :=
  ∀ result, bounded.run = some result → result = action

namespace Tracks

variable {α β : Type}

theorem pure (answer : α) : Tracks (pure answer) (.ok answer) := by
  rintro _ ⟨⟩
  rfl

theorem ofExcept (action : Except Fault α) :
    Tracks (MonadExcept.ofExcept action) (MonadExcept.ofExcept action) := by
  cases action with
  | ok answer => exact pure answer
  | error fault =>
      rintro _ ⟨⟩
      rfl

theorem bind {bounded : ExceptT Fault Option α} {action : Except Fault α}
    {next : α → ExceptT Fault Option β} {others : α → Except Fault β}
    (one : Tracks bounded action) (rest : ∀ answer, Tracks (next answer) (others answer)) :
    Tracks (bounded >>= next) (action >>= others) := by
  intro result done
  rw [ExceptT.run_bind] at done
  cases first : bounded.run with
  | none =>
      rw [first] at done
      cases done
  | some found =>
      rw [first] at done
      rw [← one found first]
      cases found with
      | error fault => exact (Option.some.inj done).symm
      | ok answer => exact rest answer result done

theorem mapM {items : List α} {bounded : α → ExceptT Fault Option β} {action : α → Except Fault β}
    (each : ∀ item, Tracks (bounded item) (action item)) :
    Tracks (items.mapM bounded) (items.mapM action) := by
  induction items with
  | nil => exact pure []
  | cons item items ih =>
      rw [List.mapM_cons, List.mapM_cons]
      exact (each item).bind fun answer => ih.bind fun answers => pure (answer :: answers)

end Tracks

theorem tracks_expandWithin (names : Names) (levels : Nat) (text : Text) :
    Tracks (expandWithin names levels text) (expand names text) := by
  induction levels generalizing text with
  | zero =>
      rintro _ ⟨⟩
  | succ levels ih =>
      rw [expandWithin, expand_eq_expandWith, expandWith, expandWith]
      cases body? (convertCalls text) with
      | none => exact Tracks.pure _
      | some body =>
          refine Tracks.bind (Tracks.mapM fun segment => ?_) fun written => Tracks.ofExcept _
          cases segment with
          | literal text => exact Tracks.pure _
          | placeholder inner => exact ih inner.strip

/-- Steps one after another are given up if the first is, or the rest is behind an answer of the
first. -/
theorem run_bind_eq_none_iff {α β : Type} {bounded : ExceptT Fault Option α}
    {next : α → ExceptT Fault Option β} :
    (bounded >>= next).run = none ↔ bounded.run = none ∨
      ∃ answer, bounded.run = some (.ok answer) ∧ (next answer).run = none := by
  rw [ExceptT.run_bind]
  cases bounded.run with
  | none => simp
  | some found =>
      cases found with
      | error fault => simp
      | ok answer => simp

-- Putting the answers together is never given up.
theorem run_mapM_cons_eq_none_iff {α β : Type} {bounded : α → ExceptT Fault Option β} {item : α}
    {items : List α} :
    ((item :: items).mapM bounded).run = none ↔ (bounded item).run = none ∨
      ∃ answer, (bounded item).run = some (.ok answer) ∧ (items.mapM bounded).run = none := by
  rw [List.mapM_cons, run_bind_eq_none_iff]
  refine or_congr_right (exists_congr fun answer => and_congr_right fun _ => ?_)
  rw [run_bind_eq_none_iff]
  exact or_iff_left fun ⟨_, _, returned⟩ => nomatch returned

theorem run_mapM_eq_none_iff {levels : Nat} {segments : List Segment} :
    (segments.mapM (writeSegment (expandWithin names levels))).run = none ↔
      ∃ inner ∈ reached names (segments.flatMap segmentExpressions),
        (expandWithin names levels inner).run = none := by
  induction segments with
  | nil =>
      rw [List.flatMap_nil, reached]
      exact ⟨fun given_up => (nomatch given_up), fun ⟨_, mem, _⟩ => nomatch mem⟩
  | cons segment segments ih =>
      rw [run_mapM_cons_eq_none_iff, ih, List.flatMap_cons]
      cases segment with
      | literal text =>
          rw [segmentExpressions, List.nil_append]
          constructor
          · rintro (given_up | ⟨_, _, later⟩)
            · cases given_up
            · exact later
          · exact fun later => .inr ⟨_, rfl, later⟩
      | placeholder whole =>
          rw [segmentExpressions, List.singleton_append, reached, List.exists_mem_cons_iff,
            writeSegment]
          -- A level that has a result has the right one, so that both sides stop at the same place.
          cases done : (expandWithin names levels whole.strip).run with
          | none => exact iff_of_true (.inl rfl) (.inl rfl)
          | some found =>
              rw [← tracks_expandWithin names levels whole.strip found done]
              cases found with
              | error fault => simp
              | ok answer => simp

theorem run_expandWithin_succ_eq_none_iff {levels : Nat} :
    (expandWithin names (levels + 1) text).run = none ↔
      ∃ inner ∈ demands names text, (expandWithin names levels inner).run = none := by
  rw [expandWithin, expandWith, demands, formatDemands]
  cases body? (convertCalls text) with
  | none => exact ⟨fun given_up => (nomatch given_up), fun ⟨_, mem, _⟩ => nomatch mem⟩
  | some body =>
      simp only [run_bind_eq_none_iff, run_mapM_eq_none_iff]
      refine or_iff_left ?_
      rintro ⟨written, _, given_up⟩
      cases joined : joinSegments written <;> rw [joined] at given_up <;> cases given_up

/-- The levels are used up exactly if there are as many further expressions inside of each other. -/
theorem run_expandWithin_eq_none_iff {levels : Nat} :
    (expandWithin names levels text).run = none ↔
      ∃ inners, inners.length = levels ∧ Nested names (text :: inners) := by
  induction levels generalizing text with
  | zero => exact iff_of_true rfl ⟨[], rfl, List.isChain_singleton _⟩
  | succ levels ih =>
      rw [run_expandWithin_succ_eq_none_iff]
      constructor
      · rintro ⟨inner, mem, given_up⟩
        obtain ⟨inners, size, nested⟩ := ih.mp given_up
        exact ⟨inner :: inners, congrArg (· + 1) size, List.isChain_cons_cons.mpr ⟨mem, nested⟩⟩
      · rintro ⟨inners, size, nested⟩
        cases inners with
        | nil => cases size
        | cons inner inners =>
            obtain ⟨mem, nested⟩ := List.isChain_cons_cons.mp nested
            exact ⟨inner, mem, ih.mpr ⟨inners, Nat.succ.inj size, nested⟩⟩

/-- One level for every opening brace and one for the expression itself are enough. -/
theorem run_expandWithin_of_le {levels : Nat} (enough : text.count '{' + 1 ≤ levels) :
    (expandWithin names levels text).run = some (expand names text) := by
  cases done : (expandWithin names levels text).run with
  | some result => rw [tracks_expandWithin names levels text result done]
  | none =>
      obtain ⟨inners, size, nested⟩ := run_expandWithin_eq_none_iff.mp done
      have bounded := nested.length_le
      omega

/-! ## Expressions that grow -/

/-- Calls of `open` without their ends, each with letters in front of it. -/
def pile (calls letters : Nat) : Text :=
  (List.replicate calls (List.replicate letters 'f' ++ "open(".toList)).flatten

/-- Format texts around a pile whose placeholders are not closed. -/
def tower (calls : Nat) : Nat → Nat → Text
  | 0, letters => pile calls letters
  | levels + 1, letters => 'f' :: '"' :: '{' :: (tower calls levels letters ++ ['"'])

section Tower

variable (calls levels letters : Nat)

theorem pile_succ : pile (calls + 1) letters =
    List.replicate letters 'f' ++ ("open(".toList ++ pile calls letters) := by
  rw [pile, List.replicate_succ, List.flatten_cons, List.append_assoc]
  rfl

theorem length_pile : (pile calls letters).length = calls * (letters + 5) := by
  simp [pile]

theorem mem_pile {char : Char} (mem : char ∈ pile calls letters) : char ∈ "fopen(".toList := by
  simp only [pile, List.mem_flatten, List.mem_replicate] at mem
  obtain ⟨call, ⟨_, rfl⟩, mem⟩ := mem
  rcases List.mem_append.mp mem with mem | mem
  · rw [(List.mem_replicate.mp mem).2]
    exact List.mem_cons_self
  · exact List.mem_cons_of_mem 'f' mem

/-- Every call gets one more letter. -/
theorem replace_pile :
    Text.replace "open(".toList "fopen(".toList (pile calls letters) =
      pile calls (letters + 1) := by
  have filled : "open(".toList ≠ [] := by decide
  have lettered (letters : Nat) (rest : Text) :
      Text.replace "open(".toList "fopen(".toList
          (List.replicate letters 'f' ++ ("open(".toList ++ rest)) =
        List.replicate (letters + 1) 'f' ++
          ("open(".toList ++ Text.replace "open(".toList "fopen(".toList rest) := by
    induction letters with
    | zero => exact Text.replace_occurrence filled rest
    | succ letters ih =>
        have other : ¬List.IsPrefix "open(".toList
            ('f' :: (List.replicate letters 'f' ++ ("open(".toList ++ rest))) := by
          intro stands
          exact absurd (List.cons_prefix_cons.mp stands).1 (by decide)
        rw [List.replicate_succ, List.cons_append, Text.replace_cons other, ih]
        rfl
  induction calls with
  | zero => rfl
  | succ calls ih => rw [pile_succ, lettered, ih, pile_succ]

theorem not_isInfix_pile {word : Text} {mark : Char} (mem : mark ∈ word)
    (absent : mark ∉ "fopen(".toList) : ¬List.IsInfix word (pile calls letters) :=
  fun stands => absent (mem_pile calls letters (stands.subset mem))

theorem respell_pile : respell builtins (pile calls letters) = pile calls (letters + 1) := by
  have len : ¬List.IsInfix "len(".toList (pile calls letters) :=
    @not_isInfix_pile calls letters _ 'l' (by decide) (by decide)
  have int : ¬List.IsInfix "int(".toList (pile calls (letters + 1)) :=
    @not_isInfix_pile calls (letters + 1) _ 'i' (by decide) (by decide)
  rw [builtins, respell_cons, respell_cons, respell_cons, Text.replace_eq_self len,
    replace_pile, Text.replace_eq_self int]
  rfl

theorem respell_tower :
    respell builtins (tower calls levels letters) = tower calls levels (letters + 1) := by
  have quoted : ∀ pair ∈ builtins, pair.1 ≠ [] ∧ '"' ∉ pair.1 := by decide
  have braced : ∀ pair ∈ builtins, pair.1 ≠ [] ∧ '{' ∉ pair.1 := by decide
  have letter : respell builtins ['f'] = ['f'] := by decide
  induction levels with
  | zero => exact respell_pile calls letters
  | succ levels ih =>
      have front := respell_append_cons quoted ['f'] ('{' :: (tower calls levels letters ++ ['"']))
      have back := respell_append_cons quoted (tower calls levels letters) []
      rw [respell_nil, ih] at back
      rw [letter, respell_mark braced, back] at front
      exact front

theorem mem_tower {char : Char} (mem : char ∈ tower calls levels letters) :
    char ∈ "fopen(\"\x7b".toList := by
  induction levels with
  | zero => exact List.mem_append_left ['"', '{'] (mem_pile calls letters mem)
  | succ levels ih =>
      simp only [tower, List.mem_cons, List.mem_append, List.not_mem_nil, or_false] at mem
      rcases mem with rfl | rfl | rfl | mem | rfl
      · decide
      · decide
      · decide
      · exact ih mem
      · decide

theorem convertCalls_tower :
    convertCalls (tower calls levels letters) = tower calls levels (letters + 1) := by
  have dotless : '.' ∉ tower calls levels letters := fun mem =>
    absurd (mem_tower calls levels letters mem) (by decide)
  rw [convertCalls_of_callless (callless_of_not_mem dotless), respell_tower]

theorem length_tower :
    (tower calls levels letters).length = calls * (letters + 5) + 4 * levels := by
  induction levels with
  | zero => exact length_pile calls letters
  | succ levels ih =>
      simp only [tower, List.length_cons, List.length_append, List.length_nil, ih]
      omega

theorem count_tower : (tower calls levels letters).count '{' = levels := by
  induction levels with
  | zero =>
      exact List.count_eq_zero.mpr fun mem => absurd (mem_pile calls letters mem) (by decide)
  | succ levels ih => simp [tower, ih]

/-- A tower is expanded through the next lower one, in which every call has one more letter. -/
theorem demands_tower (names : Names) (built : calls ≠ 0) :
    demands names (tower calls (levels + 1) letters) = [tower calls levels (letters + 1)] := by
  have body : body? (tower calls (levels + 1) (letters + 1)) =
      some ('{' :: tower calls levels (letters + 1)) := by
    change some ((('{' :: tower calls levels (letters + 1)) ++ ['"']).dropLast) = _
    rw [List.dropLast_concat]
  have filled : tower calls levels (letters + 1) ≠ [] := by
    rw [← List.length_pos_iff, length_tower]
    have letters_pos : 0 < letters + 1 + 5 := by omega
    exact Nat.add_pos_left (Nat.mul_pos (Nat.pos_of_ne_zero built) letters_pos) _
  have unclosed : '}' ∉ tower calls levels (letters + 1) := fun mem =>
    absurd (mem_tower calls levels (letters + 1) mem) (by decide)
  have read := segments_ended List.not_mem_nil unclosed filled
  have solid : (tower calls levels (letters + 1)).strip = tower calls levels (letters + 1) := by
    refine Text.strip_of_solid fun char mem => ?_
    have all : "fopen(\"\x7b".toList.all (!Text.isBlank ·) = true := rfl
    simpa using List.all_eq_true.mp all char (mem_tower calls levels (letters + 1) mem)
  rw [List.nil_append] at read
  rw [demands, convertCalls_tower, formatDemands, body]
  simp only [read]
  change reached names [(tower calls levels (letters + 1)).strip] = _
  rw [solid, reached]
  split <;> rfl

end Tower

/-- The bound is reached by expressions that grow at every level. -/
theorem exists_growing (names : Names) (levels excess letters : Nat) :
    ∃ inners, inners.length = levels ∧
      (tower (excess + 4) levels letters :: inners).IsChain fun outer inner =>
        inner ∈ demands names outer ∧ outer.length + excess ≤ inner.length := by
  induction levels generalizing letters with
  | zero => exact ⟨[], rfl, List.isChain_singleton _⟩
  | succ levels ih =>
      obtain ⟨inners, size, chain⟩ := ih (letters + 1)
      refine ⟨_ :: inners, congrArg (· + 1) size, List.isChain_cons_cons.mpr ⟨⟨?_, ?_⟩, chain⟩⟩
      · rw [demands_tower (excess + 4) levels letters names (by omega)]
        exact List.mem_singleton_self _
      · have grown : (excess + 4) * (letters + 1 + 5) =
            (excess + 4) * (letters + 5) + (excess + 4) := by
          rw [Nat.add_right_comm, Nat.mul_succ]
        rw [length_tower, length_tower, grown]
        omega

/-- One level of an expansion, which expands the placeholders by the expansion itself, is the whole
expansion, and the demands of an expression are what it asks for at this level.  Converting its
calls keeps the opening braces, and every demand has fewer of them.  So no more expressions are
expanded inside of it than it has opening braces, one inside of the other.  If the number of levels
is bounded, they are used up exactly by as many expressions inside of each other, and one level for
every opening brace and one for the expression itself are enough for the result of the expansion
without a bound.  For every number of opening braces there are expressions that need all these
levels and become longer at each of them, by any length. -/
theorem nesting_within_braces (names : Names) :
    (∀ text,
      expand names text = expandWith names (expand names) text ∧
      (expandWith names (record names) text).run.run [] =
        (expand names text, demands names text) ∧
      (convertCalls text).count '{' = text.count '{' ∧
      (∀ inner ∈ formatDemands names text, inner.count '{' < text.count '{') ∧
      (∀ inner ∈ demands names text, inner.count '{' < text.count '{') ∧
      (∀ inners, Nested names (text :: inners) →
        (text :: inners).length ≤ text.count '{' + 1) ∧
      (∀ levels, (expandWithin names levels text).run = none ↔
        ∃ inners, inners.length = levels ∧ Nested names (text :: inners)) ∧
      ∀ levels, text.count '{' + 1 ≤ levels →
        (expandWithin names levels text).run = some (expand names text)) ∧
    ∀ levels excess, ∃ text inners, text.count '{' = levels ∧ inners.length = levels ∧
      (text :: inners).IsChain fun outer inner =>
        inner ∈ demands names outer ∧ outer.length + excess ≤ inner.length := by
  refine ⟨fun text => ⟨expand_eq_expandWith names text, asks_expandWith names text [],
    count_convertCalls rfl text, fun _ => count_lt_of_mem_formatDemands,
    fun _ => count_lt_of_mem_demands, fun inners nested => Nat.succ_le_succ nested.length_le,
    fun _ => run_expandWithin_eq_none_iff, fun _ => run_expandWithin_of_le⟩,
    fun levels excess => ?_⟩
  obtain ⟨inners, size, chain⟩ := exists_growing names levels excess 0
  exact ⟨_, inners, count_tower (excess + 4) levels 0, size, chain⟩

end Expr
end Ephp
