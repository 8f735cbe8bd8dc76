import Ephp.Proofs.Faults
import Ephp.Proofs.Remarks
import Ephp.Proofs.Run

/-!
# Lines that stay lines

The lines of a source have no line breaks, and what a conversion adds to them has none either.  What
is remembered for later lines, the parts of a match and the handles of resources, are pieces of
earlier ones.  So no line of an output is broken, also when the conversion fails, and the text of an
output is cut into the same lines again.
-/

namespace Ephp

namespace Text

theorem isUnbroken_iff {text : Text} :
    text.isUnbroken = true ↔ ∀ char ∈ text, isLineBreak char = false := by
  simp [isUnbroken]

theorem isUnbroken_append {front back : Text} :
    (front ++ back).isUnbroken = true ↔ front.isUnbroken = true ∧ back.isUnbroken = true := by
  simp only [isUnbroken, List.all_append, Bool.and_eq_true]

theorem isUnbroken_indentation (indent : Int) : (indentation indent).isUnbroken = true := by
  refine isUnbroken_iff.mpr fun char mem => ?_
  rw [List.eq_of_mem_replicate mem]
  rfl

theorem isPlain_of_isLineBreak {char : Char} (ends : isLineBreak char = true) :
    isPlain char = false := by
  refine Bool.eq_false_iff.mpr fun plain => ?_
  simp only [isPlain, Bool.and_eq_true, decide_eq_true_eq, Char.le_def, UInt32.le_iff_toNat_le]
    at plain
  simp only [isLineBreak, Bool.or_eq_true, Bool.and_eq_true, decide_eq_true_eq, beq_iff_eq]
    at ends
  have first : (' ').val.toNat = 0x20 := rfl
  have last : ('~').val.toNat = 0x7E := rfl
  have code : char.val.toNat = char.toNat := rfl
  omega

/-- A text is broken only by the breaks of what it is made from. -/
theorem isUnbroken_of_madeFrom {source text : Text} (made : MadeFrom source text)
    (unbroken : source.isUnbroken = true) : text.isUnbroken = true := by
  refine isUnbroken_iff.mpr fun char mem => Bool.eq_false_iff.mpr fun ends => ?_
  have inside := made char mem (isPlain_of_isLineBreak ends)
  rw [isUnbroken_iff.mp unbroken char inside] at ends
  cases ends

theorem isUnbroken_of_isInfix {source text : Text} (piece : List.IsInfix text source)
    (unbroken : source.isUnbroken = true) : text.isUnbroken = true :=
  isUnbroken_of_madeFrom (.of_isInfix piece) unbroken

theorem isUnbroken_of_mem_lines {line text : Text} (mem : line ∈ text.lines) :
    line.isUnbroken = true := by
  fun_induction lines text generalizing line with
  | case1 => cases mem
  | case2 rest ih =>
      rcases List.mem_cons.mp mem with rfl | mem
      · rfl
      · exact ih mem
  | case3 char rest _ ends ih =>
      rcases List.mem_cons.mp mem with rfl | mem
      · rfl
      · exact ih mem
  | case4 char rest _ stays ih =>
      have first {line : Text} (whole : line.isUnbroken = true) :
          Text.isUnbroken (char :: line) = true := by
        simp_all [isUnbroken]
      cases split : lines rest with
      | nil =>
          rw [split, consLine, List.mem_singleton] at mem
          rw [mem]
          exact first rfl
      | cons head others =>
          rw [split] at ih
          rw [split, consLine] at mem
          rcases List.mem_cons.mp mem with rfl | mem
          · exact first (ih List.mem_cons_self)
          · exact ih (List.mem_cons_of_mem _ mem)

theorem isUnbroken_cons {char : Char} {text : Text} :
    Text.isUnbroken (char :: text) = true ↔
      isLineBreak char = false ∧ text.isUnbroken = true := by
  simp only [isUnbroken, List.all_cons, Bool.and_eq_true, Bool.not_eq_true']

theorem isUnbroken_join {separator : Text} {texts : List Text}
    (separated : separator.isUnbroken = true) (each : ∀ text ∈ texts, text.isUnbroken = true) :
    (join separator texts).isUnbroken = true := by
  induction texts with
  | nil => rfl
  | cons first texts ih =>
      obtain ⟨head, each⟩ := List.forall_mem_cons.mp each
      cases texts with
      | nil => rwa [join_singleton]
      | cons second texts =>
          rw [join_cons_cons, isUnbroken_append, isUnbroken_append]
          exact ⟨⟨head, separated⟩, ih each⟩

end Text

/-! ## What a state remembers -/

namespace Match

/-- The texts that the lines of a match are written from. -/
def texts (collected : Match) : List Text :=
  collected.subject.toList ++ collected.target.toList ++
    collected.arms.flatMap fun arm => arm.result :: arm.values

theorem isUnbroken_writeSubject {subject : Text} (unbroken : subject.isUnbroken = true) :
    (writeSubject subject).isUnbroken = true := by
  unfold writeSubject
  split
  · exact unbroken
  · exact Text.isUnbroken_cons.mpr ⟨rfl, unbroken⟩

theorem isUnbroken_opening? {collected : Match} {opening : Text}
    (subjects : ∀ text ∈ collected.subject.toList, text.isUnbroken = true)
    (targets : ∀ text ∈ collected.target.toList, text.isUnbroken = true)
    (found : collected.opening? = some opening) : opening.isUnbroken = true := by
  have given {part : Option Text} (default : Text) (whole : default.isUnbroken = true)
      (each : ∀ text ∈ part.toList, text.isUnbroken = true) :
      (part.getD default).isUnbroken = true := by
    cases part with
    | none => exact whole
    | some text => exact each text (by simp)
  have subject := isUnbroken_writeSubject (given [] rfl subjects)
  have target := given "None".toList (by decide) targets
  unfold opening? at found
  split at found
  · cases found
    simp only [List.cons_append, Text.isUnbroken_cons, Text.isUnbroken_append]
    exact ⟨rfl, ⟨target, by decide⟩, ⟨by decide, subject⟩, by decide⟩
  · cases found
    simp only [Text.isUnbroken_append]
    exact ⟨by decide, ⟨by decide, subject⟩, by decide⟩
  · cases found

theorem isUnbroken_armLine {arm : Arm} (result : arm.result.isUnbroken = true)
    (values : ∀ value ∈ arm.values, value.isUnbroken = true) :
    (armLine arm).isUnbroken = true := by
  have joined := Text.isUnbroken_join (by decide : Text.isUnbroken ", ".toList = true) values
  change Text.isUnbroken ("    ".toList ++ Text.join ", ".toList arm.values ++ " => ".toList ++
    arm.result ++ [',']) = true
  simp only [Text.isUnbroken_append]
  exact ⟨⟨⟨⟨by decide, joined⟩, by decide⟩, result⟩, rfl⟩

theorem isUnbroken_of_mem_lines {collected : Match}
    (unbroken : ∀ text ∈ collected.texts, text.isUnbroken = true) :
    ∀ line ∈ collected.lines, line.isUnbroken = true := by
  simp only [texts, List.forall_mem_append, List.forall_mem_flatMap, List.forall_mem_cons]
    at unbroken
  obtain ⟨⟨subjects, targets⟩, parts⟩ := unbroken
  unfold lines
  split
  · split
    · rename_i opening found
      refine List.forall_mem_append.mpr ⟨List.forall_mem_cons.mpr ⟨?_, ?_⟩, ?_⟩
      · exact isUnbroken_opening? subjects targets found
      · intro line mem
        obtain ⟨arm, arm_mem, rfl⟩ := List.mem_map.mp mem
        exact isUnbroken_armLine (parts arm arm_mem).1 (parts arm arm_mem).2
      · exact List.forall_mem_singleton.mpr (by decide)
    · simp
  · simp

end Match

theorem Resource.isUnbroken_of_mem_closing {resource : Resource}
    (unbroken : resource.handle.isUnbroken = true) :
    ∀ line ∈ resource.closing, line.isUnbroken = true := by
  have handle : Text.isUnbroken ('$' :: resource.handle) = true :=
    Text.isUnbroken_cons.mpr ⟨rfl, unbroken⟩
  simp only [closing, List.forall_mem_cons, List.not_mem_nil, false_implies, implies_true,
    and_true, Text.isUnbroken_append, Text.isUnbroken_indentation, handle, true_and]
  decide

namespace State

/-- A state without line breaks in its lines and in what it remembers for later lines. -/
structure Unbroken (state : State) : Prop where
  lines : ∀ line ∈ state.lines, line.isUnbroken = true
  handles : ∀ entry ∈ state.resources, entry.2.handle.isUnbroken = true
  collected : ∀ text ∈ state.collected.texts, text.isUnbroken = true

theorem unbroken_reset (state : State) : state.reset.Unbroken where
  lines := by
    change ∀ line ∈ banner, line.isUnbroken = true
    decide
  handles _ mem := absurd mem List.not_mem_nil
  collected _ mem := absurd mem List.not_mem_nil

namespace Unbroken

variable {state : State}

theorem write (unbroken : state.Unbroken) {lines : List Text}
    (each : ∀ line ∈ lines, line.isUnbroken = true) :
    { state with lines := state.lines ++ lines }.Unbroken :=
  ⟨List.forall_mem_append.mpr ⟨unbroken.lines, each⟩, unbroken.handles, unbroken.collected⟩

theorem emit (unbroken : state.Unbroken) (indent : Int) {text : Text}
    (whole : text.isUnbroken = true) : (state.emit indent text).Unbroken :=
  unbroken.write (List.forall_mem_singleton.mpr
    (Text.isUnbroken_append.mpr ⟨Text.isUnbroken_indentation indent, whole⟩))

theorem flushMatch (unbroken : state.Unbroken) : state.flushMatch.Unbroken := by
  unfold State.flushMatch
  split
  · exact unbroken
  · refine ⟨List.forall_mem_append.mpr ⟨unbroken.lines, ?_⟩, unbroken.handles,
      fun _ mem => absurd mem List.not_mem_nil⟩
    intro line mem
    obtain ⟨text, text_mem, rfl⟩ := List.mem_map.mp mem
    exact Text.isUnbroken_append.mpr ⟨Text.isUnbroken_indentation _,
      Match.isUnbroken_of_mem_lines unbroken.collected text text_mem⟩

theorem close (unbroken : state.Unbroken) (block : Option Block) (level : Int) :
    (state.close block level).Unbroken := by
  have brace : Text.isUnbroken ['}'] = true := rfl
  unfold State.close
  split
  · split
    · rename_i resource found
      obtain ⟨front, back, split, _⟩ := List.lookup_eq_some_iff.mp found
      have handle := unbroken.handles (level, resource) (by simp [split])
      rw [release_eq]
      exact unbroken.write (Resource.isUnbroken_of_mem_closing handle)
    · exact unbroken
  · split
    · exact unbroken.emit level (by decide)
    · split
      · have left := unbroken.emit level (by decide : Text.isUnbroken "break;".toList = true)
        have closed := left.emit level brace
        exact ⟨closed.lines, closed.handles, closed.collected⟩
      · split
        · have closed := unbroken.emit level brace
          exact ⟨closed.lines, closed.handles, closed.collected⟩
        · exact unbroken.emit level brace

theorem closeTop (unbroken : state.Unbroken) {abandon : State → State}
    (keeps : ∀ {state : State}, state.Unbroken → (abandon state).Unbroken) (level : Int)
    (below : List Int) : (state.closeTop abandon level below).Unbroken := by
  have popped : (state.pop below).flushMatch.Unbroken :=
    flushMatch ⟨unbroken.lines, unbroken.handles, unbroken.collected⟩
  unfold State.closeTop
  simp only
  split
  · exact keeps popped
  · exact popped.close _ level

theorem dedent (unbroken : state.Unbroken) (indent : Int) : (state.dedent indent).Unbroken :=
  dedent_induct (fun _ level below _ _ whole => whole.closeTop (fun kept => kept) level below)
    unbroken

theorem closeAll (unbroken : state.Unbroken) : state.closeAll.Unbroken := by
  unfold State.closeAll
  generalize state.levels = levels
  fun_induction closeAllFrom levels state with
  | case1 level next below state ih =>
      refine ih (unbroken.closeTop (fun {popped} kept => ?_) level (next :: below))
      have ended := kept.emit (level - 4)
        (by decide : Text.isUnbroken "\x7d while (false);".toList = true)
      exact ⟨ended.lines, ended.handles, ended.collected⟩
  | case2 levels state => exact unbroken

theorem rename (unbroken : state.Unbroken) (names : Names) :
    { state with names := names }.Unbroken :=
  ⟨unbroken.lines, unbroken.handles, unbroken.collected⟩

open Statement in
/-- What a line does brings in no line break that is not in the line. -/
theorem of_outcome (unbroken : state.Unbroken) {indent : Int} {body : Text} {after : State}
    (whole : body.isUnbroken = true) (outcome : Outcome indent body state after) :
    after.Unbroken := by
  have made {text : Text} (made : MadeFrom body text) : text.isUnbroken = true :=
    Text.isUnbroken_of_madeFrom made whole
  have field {statement : Statement} (found : read? body = some statement) {text : Text}
      (mem : text ∈ statement.fields) : text.isUnbroken = true :=
    Text.isUnbroken_of_isInfix (fields_infix_of_read? found text mem) whole
  have brace {header : Text} (spelled : header.isUnbroken = true) :
      (header ++ " \x7b".toList).isUnbroken = true :=
    Text.isUnbroken_append.mpr ⟨spelled, by decide⟩
  cases outcome with
  | wrote names _ _ spelled _ _ => exact (unbroken.rename names).emit indent (made spelled)
  | opened names _ _ _ _ _ spelled _ =>
      have opened := (unbroken.rename names).emit indent (brace (made spelled))
      exact ⟨opened.lines, opened.handles, opened.collected⟩
  | @acquired acquired handle text names found spelled _ =>
      have opened := ((unbroken.rename names).emit indent (made spelled)).emit indent
        (by decide : Text.isUnbroken "try \x7b".toList = true)
      refine ⟨opened.lines, List.forall_mem_cons.mpr ⟨field found (by simp [fields]), ?_⟩,
        opened.collected⟩
      exact fun entry mem => opened.handles entry (List.mem_of_mem_filter mem)
  | looped _ =>
      have opened := unbroken.emit indent (by decide : Text.isUnbroken "do \x7b".toList = true)
      exact ⟨opened.lines, opened.handles, opened.collected⟩
  | @ended condition written level below _ _ _ spelled =>
      have line : Text.isUnbroken ("\x7d while (".toList ++ written ++ ");".toList) = true := by
        simp only [Text.isUnbroken_append]
        exact ⟨⟨by decide, made spelled⟩, by decide⟩
      have closed := unbroken.emit (level - 4) line
      exact ⟨closed.lines, closed.handles, closed.collected⟩
  | switched _ spelled _ =>
      have opened := unbroken.emit indent (brace (made spelled))
      exact ⟨opened.lines, opened.handles, opened.collected⟩
  | labelled _ _ spelled _ =>
      have left : (if state.casePending then state.emit (indent - 4) "break;".toList
          else state).Unbroken := by
        split
        · exact unbroken.emit _ (by decide)
        · exact unbroken
      have written := left.emit indent (made spelled)
      exact ⟨written.lines, written.handles, written.collected⟩
  | @started statement collected names found header =>
      refine ⟨unbroken.lines, unbroken.handles, ?_⟩
      have taken : ∀ text ∈ collected.texts, text ∈ statement.fields := by
        cases statement with
        | matchAssign target subject =>
            cases header
            simp [Match.texts, fields]
        | matchReturn subject =>
            cases header
            simp [Match.texts, fields]
        | _ => cases header
      exact fun text mem => field found (taken text mem)
  | armed arm _ _ _ values result =>
      refine ⟨unbroken.lines, unbroken.handles, ?_⟩
      have earlier := unbroken.collected
      simp only [Match.texts, List.forall_mem_append, List.flatMap_append, List.flatMap_cons,
        List.flatMap_nil, List.append_nil, List.forall_mem_cons] at earlier ⊢
      exact ⟨earlier.1, earlier.2, made result, fun value mem => made (values value mem)⟩

end Unbroken

end State

/-! ## Lines that fail -/

namespace Conversion

open Statement

/-- A step that has written nothing when it fails. -/
def Quits {α : Type} (step : Conversion α) : Prop :=
  ∀ state fault after, step state = .error fault after → after.lines = state.lines

namespace Quits

variable {α β : Type}

theorem of_total {step : Conversion α} (total : Total step) : Quits step := by
  intro state fault after failed
  obtain ⟨answer, reached, done⟩ := returns_iff.mp (total state)
  cases done.symm.trans failed

/-- Steps that cannot fail can follow. -/
theorem before {first : Conversion α} {next : α → Conversion β} (one : Quits first)
    (total : ∀ answer, Total (next answer)) : Quits (first >>= next) := by
  intro state fault after failed
  rcases bind_eq_error.mp failed with stopped | ⟨answer, middle, _, rest⟩
  · exact one _ _ _ stopped
  · obtain ⟨_, _, done⟩ := returns_iff.mp (total answer middle)
    cases done.symm.trans rest

/-- Steps that write nothing can stand in front. -/
theorem behind {first : Conversion α} {next : α → Conversion β} (one : Quits first)
    (silent : ∀ {state answer middle}, first state = .ok answer middle →
      middle.lines = state.lines)
    (rest : ∀ answer, Quits (next answer)) : Quits (first >>= next) := by
  intro state fault after failed
  rcases bind_eq_error.mp failed with stopped | ⟨answer, middle, done, later⟩
  · exact one _ _ _ stopped
  · exact (rest answer _ _ _ later).trans (silent done)

theorem withNames (action : Names → Except Fault α) : Quits (withNames action) := by
  intro state fault after failed
  change (MonadExcept.ofExcept (action state.names) : Conversion α) state = _ at failed
  cases result : action state.names with
  | ok answer =>
      rw [result] at failed
      cases failed
  | error found =>
      rw [result] at failed
      cases failed
      rfl

theorem expand (text : Text) : Quits (Conversion.expand text) :=
  withNames _

theorem behind_withNames {action : Names → Except Fault α} {next : α → Conversion β}
    (rest : ∀ answer, Quits (next answer)) : Quits (Conversion.withNames action >>= next) :=
  (withNames action).behind (fun done => by rw [(withNames_eq_ok.mp done).2]) rest

theorem mapM_expand (texts : List Text) : Quits (texts.mapM Conversion.expand) := by
  induction texts with
  | nil => exact of_total fun _ => rfl
  | cons text texts ih =>
      rw [List.mapM_cons]
      exact behind_withNames fun _ => ih.before fun _ _ => rfl

theorem behind_declare (name : Text) {next : Unit → Conversion β} (rest : Quits (next ())) :
    Quits (declare name >>= next) :=
  behind (of_total fun _ => rfl) (fun done => by rw [← modify_eq_ok.mp done]; rfl) fun _ => rest

theorem endDo (condition : Text) : Quits (endDo condition) := by
  intro state fault after failed
  cases open_eq : state.levels with
  | nil =>
      rw [endDo_of_nil open_eq] at failed
      cases failed
      rfl
  | cons level below =>
      rw [endDo_of_cons open_eq] at failed
      have popped : Quits (do
          modify (·.pop below)
          let written ← Conversion.expand condition
          emit (level - 4) ("\x7d while (".toList ++ written ++ ");".toList)
          modify fun state => { state with doPending := false } : Conversion Unit) :=
        behind (of_total fun _ => rfl) (fun done => by rw [← modify_eq_ok.mp done]; rfl)
          fun _ => (expand condition).before fun _ _ => rfl
      exact popped _ _ _ failed

theorem whileLoop (indent : Int) (condition : Text) :
    Quits ((Statement.whileLoop condition).perform indent) := by
  intro state fault after failed
  change (if state.doPending = true then Statement.endDo condition.strip else _ :
    Conversion Unit) state = _ at failed
  split at failed
  · exact endDo _ _ _ _ failed
  · have opened : Quits (do
        let written ← Conversion.expand condition.strip
        openBlock .whileLoop indent ("while (".toList ++ written ++ [')'])) :=
      (expand _).before fun _ _ => rfl
    exact opened _ _ _ failed

/-- A statement has written nothing when it fails, unless it is a label, in front of which there can
be a break. -/
theorem perform (indent : Int) {statement : Statement}
    (other : ∀ value, statement ≠ .label value) : Quits (statement.perform indent) := by
  cases statement with
  | function name parameters result => exact (withNames _).before fun _ _ => rfl
  | arrow target parameters body =>
      refine behind_withNames fun _ => behind (of_total fun _ => rfl) (fun done => ?_) fun _ =>
        (expand _).before fun _ _ => rfl
      rw [← modify_eq_ok.mp done, foldl_declare]
  | closure target parameters => exact (withNames _).before fun _ _ => rfl
  | resource acquired handle => exact (expand acquired).before fun _ _ => rfl
  | arm values result =>
      refine behind (mapM_expand _) (fun done => ?_) fun _ => (expand _).before fun _ _ => rfl
      rw [(mapM_expand_eq_ok.mp done).2]
  | defaultArm result => exact (expand _).before fun _ _ => rfl
  | choice target accepted condition rejected =>
      refine behind_declare target (behind_withNames fun _ => behind_withNames fun _ => ?_)
      exact (expand rejected).before fun _ _ => rfl
  | whileLoop condition => exact whileLoop indent condition
  | constant name value => exact (expand value).before fun _ _ => rfl
  | assign target value => exact behind_declare target ((withNames _).before fun _ _ => rfl)
  | returnValue value => exact (expand value).before fun _ _ => rfl
  | print content => exact (expand _).before fun _ _ => rfl
  | when condition => exact (expand condition).before fun _ _ => rfl
  | elseWhen condition => exact (expand condition).before fun _ _ => rfl
  | countLoop counter bounds =>
      refine behind_withNames fun _ => behind_withNames fun _ => ?_
      exact (expand _).before fun _ _ => rfl
  | eachLoop element collection =>
      exact behind_declare element ((expand collection).before fun _ _ => rfl)
  | switch subject => exact (expand subject).before fun _ _ => rfl
  | label value => exact absurd rfl (other value)
  | defaultLabel => exact of_total (.bind (total_breakPending indent) fun _ _ => rfl)
  | call callee arguments => exact (expand _).before fun _ _ => rfl
  | _ => exact of_total fun _ => rfl

theorem convertUnknown (indent : Int) (body : Text) :
    Quits (Conversion.convertUnknown indent body) := by
  unfold Conversion.convertUnknown
  split
  · exact of_total fun _ => rfl
  · exact (expand body).before fun _ _ => rfl

end Quits

/-- A label that fails has written at most the break in front of it. -/
theorem lines_of_label_error {indent : Int} {value : Text} {state after : State} {fault : Fault}
    (failed : (label value).perform indent state = .error fault after) :
    after.lines = (if state.casePending then state.emit (indent - 4) "break;".toList
      else state).lines := by
  rcases bind_eq_error.mp failed with stopped | ⟨_, middle, left, rest⟩
  · obtain ⟨_, _, done⟩ := returns_iff.mp (total_breakPending indent state)
    cases done.symm.trans stopped
  · have written : Quits (do
        let written ← Conversion.expand value
        emit indent ("case ".toList ++ written ++ [':'])
        modify fun state => { state with casePending := true } : Conversion Unit) :=
      (Quits.expand value).before fun _ _ => rfl
    rw [written _ _ _ rest, ← breakPending_eq_ok.mp left]

/-- Where the body of a line fails, the lines that are written have no line breaks. -/
theorem unbroken_of_convertBody_error {indent : Int} {body : Text} {state after : State}
    {fault : Fault} (unbroken : state.Unbroken)
    (failed : convertBody indent body state = .error fault after) :
    ∀ line ∈ after.lines, line.isUnbroken = true := by
  have left := unbroken.dedent indent
  rw [convertBody_eq] at failed
  cases found : read? body with
  | none =>
      rw [found] at failed
      rw [Quits.convertUnknown indent body _ _ _ failed]
      exact left.lines
  | some statement =>
      rw [found] at failed
      simp only at failed
      split at failed
      · by_cases label : ∃ value, statement = .label value
        · obtain ⟨value, rfl⟩ := label
          rw [lines_of_label_error failed]
          split
          · exact (left.emit _ (by decide)).lines
          · exact left.lines
        · rw [Quits.perform indent (fun value same => label ⟨value, same⟩) _ _ _ failed]
          exact left.lines
      · rw [Quits.convertUnknown indent body _ _ _ failed]
        exact left.lines

/-! ## Lines of a whole source -/

/-- A line that is converted leaves a state without line breaks. -/
theorem unbroken_of_convertLine {line : Text} (whole : line.isUnbroken = true)
    {state after : State} (unbroken : state.Unbroken)
    (done : convertLine line state = .ok () after) : after.Unbroken := by
  rcases convertLine_eq_ok done with ⟨_, text, made, rfl⟩ | ⟨_, outcome⟩
  · exact unbroken.write (List.forall_mem_singleton.mpr (Text.isUnbroken_of_madeFrom made whole))
  · exact (unbroken.dedent _).of_outcome
      (Text.isUnbroken_of_isInfix (Text.strip_isInfix line) whole) outcome

/-- A line that fails leaves no line break behind. -/
theorem unbroken_of_convertLine_error {line : Text} {state after : State} {fault : Fault}
    (unbroken : state.Unbroken) (failed : convertLine line state = .error fault after) :
    ∀ line ∈ after.lines, line.isUnbroken = true := by
  cases spoken : line.isRemark with
  | true =>
      rw [convertLine_of_isRemark spoken] at failed
      cases failed
  | false =>
      rw [convertLine_of_isRemark_eq_false spoken] at failed
      exact unbroken_of_convertBody_error unbroken failed

theorem unbroken_of_convertLines_error {lines : List Text}
    (whole : ∀ line ∈ lines, line.isUnbroken = true) {state after : State} {fault : Fault}
    (unbroken : state.Unbroken) (failed : convertLines lines state = .error fault after) :
    ∀ line ∈ after.lines, line.isUnbroken = true := by
  induction lines generalizing state with
  | nil => cases failed
  | cons line lines ih =>
      obtain ⟨first, whole⟩ := List.forall_mem_cons.mp whole
      rw [convertLines_cons] at failed
      rcases bind_eq_error.mp failed with stopped | ⟨_, middle, passed, rest⟩
      · exact unbroken_of_convertLine_error unbroken stopped
      · exact ih whole (unbroken_of_convertLine first unbroken passed) rest

/-- No line of an output is broken. -/
theorem unbroken_of_convert {source text : Text} {state final : State}
    (done : convert source state = .ok text final) : final.Unbroken := by
  obtain ⟨after, converted, rfl, _⟩ := convert_eq_ok.mp done
  exact (convertLines_induct
    (fun line mem _ _ => unbroken_of_convertLine (Text.isUnbroken_of_mem_lines mem))
    state.unbroken_reset converted).flushMatch.closeAll

theorem unbroken_of_convert_error {source : Text} {state after : State} {fault : Fault}
    (failed : convert source state = .error fault after) :
    ∀ line ∈ after.lines, line.isUnbroken = true := by
  rw [convert_eq] at failed
  cases converted : convertLines source.lines state.reset with
  | ok _ middle =>
      rw [converted] at failed
      cases failed
  | error found middle =>
      rw [converted] at failed
      cases failed
      exact unbroken_of_convertLines_error (fun line mem => Text.isUnbroken_of_mem_lines mem)
        state.unbroken_reset converted

theorem lines_ne_nil_of_convert {source text : Text} {state final : State}
    (done : convert source state = .ok text final) : final.lines ≠ [] := by
  obtain ⟨after, converted, rfl, _⟩ := convert_eq_ok.mp done
  have started : List.IsPrefix banner after.flushMatch.closeAll.lines :=
    (lines_isPrefix_of_convertLines converted).trans after.lines_isPrefix_closeAll
  exact started.ne_nil (by decide)

end Conversion

/-! ## The text of an output -/

namespace Text

/-- A text is cut into the lines that it was joined from, but for an empty last line. -/
theorem lines_join_concat {front : List Text} {last : Text}
    (unbroken : ∀ line ∈ front ++ [last], line.isUnbroken = true) :
    lines (join ['\n'] (front ++ [last])) = front ++ (if last.isEmpty then [] else [last]) := by
  induction front with
  | nil =>
      cases last with
      | nil => rfl
      | cons char rest =>
          have whole := isUnbroken_iff.mp (unbroken (char :: rest) (by simp))
          rw [List.nil_append, join_singleton, lines_of_unbroken (by simp) whole]
          rfl
  | cons line front ih =>
      obtain ⟨whole, unbroken⟩ := List.forall_mem_cons.mp unbroken
      obtain ⟨next, rest, split⟩ : ∃ next rest, front ++ [last] = next :: rest :=
        List.exists_cons_of_ne_nil (by simp)
      rw [List.cons_append, split, join_cons_cons, List.append_assoc, List.singleton_append,
        lines_append_newline (isUnbroken_iff.mp whole), ← split, ih unbroken, List.cons_append]

end Text

/-- The number of lines that a state has written, where an empty last line is not counted. -/
def State.lineCount (state : State) : Nat :=
  state.lines.length - if state.lines.getLast? = some [] then 1 else 0

namespace Conversion

theorem length_lines_of_convert {source text : Text} {state final : State}
    (done : convert source state = .ok text final) : text.lines.length = final.lineCount := by
  have unbroken := (unbroken_of_convert done).lines
  have filled := lines_ne_nil_of_convert done
  obtain ⟨after, _, _, rfl⟩ := convert_eq_ok.mp done
  rw [State.lineCount]
  rcases List.eq_nil_or_concat' final.lines with empty | ⟨front, last, split⟩
  · exact absurd empty filled
  · rw [split] at unbroken ⊢
    rw [Text.lines_join_concat unbroken, List.getLast?_concat]
    cases last <;> simp

theorem splitOn_of_convert {source text : Text} {state final : State}
    (done : convert source state = .ok text final) : text.splitOn '\n' = final.lines := by
  have unbroken := (unbroken_of_convert done).lines
  have filled := lines_ne_nil_of_convert done
  obtain ⟨after, _, _, rfl⟩ := convert_eq_ok.mp done
  refine List.splitOn_intercalate '\n' (fun line mem feed => ?_) filled
  have inside := Text.isUnbroken_iff.mp (unbroken line mem) '\n' feed
  cases inside

end Conversion

namespace Program

open Conversion (bind_eq_ok)

/-- The last thing that a run prints is the number of lines of the output. -/
theorem printed_of_convertFile {input target : Text} {world after : World}
    (done : (convertFile input target : Session Unit) world = .ok () after) :
    ∃ source text printed, sourceAt world.disk input = .ok source ∧ output source = .ok text ∧
      after.printed = printed ++ ("ℹ️ ".toList ++ Nat.toDigits 10 text.lines.length ++
        " lines generated".toList) ++ ['\n'] := by
  obtain ⟨source, _, read, done⟩ := bind_eq_ok.mp done
  rw [readSource_apply] at read
  cases found : sourceAt world.disk input with
  | error failure => simp [found] at read
  | ok text =>
      rw [found] at read
      cases read
      obtain ⟨_, middle, _, done⟩ := bind_eq_ok.mp done
      obtain ⟨_, _, ⟨⟩, done⟩ := bind_eq_ok.mp done
      obtain ⟨_, last, written, done⟩ := bind_eq_ok.mp done
      rw [writeOutput_apply] at written
      cases main_eq : product middle.disk target source with
      | error failure => simp [main_eq] at written
      | ok main =>
          simp only [main_eq] at written
          cases written
          cases done
          exact ⟨source, main.2, _, rfl, (product_eq_ok_iff.mp main_eq).1, rfl⟩

theorem output_eq_ok {source text : Text} :
    output source = .ok text ↔
      ∃ final, Conversion.convert source State.initial = .ok text final := by
  unfold output
  cases Conversion.convert source State.initial with
  | ok written final => simp
  | error fault after => simp

/-- No line that is written has a line break in it, whether the conversion ends well or fails.  So
the text of an output is cut back into its lines, and a run that ends well prints last how many
there are, less one if the last of them is empty. -/
theorem output_lines_stay_single :
    (∀ (source : Text) (state : State),
      (∀ fault after, Conversion.convert source state = .error fault after →
        ∀ line ∈ after.lines, line.isUnbroken = true) ∧
      ∀ text final, Conversion.convert source state = .ok text final →
        (∀ line ∈ final.lines, line.isUnbroken = true) ∧ text.splitOn '\n' = final.lines ∧
          text.lines.length = final.lineCount) ∧
    ∀ (arguments : List Text) (world after : World),
      (run arguments : Session Nat) world = .ok 0 after →
        ∃ input rest source text final printed, arguments = input :: rest ∧
          sourceAt world.disk input = .ok source ∧
          Conversion.convert source State.initial = .ok text final ∧
          after.printed = printed ++ ("ℹ️ ".toList ++ Nat.toDigits 10 final.lineCount ++
            " lines generated".toList) ++ ['\n'] := by
  refine ⟨fun source state => ⟨fun fault after failed => ?_, fun text final done => ?_⟩, ?_⟩
  · exact Conversion.unbroken_of_convert_error failed
  · exact ⟨(Conversion.unbroken_of_convert done).lines, Conversion.splitOn_of_convert done,
      Conversion.length_lines_of_convert done⟩
  · intro arguments world after done
    cases arguments with
    | nil => cases done
    | cons input rest =>
        rw [run] at done
        split at done
        · obtain ⟨_, _, converted, finished⟩ := bind_eq_ok.mp done
          cases finished
          obtain ⟨source, text, printed, read, made, spoken⟩ := printed_of_convertFile converted
          obtain ⟨final, converted⟩ := output_eq_ok.mp made
          rw [Conversion.length_lines_of_convert converted] at spoken
          exact ⟨input, rest, source, text, final, printed, rfl, read, converted, spoken⟩
        · cases done

theorem output_lines_stay_single_tangled :
    (∃ text final, Conversion.convert "a\u2028 ".toList State.initial = .ok text final ∧
      final.lines.getLast? = some [] ∧ text.splitOn '\n' = final.lines ∧
        text.lines.length = final.lineCount) ∧
    (∃ fault after, Conversion.convert "do:\x0bwhile a\x0cdo:\x1cwhile b".toList State.initial =
        .error fault after ∧
      ∀ line ∈ after.lines, line.isUnbroken = true) ∧
    ∃ after, (run ["m.ephp".toList] : Session Nat) tangled = .ok 0 after ∧
      ∃ input rest source text final printed, ["m.ephp".toList] = input :: rest ∧
        sourceAt tangled.disk input = .ok source ∧
        Conversion.convert source State.initial = .ok text final ∧
        after.printed = printed ++ ("ℹ️ ".toList ++ Nat.toDigits 10 final.lineCount ++
          " lines generated".toList) ++ ['\n'] := by
  refine ⟨?_, ?_, ?_⟩
  · obtain ⟨text, final, done, last⟩ := Conversion.passes_iff.mp
      (by decide +kernel : (Conversion.convert "a\u2028 ".toList).passes
        (fun _ final => final.lines.getLast? == some []) State.initial = true)
    obtain ⟨_, whole, counted⟩ := (output_lines_stay_single.1 _ _).2 text final done
    exact ⟨text, final, done, beq_iff_eq.mp last, whole, counted⟩
  · have fails : (Conversion.convert "do:\x0bwhile a\x0cdo:\x1cwhile b".toList).returns
        State.initial = false := by decide +kernel
    cases result : Conversion.convert "do:\x0bwhile a\x0cdo:\x1cwhile b".toList State.initial with
    | ok text final =>
        rw [Conversion.returns_iff.mpr ⟨text, final, result⟩] at fails
        cases fails
    | error fault after =>
        exact ⟨fault, after, rfl, (output_lines_stay_single.1 _ _).1 fault after result⟩
  · obtain ⟨after, done⟩ : ∃ after, (run ["m.ephp".toList] : Session Nat) tangled = .ok 0 after :=
      Session.answer?_eq_some_iff.mp (by decide +kernel)
    exact ⟨after, done, output_lines_stay_single.2 _ _ _ done⟩

end Program

end Ephp
