import Ephp.Proofs.Material

/-!
# What a statement does

A line that is performed writes a line, opens a block, ends a do loop, labels a case of a switch, or
starts or continues a match.  There is one rule for each of these, and every invariant of a
conversion follows from the rules.
-/

namespace Ephp
namespace Text

/-- Whether a written line is a break. -/
def isLeave (line : Text) : Bool :=
  line.dropWhile (· == ' ') == "break;".toList

theorem isLeave_eq_false_of_mem {line : Text} {char : Char} (mem : char ∈ line)
    (foreign : char ∉ " break;".toList) : line.isLeave = false := by
  rw [isLeave, beq_eq_false_iff_ne]
  intro same
  rw [← List.takeWhile_append_dropWhile (p := (· == ' ')) (l := line), same] at mem
  rcases List.mem_append.mp mem with blank | letter
  · obtain rfl : char = ' ' := by simpa using List.all_eq_true.mp List.all_takeWhile char blank
    exact foreign (by decide)
  · exact foreign (List.mem_cons_of_mem _ letter)

theorem isLeave_indentation_append (indent : Int) (text : Text) :
    (indentation indent ++ text).isLeave = text.isLeave := by
  rw [isLeave, List.dropWhile_append_of_pos (by simp [indentation]), isLeave]

end Text

namespace Parameter

/-- The parts of a parameter come from a text, and its default value is a piece of it. -/
structure TakenFrom (text : Text) (parameter : Parameter) : Prop where
  type : ∀ type ∈ parameter.type, MadeFrom text type
  name : MadeFrom text parameter.name
  default : ∀ value ∈ parameter.default, List.IsInfix value text

theorem madeFrom_spellResult (type : Text) : MadeFrom type (spellResult type) := by
  unfold spellResult
  split
  · exact .of_plain (by decide)
  · exact .of_subset (List.Subset.refl _)

theorem madeFrom_spellList (type : Text) : MadeFrom type (spellList type) := by
  unfold spellList
  split
  · exact .of_plain (by decide)
  · exact .of_subset (List.Subset.refl _)

theorem takenFrom_ofDeclarator (text : Text) : TakenFrom text (ofDeclarator text) := by
  unfold ofDeclarator
  split
  · rename_i type name found
    have split := Text.splitLast?_eq_some found
    refine ⟨?_, .of_subset (by simp [split]), by simp⟩
    intro spelled mem
    cases mem
    have piece : MadeFrom text type := .of_subset (by simp [split])
    exact piece.trans ((madeFrom_spellResult type).trans (madeFrom_spellList _))
  · exact ⟨by simp, madeFrom_spellList text, by simp⟩

theorem takenFrom_ofText (text : Text) : TakenFrom text (ofText text) := by
  unfold ofText
  split
  · rename_i declarator value found
    have split := Text.splitFirst?_eq_some found
    have front : MadeFrom text declarator.strip :=
      .of_isInfix ((Text.strip_isInfix declarator).trans ⟨[], '=' :: value, by simp [split]⟩)
    have back : List.IsInfix value.strip text :=
      (Text.strip_isInfix value).trans ⟨declarator ++ ['='], [], by simp [split]⟩
    have taken := takenFrom_ofDeclarator declarator.strip
    refine ⟨fun type mem => front.trans (taken.type type mem), front.trans taken.name, ?_⟩
    intro default mem
    cases mem
    exact back
  · exact takenFrom_ofDeclarator text

theorem takenFrom_ofStoredText (text : Text) : TakenFrom text (ofStoredText text) := by
  unfold ofStoredText
  split
  · rename_i type name found
    have split := Text.splitFirst?_eq_some found
    refine ⟨?_, .of_subset (by simp [split]), by simp⟩
    intro written mem
    cases mem
    exact .of_subset (by simp [split])
  · exact ⟨by simp, .of_subset (List.Subset.refl _), by simp⟩

theorem TakenFrom.of_isInfix {text source : Text} {parameter : Parameter}
    (taken : TakenFrom text parameter) (piece : List.IsInfix text source) :
    TakenFrom source parameter where
  type type mem := (MadeFrom.of_isInfix piece).trans (taken.type type mem)
  name := (MadeFrom.of_isInfix piece).trans taken.name
  default value mem := (taken.default value mem).trans piece

theorem takenFrom_of_mem_listOfText {text : Text} {parameter : Parameter}
    (mem : parameter ∈ listOfText text) : TakenFrom text parameter := by
  obtain ⟨item, item_mem, rfl⟩ := List.mem_map.mp mem
  have item_mem := (List.mem_filter.mp item_mem).1
  exact (takenFrom_ofText item).of_isInfix (Text.infix_of_mem_items item_mem)

theorem takenFrom_of_mem_listOfStoredText {text : Text} {parameter : Parameter}
    (mem : parameter ∈ listOfStoredText text) : TakenFrom text parameter := by
  unfold listOfStoredText at mem
  split at mem
  · simp at mem
  · obtain ⟨item, item_mem, rfl⟩ := List.mem_map.mp mem
    exact (takenFrom_ofStoredText item).of_isInfix (Text.infix_of_mem_items item_mem)

theorem madeFrom_write {names : Names} {parameter : Parameter} {text written : Text}
    (taken : TakenFrom text parameter) (done : parameter.write names = .ok written) :
    MadeFrom text written := by
  unfold write at done
  extract_lets typed at done
  have typed_made : MadeFrom text typed := by
    unfold typed
    cases found : parameter.type with
    | none => exact taken.name.cons (by decide)
    | some type => exact ((taken.type type found).append (.of_plain (by decide))).append taken.name
  cases found : parameter.default with
  | none =>
      simp only [found, Except.pure_eq_ok] at done
      rw [← done]
      exact typed_made
  | some value =>
      simp only [found, Except.bind_eq_ok, Except.pure_eq_ok] at done
      obtain ⟨expanded, expansion, rfl⟩ := done
      have piece : MadeFrom text value := .of_isInfix (taken.default value found)
      exact (typed_made.append (.of_plain (by decide))).append
        (piece.trans (Expr.madeFrom_expand expansion))

theorem madeFrom_writeList {names : Names} {parameters : List Parameter} {text written : Text}
    (taken : ∀ parameter ∈ parameters, TakenFrom text parameter)
    (done : writeList names parameters = .ok written) : MadeFrom text written := by
  simp only [writeList, Except.bind_eq_ok, Except.pure_eq_ok] at done
  obtain ⟨texts, each, rfl⟩ := done
  refine .join (.of_plain (by decide)) fun part mem => ?_
  obtain ⟨parameter, parameter_mem, wrote⟩ := Except.exists_of_mem_mapM each part mem
  exact madeFrom_write (taken parameter parameter_mem) wrote

end Parameter

namespace Statement

theorem madeFrom_requiredPath (path : Text) : MadeFrom path (requiredPath path) := by
  unfold requiredPath
  split
  · exact Text.madeFrom_replace _ (by decide) path
  · exact .of_subset (List.Subset.refl _)

theorem infix_of_mem_armValues {values value : Text} (mem : value ∈ armValues values) :
    List.IsInfix value values := by
  obtain ⟨part, part_mem, rfl⟩ := List.mem_map.mp mem
  obtain ⟨choice, choice_mem, part_mem⟩ := List.mem_flatMap.mp part_mem
  exact (Text.strip_isInfix part).trans
    ((Text.infix_of_mem_splitAt part_mem).trans (Text.infix_of_mem_splitAt choice_mem))

theorem madeFrom_printedContent (content : Text) : MadeFrom content (printedContent content) := by
  unfold printedContent
  have self : MadeFrom content content := .of_subset (List.Subset.refl _)
  split
  · exact ((MadeFrom.of_plain (by decide)).append self).append (.of_plain (by decide))
  · exact self

theorem madeFrom_callArguments (callee arguments : Text) :
    MadeFrom arguments (callArguments callee arguments) := by
  unfold callArguments
  split
  · refine .of_count_le fun mark special => ?_
    refine Pattern.count_replace_le mark _ _ (fun ⟨body, _⟩ => ?_) arguments
    have quote : ['"'].count mark = 0 := Text.count_eq_zero_of_plain (by decide) special
    simp only [List.count_append, formatLiteral, Pattern.fields, List.flatten_cons,
      List.flatten_nil, List.count_nil]
    omega
  · exact .of_subset (List.Subset.refl _)

/-- The bounds of a range come from its items. -/
theorem madeFrom_bounds (text : Text) :
    MadeFrom text (Bounds.ofItems text.items).start ∧
      MadeFrom text (Bounds.ofItems text.items).stop ∧
        MadeFrom text (Bounds.ofItems text.items).step := by
  have piece {item : Text} (mem : item ∈ text.items) : MadeFrom text item :=
    .of_isInfix (Text.infix_of_mem_items mem)
  have digit {char : Char} (plain : Text.isPlain char = true) : MadeFrom text [char] :=
    .of_plain (by simpa using plain)
  unfold Bounds.ofItems
  split
  · rename_i items_eq
    exact ⟨piece (by simp [items_eq]), piece (by simp [items_eq]), piece (by simp [items_eq])⟩
  · rename_i items_eq
    exact ⟨piece (by simp [items_eq]), piece (by simp [items_eq]), digit (by decide)⟩
  · rename_i items_eq
    exact ⟨digit (by decide), piece (by simp [items_eq]), digit (by decide)⟩
  · exact ⟨digit (by decide), .nil, digit (by decide)⟩

/-- Whether a statement is an arm, which applies only while a match is being collected. -/
def isArm : Statement → Bool
  | .arm _ _ | .defaultArm _ => true
  | _ => false

/-- Whether a statement is a label of a switch. -/
def isLabel : Statement → Bool
  | .label _ | .defaultLabel => true
  | _ => false

/-- Whether a statement writes one line and does nothing else but to introduce names. -/
def isSimple : Statement → Bool
  | .require _ | .arrow _ _ _ | .input _ _ | .choice _ _ _ _ | .constant _ _ | .assign _ _ => true
  | .returnValue _ | .leave | .proceed | .pass | .print _ | .call _ _ => true
  | _ => false

/-- The kind of block that a statement is the header of. -/
def opened? : Statement → Option Block
  | .function _ _ _ => some .function
  | .closure _ _ => some .closure
  | .resource _ _ => some .resource
  | .doLoop => some .doLoop
  | .whileLoop _ => some .whileLoop
  | .when _ => some .when
  | .elseWhen _ => some .elseWhen
  | .otherwise => some .otherwise
  | .countLoop _ _ => some .countLoop
  | .eachLoop _ _ => some .eachLoop
  | .switch _ => some .switch
  | _ => none

/-- The kind of block that a line opens if no loop and no match is pending. -/
def openedBy? (body : Text) : Option Block :=
  match (read? body).filter (!·.isArm) with
  | some statement => statement.opened?
  | none => if body.endsWith [':'] then some .unnamed else none

theorem openedBy?_of_read? {body : Text} {statement : Statement}
    (found : read? body = some statement) (regular : statement.isArm = false) :
    openedBy? body = statement.opened? := by
  simp [openedBy?, found, Option.filter, regular]

/-- The match that a header starts. -/
def started? : Statement → Option Match
  | .matchAssign target subject => some ⟨some subject, some .assigned, some target, []⟩
  | .matchReturn subject => some ⟨some subject, some .returned, none, []⟩
  | _ => none

/-- The text of a label as it is written. -/
def IsLabelText (text : Text) : Prop :=
  text = "default:".toList ∨ ∃ value, text = "case ".toList ++ value ++ [':']

/-- The line is no arm of the match that is being collected. -/
def Apart (body : Text) (state : State) : Prop :=
  ∀ statement, read? body = some statement → statement.isArm = true →
    state.collected.isOpen = false

theorem Apart.of_read? {body : Text} {statement : Statement} (found : read? body = some statement)
    (regular : statement.isArm = false) (state : State) : Apart body state := by
  intro other other_found is_arm
  obtain rfl := Option.some.inj (found.symm.trans other_found)
  simp [regular] at is_arm

/-- What the line `body` at an indentation makes of a state, once the blocks that it leaves are
closed. -/
inductive Outcome (indent : Int) (body : Text) (state : State) : State → Prop where
  /-- It writes a line, which is a break only if the line is one or is expanded to one. -/
  | wrote {text : Text} (names : Names) (single : openedBy? body = none)
      (apart : Apart body state) (made : MadeFrom body text)
      (leaves : text.isLeave = true → read? body = some .leave ∨
        ∃ names written, Expr.expand names body = .ok written ∧ text = written ++ [';'])
      (simple : ∀ statement, read? body = some statement →
        statement.isSimple = true ∨ statement.isArm = true) :
      Outcome indent body state ({ state with names := names }.emit indent text)
  /-- It opens a block. -/
  | opened {block : Block} {header : Text} (names : Names) (kind : openedBy? body = some block)
      (owner : block ≠ .resource) (loop : block ≠ .doLoop)
      (settled : block = .whileLoop → state.doPending = false) (apart : Apart body state)
      (made : MadeFrom body header) (other : block ≠ .switch) :
      Outcome indent body state
        (({ state with names := names }.emit indent (header ++ " \x7b".toList)).openBlock block
          (indent + 4))
  /-- It opens a block that owns a resource. -/
  | acquired {acquired handle text : Text} (names : Names)
      (found : read? body = some (.resource acquired handle)) (made : MadeFrom body text)
      (leaves : text.isLeave = false) :
      Outcome indent body state
        (((({ state with names := names }.emit indent text).emit indent
          "try \x7b".toList).openBlock .resource (indent + 4)).acquire (indent + 4)
            ⟨indent, handle⟩)
  /-- It opens a do loop, which then waits for its condition. -/
  | looped (found : read? body = some .doLoop) :
      Outcome indent body state
        { (state.emit indent "do \x7b".toList).openBlock .doLoop (indent + 4) with
          doPending := true }
  /-- It is the condition that a do loop waits for, and ends the innermost level. -/
  | ended {condition written : Text} {level : Int} {below : List Int}
      (found : read? body = some (.whileLoop condition)) (pending : state.doPending = true)
      (open_eq : state.levels = level :: below) (made : MadeFrom body written) :
      Outcome indent body state
        { (state.pop below).emit (level - 4) ("\x7d while (".toList ++ written ++ ");".toList) with
          doPending := false }
  /-- It opens a switch. -/
  | switched {subject header : Text} (found : read? body = some (.switch subject))
      (made : MadeFrom body header) (named : List.IsPrefix "switch (".toList header) :
      Outcome indent body state
        { (state.emit indent (header ++ " \x7b".toList)).openBlock .switch (indent + 4) with
          switchPending := true }
  /-- It is a label of a switch, before which the pending label is left. -/
  | labelled {statement : Statement} {text : Text} (found : read? body = some statement)
      (label : statement.isLabel = true) (made : MadeFrom body text)
      (spelled : IsLabelText text) :
      Outcome indent body state
        { (if state.casePending then state.emit (indent - 4) "break;".toList else state).emit
            indent text with
          casePending := true }
  /-- It is the header of a match. -/
  | started {statement : Statement} {collected : Match} (names : Names)
      (found : read? body = some statement) (header : statement.started? = some collected) :
      Outcome indent body state { state with names := names, collected := collected }
  /-- It is an arm of the match that is being collected. -/
  | armed {statement : Statement} (arm : Arm) (found : read? body = some statement)
      (is_arm : statement.isArm = true) (isOpen : state.collected.isOpen = true)
      (made_values : ∀ value ∈ arm.values, MadeFrom body value)
      (made_result : MadeFrom body arm.result) :
      Outcome indent body state
        { state with collected := { state.collected with arms := state.collected.arms ++ [arm] } }

open Conversion

theorem madeFrom_field {body field : Text} {statement : Statement}
    (found : read? body = some statement) (mem : field ∈ statement.fields) : MadeFrom body field :=
  .of_isInfix (fields_infix_of_read? found field mem)

theorem foldl_declare (names : List Text) (state : State) :
    names.foldl State.declare state =
      { state with names := names.foldl Names.declare state.names } := by
  induction names generalizing state with
  | nil => rfl
  | cons name names ih => exact ih (state.declare name)

theorem exists_emit_of_perform {indent : Int} {body : Text} {statement : Statement}
    {state after : State} (found : read? body = some statement)
    (simple : statement.isSimple = true) (done : statement.perform indent state = .ok () after) :
    ∃ names text, MadeFrom body text ∧ (statement = .leave ∨ text.isLeave = false) ∧
      after = { state with names := names }.emit indent text := by
  have field {field : Text} (mem : field ∈ statement.fields) : MadeFrom body field :=
    madeFrom_field found mem
  cases statement with
  | require path =>
      simp only [perform, emit, modify_eq_ok] at done
      subst done
      have path_made := (field (by simp [fields])).trans (madeFrom_requiredPath path)
      refine ⟨_, _, ?_, .inr ?_, rfl⟩
      · exact ((MadeFrom.of_plain (by decide)).append path_made).append (.of_plain (by decide))
      · exact Text.isLeave_eq_false_of_mem
          (List.mem_append_left _ (List.mem_append_left _ (by decide : '"' ∈ _))) (by decide)
  | arrow target parameters result =>
      simp only [perform, emit, declare, declareAll, bind_eq_ok, withNames_eq_ok, expand_eq_ok,
        modify_eq_ok, foldl_declare] at done
      obtain ⟨written, _, ⟨wrote, rfl⟩, _, _, rfl, value, _, ⟨expanded, rfl⟩, _, _, rfl, rfl⟩ :=
        done
      have target_made : MadeFrom body target := field (by simp [fields])
      have written_made : MadeFrom body written := (field (by simp [fields])).trans
        (Parameter.madeFrom_writeList (fun _ => Parameter.takenFrom_of_mem_listOfStoredText) wrote)
      have value_made : MadeFrom body value := by
        refine MadeFrom.trans ?_ (Expr.madeFrom_expand expanded)
        have whole : MadeFrom body result := field (by simp [fields])
        cases shorter : Text.after? "return ".toList result with
        | none => exact whole
        | some rest =>
            have split := Text.after?_eq_some_iff.mp shorter
            exact whole.trans (.of_isInfix (split ▸ (List.suffix_append _ _).isInfix))
      refine ⟨_, _, ?_, .inr ?_, rfl⟩
      · exact ((((target_made.cons (by decide)).append (.of_plain (by decide))).append
          written_made).append (.of_plain (by decide))).append value_made |>.append
            (.of_plain (by decide))
      · exact Text.isLeave_eq_false_of_mem (List.mem_cons_self : '$' ∈ _) (by decide)
  | input target prompt =>
      simp only [perform, emit, declare, bind_eq_ok, modify_eq_ok] at done
      obtain ⟨_, _, rfl, rfl⟩ := done
      have target_made : MadeFrom body target := field (by simp [fields])
      have prompt_made := (field (by simp [fields])).trans (Expr.madeFrom_unquoted prompt)
      refine ⟨_, _, ?_, .inr ?_, rfl⟩
      · exact (((target_made.cons (by decide)).append (.of_plain (by decide))).append
          prompt_made).append (.of_plain (by decide))
      · exact Text.isLeave_eq_false_of_mem (List.mem_cons_self : '$' ∈ _) (by decide)
  | choice target accepted condition rejected =>
      simp only [perform, emit, declare, bind_eq_ok, expand_eq_ok, modify_eq_ok] at done
      obtain ⟨_, _, rfl, test, _, ⟨tested, rfl⟩, first, _, ⟨taken, rfl⟩, second, _, ⟨left, rfl⟩,
        rfl⟩ := done
      have target_made : MadeFrom body target := field (by simp [fields])
      have test_made := (field (by simp [fields])).trans (Expr.madeFrom_expand tested)
      have first_made := (field (by simp [fields])).trans (Expr.madeFrom_expand taken)
      have second_made := (field (by simp [fields])).trans (Expr.madeFrom_expand left)
      refine ⟨_, _, ?_, .inr ?_, rfl⟩
      · exact (((((target_made.cons (by decide)).append (.of_plain (by decide))).append
          test_made).append (.of_plain (by decide))).append first_made |>.append
            (.of_plain (by decide))).append second_made |>.append (.of_plain (by decide))
      · exact Text.isLeave_eq_false_of_mem (List.mem_cons_self : '$' ∈ _) (by decide)
  | constant name value =>
      simp only [perform, emit, define, bind_eq_ok, expand_eq_ok, modify_eq_ok] at done
      obtain ⟨written, _, ⟨expanded, rfl⟩, _, _, rfl, rfl⟩ := done
      have name_made : MadeFrom body name := field (by simp [fields])
      have written_made := (field (by simp [fields])).trans (Expr.madeFrom_expand expanded)
      refine ⟨_, _, ?_, .inr ?_, rfl⟩
      · exact ((((MadeFrom.of_plain (by decide)).append name_made).append
          (.of_plain (by decide))).append written_made).append (.of_plain (by decide))
      · exact Text.isLeave_eq_false_of_mem (List.mem_cons_self : 'd' ∈ _) (by decide)
  | assign target value =>
      simp only [perform, emit, declare, bind_eq_ok, withNames_eq_ok, modify_eq_ok] at done
      obtain ⟨_, _, rfl, written, _, ⟨expanded, rfl⟩, rfl⟩ := done
      have target_made : MadeFrom body target := field (by simp [fields])
      have written_made := (field (by simp [fields])).trans (Expr.madeFrom_expandValue expanded)
      refine ⟨_, _, ?_, .inr ?_, rfl⟩
      · exact (((target_made.cons (by decide)).append (.of_plain (by decide))).append
          written_made).append (.of_plain (by decide))
      · exact Text.isLeave_eq_false_of_mem (List.mem_cons_self : '$' ∈ _) (by decide)
  | returnValue value =>
      simp only [perform, emit, bind_eq_ok, expand_eq_ok, modify_eq_ok] at done
      obtain ⟨written, _, ⟨expanded, rfl⟩, rfl⟩ := done
      have written_made := (field (by simp [fields])).trans (Expr.madeFrom_expand expanded)
      refine ⟨_, _, ?_, .inr ?_, rfl⟩
      · exact ((MadeFrom.of_plain (by decide)).append written_made).append (.of_plain (by decide))
      · exact Text.isLeave_eq_false_of_mem
          (List.mem_append_left _ (List.mem_append_left _ (by decide : 't' ∈ _))) (by decide)
  | leave =>
      simp only [perform, emit, modify_eq_ok] at done
      exact ⟨_, _, .of_plain (by decide), .inl rfl, done.symm⟩
  | proceed =>
      simp only [perform, emit, modify_eq_ok] at done
      exact ⟨_, _, .of_plain (by decide), .inr (by decide), done.symm⟩
  | pass =>
      simp only [perform, emit, modify_eq_ok] at done
      exact ⟨_, _, .of_plain (by decide), .inr (by decide), done.symm⟩
  | print content =>
      simp only [perform, emit, bind_eq_ok, expand_eq_ok, modify_eq_ok] at done
      obtain ⟨written, _, ⟨expanded, rfl⟩, rfl⟩ := done
      have content_made := (field (by simp [fields])).trans (madeFrom_printedContent content)
      have written_made := content_made.trans (Expr.madeFrom_expand expanded)
      refine ⟨_, _, ?_, .inr ?_, rfl⟩
      · exact ((MadeFrom.of_plain (by decide)).append written_made).append (.of_plain (by decide))
      · exact Text.isLeave_eq_false_of_mem
          (List.mem_append_left _ (List.mem_append_left _ (by decide : 'c' ∈ _))) (by decide)
  | call callee arguments =>
      simp only [perform, emit, bind_eq_ok, expand_eq_ok, modify_eq_ok] at done
      obtain ⟨written, _, ⟨expanded, rfl⟩, rfl⟩ := done
      have callee_made : MadeFrom body callee := field (by simp [fields])
      have arguments_made := (field (by simp [fields])).trans
        (madeFrom_callArguments callee arguments)
      have written_made := arguments_made.trans (Expr.madeFrom_expand expanded)
      refine ⟨_, _, ?_, .inr ?_, rfl⟩
      · exact ((callee_made.append (.of_plain (by decide))).append written_made).append
          (.of_plain (by decide))
      · have opening : '(' ∈ callee ++ ['('] ++ written ++ ");".toList := by simp
        exact Text.isLeave_eq_false_of_mem opening (by decide)
  | _ => simp [isSimple] at simple

/-- Whether a statement is a header that opens its block and does nothing else but to introduce
names. -/
def isHeader : Statement → Bool
  | .function _ _ _ | .closure _ _ | .when _ | .elseWhen _ | .otherwise => true
  | .countLoop _ _ | .eachLoop _ _ => true
  | _ => false

theorem exists_openBlock_of_perform {indent : Int} {body : Text} {statement : Statement}
    {state after : State} (found : read? body = some statement)
    (header : statement.isHeader = true) (done : statement.perform indent state = .ok () after) :
    ∃ names block header, statement.opened? = some block ∧ MadeFrom body header ∧
      after = ({ state with names := names }.emit indent (header ++ " \x7b".toList)).openBlock block
        (indent + 4) := by
  have field {field : Text} (mem : field ∈ statement.fields) : MadeFrom body field :=
    madeFrom_field found mem
  cases statement with
  | function name parameters result =>
      simp only [perform, openBlock, declareAll, bind_eq_ok, withNames_eq_ok, modify_eq_ok,
        foldl_declare] at done
      obtain ⟨written, _, ⟨wrote, rfl⟩, _, _, rfl, rfl⟩ := done
      have name_made : MadeFrom body name := field (by simp [fields])
      have written_made : MadeFrom body written := (field (by simp [fields])).trans
        (Parameter.madeFrom_writeList (fun _ => Parameter.takenFrom_of_mem_listOfText) wrote)
      have result_made := (field (by simp [fields])).trans (Parameter.madeFrom_spellResult result)
      refine ⟨(Parameter.listOfText parameters).map (·.name) |>.foldl Names.declare state.names, _,
        "function ".toList ++ name ++ ['('] ++ written ++ "): ".toList ++
        Parameter.spellResult result, rfl, ?_, rfl⟩
      exact (((((MadeFrom.of_plain (by decide)).append name_made).append
        (.of_plain (by decide))).append written_made).append (.of_plain (by decide))).append
          result_made
  | closure target parameters =>
      simp only [perform, openBlock, declare, declareAll, bind_eq_ok, withNames_eq_ok, modify_eq_ok,
        foldl_declare] at done
      obtain ⟨written, _, ⟨wrote, rfl⟩, _, _, rfl, _, _, rfl, rfl⟩ := done
      have target_made : MadeFrom body target := field (by simp [fields])
      have written_made : MadeFrom body written := (field (by simp [fields])).trans
        (Parameter.madeFrom_writeList (fun _ => Parameter.takenFrom_of_mem_listOfStoredText) wrote)
      refine ⟨((Parameter.listOfStoredText parameters).map (·.name) |>.foldl Names.declare
        state.names).declare target, _, '$' :: target ++ " = function(".toList ++ written ++ [')'],
        rfl, ?_, rfl⟩
      exact (((target_made.cons (by decide)).append (.of_plain (by decide))).append
        written_made).append (.of_plain (by decide))
  | when condition =>
      simp only [perform, openBlock, bind_eq_ok, expand_eq_ok, modify_eq_ok] at done
      obtain ⟨written, _, ⟨expanded, rfl⟩, rfl⟩ := done
      have written_made := (field (by simp [fields])).trans (Expr.madeFrom_expand expanded)
      exact ⟨_, _, _, rfl, ((MadeFrom.of_plain (by decide)).append written_made).append
        (.of_plain (by decide)), rfl⟩
  | elseWhen condition =>
      simp only [perform, openBlock, bind_eq_ok, expand_eq_ok, modify_eq_ok] at done
      obtain ⟨written, _, ⟨expanded, rfl⟩, rfl⟩ := done
      have written_made := (field (by simp [fields])).trans (Expr.madeFrom_expand expanded)
      exact ⟨_, _, _, rfl, ((MadeFrom.of_plain (by decide)).append written_made).append
        (.of_plain (by decide)), rfl⟩
  | otherwise =>
      simp only [perform, openBlock, modify_eq_ok] at done
      exact ⟨_, _, _, rfl, .of_plain (by decide), done.symm⟩
  | countLoop counter bounds =>
      simp only [perform, openBlock, declare, bind_eq_ok, expand_eq_ok, modify_eq_ok] at done
      obtain ⟨start, _, ⟨from_start, rfl⟩, stop, _, ⟨to_stop, rfl⟩, step, _, ⟨by_step, rfl⟩, _, _,
        rfl, rfl⟩ := done
      have counter_made : MadeFrom body counter := field (by simp [fields])
      have bounds_made : MadeFrom body bounds := field (by simp [fields])
      obtain ⟨first, last, distance⟩ := madeFrom_bounds bounds
      have start_made := bounds_made.trans (first.trans (Expr.madeFrom_expand from_start))
      have stop_made := bounds_made.trans (last.trans (Expr.madeFrom_expand to_stop))
      have step_made := bounds_made.trans (distance.trans (Expr.madeFrom_expand by_step))
      have begin_made : MadeFrom body ("for ($".toList ++ counter ++ " = ".toList ++ start) :=
        (((MadeFrom.of_plain (by decide)).append counter_made).append
          (.of_plain (by decide))).append start_made
      have test_made : MadeFrom body ("for ($".toList ++ counter ++ " = ".toList ++ start ++
          "; $".toList ++ counter ++ " < ".toList ++ stop) :=
        (((begin_made.append (.of_plain (by decide))).append counter_made).append
          (.of_plain (by decide))).append stop_made
      refine ⟨state.names.declare counter, _, "for ($".toList ++ counter ++ " = ".toList ++ start ++
        "; $".toList ++ counter ++ " < ".toList ++ stop ++ "; $".toList ++ counter ++
          " += ".toList ++ step ++ [')'], rfl, ?_, rfl⟩
      exact ((((test_made.append (.of_plain (by decide))).append counter_made).append
        (.of_plain (by decide))).append step_made).append (.of_plain (by decide))
  | eachLoop element collection =>
      simp only [perform, openBlock, declare, bind_eq_ok, expand_eq_ok, modify_eq_ok] at done
      obtain ⟨_, _, rfl, written, _, ⟨expanded, rfl⟩, rfl⟩ := done
      have element_made : MadeFrom body element := field (by simp [fields])
      have written_made := (field (by simp [fields])).trans (Expr.madeFrom_expand expanded)
      refine ⟨_, _, _, rfl, ?_, rfl⟩
      exact ((((MadeFrom.of_plain (by decide)).append written_made).append
        (.of_plain (by decide))).append element_made).append (.of_plain (by decide))
  | _ => simp [isHeader] at header

theorem opened?_of_isHeader {statement : Statement} {block : Block}
    (header : statement.isHeader = true) (kind : statement.opened? = some block) :
    block ≠ .resource ∧ block ≠ .doLoop ∧ block ≠ .whileLoop ∧ block ≠ .switch := by
  cases statement <;> simp_all [isHeader, opened?] <;> subst kind <;> simp

theorem outcome_of_whileLoop {indent : Int} {body condition : Text} {state after : State}
    (found : read? body = some (.whileLoop condition))
    (done : (whileLoop condition).perform indent state = .ok () after) :
    Outcome indent body state after := by
  have condition_made : MadeFrom body condition.strip :=
    (madeFrom_field found (by simp [fields])).trans (.of_isInfix (Text.strip_isInfix condition))
  simp only [perform, bind_eq_ok, get_eq_ok] at done
  obtain ⟨_, _, ⟨rfl, rfl⟩, done⟩ := done
  split at done
  · rename_i pending
    simp only [endDo, bind_eq_ok, get_eq_ok] at done
    obtain ⟨_, _, ⟨rfl, rfl⟩, done⟩ := done
    cases open_eq : state.levels with
    | nil =>
        rw [open_eq] at done
        cases done
    | cons level below =>
        simp only [open_eq, emit, bind_eq_ok, expand_eq_ok, modify_eq_ok] at done
        obtain ⟨_, _, rfl, written, _, ⟨expanded, rfl⟩, _, _, rfl, rfl⟩ := done
        exact .ended found pending open_eq (condition_made.trans (Expr.madeFrom_expand expanded))
  · rename_i idle
    simp only [openBlock, bind_eq_ok, expand_eq_ok, modify_eq_ok] at done
    obtain ⟨written, _, ⟨expanded, rfl⟩, rfl⟩ := done
    have written_made := condition_made.trans (Expr.madeFrom_expand expanded)
    refine .opened state.names (openedBy?_of_read? found rfl) (by simp) (by simp)
      (fun _ => by simpa using idle) (.of_read? found rfl state) ?_ (by simp)
    exact ((MadeFrom.of_plain (by decide)).append written_made).append (.of_plain (by decide))

theorem breakPending_eq_ok {indent : Int} {state after : State} {result : Unit} :
    breakPending indent state = .ok result after ↔
      (if state.casePending then state.emit (indent - 4) "break;".toList else state) = after := by
  change (if state.casePending then emit (indent - 4) "break;".toList
    else pure () : Conversion Unit) state = _ ↔ _
  split
  · exact modify_eq_ok
  · simp [pure_eq_ok]

theorem outcome_of_arm {indent : Int} {body : Text} {statement : Statement} {state after : State}
    (found : read? body = some statement) (is_arm : statement.isArm = true)
    (isOpen : state.collected.isOpen = true)
    (done : statement.perform indent state = .ok () after) : Outcome indent body state after := by
  cases statement with
  | arm values result =>
      simp only [perform, addArm, bind_eq_ok, mapM_expand_eq_ok, expand_eq_ok, modify_eq_ok] at done
      obtain ⟨choices, _, ⟨each, rfl⟩, written, _, ⟨expanded, rfl⟩, rfl⟩ := done
      have values_made : MadeFrom body values := madeFrom_field found (by simp [fields])
      have result_made : MadeFrom body result.strip :=
        (madeFrom_field found (by simp [fields])).trans (.of_isInfix (Text.strip_isInfix result))
      refine .armed ⟨choices, written⟩ found is_arm isOpen ?_
        (result_made.trans (Expr.madeFrom_expand expanded))
      intro value mem
      obtain ⟨choice, choice_mem, chosen⟩ := Except.exists_of_mem_mapM each value mem
      have piece : MadeFrom values choice := .of_isInfix (infix_of_mem_armValues choice_mem)
      exact values_made.trans (piece.trans (Expr.madeFrom_expand chosen))
  | defaultArm result =>
      simp only [perform, addArm, bind_eq_ok, expand_eq_ok, modify_eq_ok] at done
      obtain ⟨written, _, ⟨expanded, rfl⟩, rfl⟩ := done
      have result_made : MadeFrom body result.strip :=
        (madeFrom_field found (by simp [fields])).trans (.of_isInfix (Text.strip_isInfix result))
      refine .armed ⟨["default".toList], written⟩ found is_arm isOpen ?_
        (result_made.trans (Expr.madeFrom_expand expanded))
      intro value mem
      rw [List.mem_singleton.mp mem]
      exact .of_plain (by decide)
  | _ => simp [isArm] at is_arm

/-- A statement that is performed has one of the outcomes. -/
theorem outcome_of_perform {indent : Int} {body : Text} {statement : Statement}
    {state after : State} (found : read? body = some statement)
    (applies : statement.applies state = true)
    (done : statement.perform indent state = .ok () after) : Outcome indent body state after := by
  by_cases simple : statement.isSimple = true
  · obtain ⟨names, text, made, leaves, rfl⟩ := exists_emit_of_perform found simple done
    have regular : statement.isArm = false := by cases statement <;> simp_all [isSimple, isArm]
    refine .wrote names ?_ (.of_read? found regular state) made (fun left => .inl ?_) ?_
    · rw [openedBy?_of_read? found regular]
      cases statement <;> simp_all [isSimple, opened?]
    · rw [found, leaves.resolve_right (by simp [left])]
    · intro other other_found
      obtain rfl := Option.some.inj (found.symm.trans other_found)
      exact .inl simple
  by_cases header : statement.isHeader = true
  · obtain ⟨names, block, text, kind, made, rfl⟩ := exists_openBlock_of_perform found header done
    obtain ⟨owner, loop, other, switch⟩ := opened?_of_isHeader header kind
    have regular : statement.isArm = false := by cases statement <;> simp_all [isHeader, isArm]
    refine .opened names ?_ owner loop (absurd · other) (.of_read? found regular state) made switch
    rw [openedBy?_of_read? found regular, kind]
  cases statement with
  | whileLoop condition => exact outcome_of_whileLoop found done
  | arm values result => exact outcome_of_arm found rfl applies done
  | defaultArm result => exact outcome_of_arm found rfl applies done
  | resource acquired handle =>
      simp only [perform, emit, openBlock, declare, bind_eq_ok, expand_eq_ok, modify_eq_ok] at done
      obtain ⟨written, _, ⟨expanded, rfl⟩, _, _, rfl, _, _, rfl, _, _, rfl, rfl⟩ := done
      have handle_made : MadeFrom body handle := madeFrom_field found (by simp [fields])
      have written_made :=
        (madeFrom_field found (by simp [fields])).trans (Expr.madeFrom_expand expanded)
      exact .acquired (state.names.declare handle) found
        ((((handle_made.cons (by decide)).append (.of_plain (by decide))).append
          written_made).append (.of_plain (by decide)))
        (Text.isLeave_eq_false_of_mem (List.mem_cons_self : '$' ∈ _) (by decide))
  | matchAssign target subject =>
      simp only [perform, startMatch, declare, bind_eq_ok, modify_eq_ok] at done
      obtain ⟨_, _, rfl, rfl⟩ := done
      exact .started (state.names.declare target) found rfl
  | matchReturn subject =>
      simp only [perform, startMatch, modify_eq_ok] at done
      exact done ▸ .started state.names found rfl
  | doLoop =>
      simp only [perform, openBlock, bind_eq_ok, modify_eq_ok] at done
      obtain ⟨_, _, rfl, rfl⟩ := done
      exact .looped found
  | switch subject =>
      simp only [perform, openBlock, bind_eq_ok, expand_eq_ok, modify_eq_ok] at done
      obtain ⟨written, _, ⟨expanded, rfl⟩, _, _, rfl, rfl⟩ := done
      have written_made :=
        (madeFrom_field found (by simp [fields])).trans (Expr.madeFrom_expand expanded)
      exact .switched found
        (((MadeFrom.of_plain (by decide)).append written_made).append (.of_plain (by decide)))
        ((List.prefix_append _ _).trans (List.prefix_append _ _))
  | label value =>
      simp only [perform, setCasePending, emit, bind_eq_ok, breakPending_eq_ok, expand_eq_ok,
        modify_eq_ok] at done
      obtain ⟨_, _, rfl, written, _, ⟨expanded, rfl⟩, _, _, rfl, rfl⟩ := done
      have written_made :=
        (madeFrom_field found (by simp [fields])).trans (Expr.madeFrom_expand expanded)
      exact .labelled found rfl
        (((MadeFrom.of_plain (by decide)).append written_made).append (.of_plain (by decide)))
        (.inr ⟨written, rfl⟩)
  | defaultLabel =>
      simp only [perform, setCasePending, emit, bind_eq_ok, breakPending_eq_ok,
        modify_eq_ok] at done
      obtain ⟨_, _, rfl, _, _, rfl, rfl⟩ := done
      exact .labelled found rfl (.of_plain (by decide)) (.inl rfl)
  | _ => simp_all [isSimple, isHeader]

end Statement

namespace Text

/-- Whether a line is blank or a comment. -/
def isRemark (line : Text) : Bool :=
  line.strip.head?.all (· == '#')

/-- What is written for a blank line or a comment. -/
def remarkText (line : Text) : Text :=
  match line.strip with
  | [] => []
  | _ :: comment => indentation line.indentOf ++ ("// ".toList ++ strip comment)

theorem madeFrom_remarkText (line : Text) : MadeFrom line line.remarkText := by
  unfold remarkText
  split
  · exact .nil
  · rename_i first comment body
    have piece : List.IsInfix (strip comment) line :=
      (strip_isInfix comment).trans ((List.suffix_cons first comment).isInfix.trans
        (body ▸ strip_isInfix line))
    have spaces : MadeFrom line (indentation line.indentOf) :=
      .of_plain (by simp [indentation, isPlain])
    exact spaces.append ((MadeFrom.of_plain (by decide)).append (.of_isInfix piece))

end Text

namespace Conversion

open Statement

theorem outcome_of_convertUnknown {indent : Int} {body : Text} {state after : State}
    (unknown : (read? body).filter (!·.isArm) = none) (apart : Apart body state)
    (done : convertUnknown indent body state = .ok () after) : Outcome indent body state after := by
  unfold convertUnknown at done
  split at done
  · rename_i colon
    simp only [openBlock, modify_eq_ok] at done
    have kind : openedBy? body = some .unnamed := by simp [openedBy?, unknown, colon]
    exact done ▸ .opened state.names kind (by simp [Block.unnamed]) (by simp [Block.unnamed])
      (by simp [Block.unnamed]) apart (.of_isInfix (List.dropLast_prefix body).isInfix)
      (by simp [Block.unnamed])
  · rename_i colon
    simp only [emit, bind_eq_ok, expand_eq_ok, modify_eq_ok] at done
    obtain ⟨written, _, ⟨expanded, rfl⟩, rfl⟩ := done
    have kind : openedBy? body = none := by simp [openedBy?, unknown, colon]
    refine .wrote state.names kind apart
      ((Expr.madeFrom_expand expanded).append (.of_plain (by decide)))
      (fun _ => .inr ⟨_, written, expanded, rfl⟩) fun statement found => .inr ?_
    simpa [found, Option.filter] using unknown

theorem outcome_of_convertBody {indent : Int} {body : Text} {state after : State}
    (done : convertBody indent body state = .ok () after) :
    Outcome indent body (state.dedent indent) after := by
  rw [convertBody_eq] at done
  cases found : read? body with
  | none =>
      rw [found] at done
      exact outcome_of_convertUnknown (by simp [found]) (by simp [Apart, found]) done
  | some statement =>
      simp only [found] at done
      split at done
      · rename_i applies
        exact outcome_of_perform found applies done
      · rename_i idle
        refine outcome_of_convertUnknown ?_ ?_ done
        -- Only an arm can fail to apply.
        · cases statement <;> simp_all [applies, isArm, Option.filter]
        · cases statement <;> simp_all [applies, isArm, Apart]

theorem convertLine_of_isRemark_eq_false {line : Text} (spoken : line.isRemark = false) :
    convertLine line = convertBody line.indentOf line.strip := by
  unfold Text.isRemark at spoken
  unfold convertLine
  split
  · simp_all
  · simp_all
  · rfl

theorem convertLine_of_isRemark {line : Text} (remark : line.isRemark = true) (state : State) :
    convertLine line state = .ok () (state.writeLine line.remarkText) := by
  unfold convertLine Text.remarkText
  cases body : line.strip with
  | nil => rfl
  | cons first comment =>
      obtain rfl : first = '#' := by simpa [Text.isRemark, body] using remark
      rfl

/-- A line that is passed is a remark, which is copied, or it is performed behind the blocks that it
leaves. -/
theorem convertLine_eq_ok {line : Text} {state after : State}
    (done : convertLine line state = .ok () after) :
    (line.isRemark = true ∧ ∃ text, MadeFrom line text ∧ after = state.writeLine text) ∨
      (line.isRemark = false ∧
        Outcome line.indentOf line.strip (state.dedent line.indentOf) after) := by
  cases spoken : line.isRemark with
  | false =>
      rw [convertLine_of_isRemark_eq_false spoken] at done
      exact .inr ⟨rfl, outcome_of_convertBody done⟩
  | true =>
      rw [convertLine_of_isRemark spoken] at done
      cases done
      exact .inl ⟨rfl, _, line.madeFrom_remarkText, rfl⟩

end Conversion
end Ephp
