import Ephp.Proofs.Formatless

/-!
# What statements are made of

Every statement is a sequence of a few primitive steps.  A property of steps that the primitive ones
have and that passes to sequences is therefore a property of all statements; only the end of a do
loop looks at more of the state.
-/

namespace Ephp
namespace Conversion

/-- A property that passes from steps to sequences of them and that the steps have which write, open
blocks and introduce names.  A step that expands something has it if it cannot fail, as long as
`body` is without format texts. -/
structure Compositional (body : Text) (holds : {α : Type} → Conversion α → Prop) : Prop where
  pure : ∀ {α : Type} (answer : α), holds (pure answer)
  bind : ∀ {α β : Type} {first : Conversion α} {next : α → Conversion β}, holds first →
    (∀ answer, holds (next answer)) → holds (first >>= next)
  emit : ∀ indent text, holds (emit indent text)
  openBlock : ∀ block indent header, holds (openBlock block indent header)
  declareAll : ∀ names, holds (declareAll names)
  define : ∀ name, holds (define name)
  acquire : ∀ level resource, holds (modify (·.acquire level resource))
  withNames : ∀ {α : Type} {action : Names → Except Fault α},
    (body.Formatless → ∀ names, ∃ answer, action names = .ok answer) → holds (withNames action)

/-- A property that also the steps have which set something pending. -/
structure Compositional.Pending (body : Text) (holds : {α : Type} → Conversion α → Prop) : Prop
    extends Compositional body holds where
  breakPending : ∀ indent, holds (Statement.breakPending indent)
  setCasePending : holds Statement.setCasePending
  setDoPending : holds (modify fun state => { state with doPending := true })
  setSwitchPending : holds (modify fun state => { state with switchPending := true })

/-- A property that also the steps have which collect a match. -/
structure Compositional.Collecting (body : Text) (holds : {α : Type} → Conversion α → Prop) : Prop
    extends Compositional.Pending body holds where
  startMatch : ∀ subject use target, holds (Statement.startMatch subject use target)
  addArm : ∀ values result, holds (Statement.addArm values result)

namespace Compositional

open Statement

variable {body : Text} {holds : {α : Type} → Conversion α → Prop}

theorem declare (rules : Compositional body holds) (name : Text) :
    holds (Conversion.declare name) :=
  rules.declareAll [name]

theorem expand (rules : Compositional body holds) {text : Text}
    (plain : body.Formatless → Format.body? text = none) : holds (Conversion.expand text) :=
  rules.withNames fun formatless => Expr.exists_expand (plain formatless)

theorem expand_piece (rules : Compositional body holds) {text : Text}
    (stands : List.IsInfix text body) : holds (Conversion.expand text) :=
  rules.expand fun formatless => (formatless.of_isInfix stands).body?_eq_none

theorem mapM_expand (rules : Compositional body holds) {texts : List Text}
    (stand : ∀ text ∈ texts, List.IsInfix text body) : holds (texts.mapM Conversion.expand) := by
  induction texts with
  | nil => exact rules.pure []
  | cons text texts ih =>
      obtain ⟨first, others⟩ := List.forall_mem_cons.mp stand
      rw [List.mapM_cons]
      exact rules.bind (rules.expand_piece first) fun _ =>
        rules.bind (ih others) fun _ => rules.pure _

theorem bounds_plain {text : Text} (stands : List.IsInfix text body)
    (formatless : body.Formatless) :
    Format.body? (Bounds.ofItems text.items).start = none ∧
      Format.body? (Bounds.ofItems text.items).stop = none ∧
        Format.body? (Bounds.ofItems text.items).step = none := by
  have piece {item : Text} (mem : item ∈ text.items) : Format.body? item = none :=
    (formatless.of_isInfix ((Text.infix_of_mem_items mem).trans stands)).body?_eq_none
  unfold Bounds.ofItems
  split
  · rename_i items_eq
    exact ⟨piece (by simp [items_eq]), piece (by simp [items_eq]), piece (by simp [items_eq])⟩
  · rename_i items_eq
    exact ⟨piece (by simp [items_eq]), piece (by simp [items_eq]), rfl⟩
  · rename_i items_eq
    exact ⟨rfl, piece (by simp [items_eq]), rfl⟩
  · exact ⟨rfl, rfl, rfl⟩

theorem printedContent_plain {content : Text} (plain : Format.body? content = none) :
    Format.body? (printedContent content) = none := by
  unfold printedContent
  split
  · rfl
  · exact plain

theorem callArguments_plain (callee : Text) {arguments : Text} (formatless : arguments.Formatless) :
    Format.body? (callArguments callee arguments) = none := by
  unfold callArguments
  split
  · -- There is no format text to be replaced.
    have same (build : Text × Unit → Text) : formatLiteral.replace build arguments = arguments := by
      refine Text.substitute_eq_self fun rest stands => ?_
      simp only [Pattern.rule, Option.map_eq_none_iff, formatLiteral, Pattern.match?,
        Option.bind_eq_none_iff, Text.after?_eq_some_iff]
      rintro behind rfl
      exact absurd ((List.prefix_append ['f', '"'] behind).isInfix.trans stands.isInfix)
        formatless.1
    rw [same]
    exact formatless.body?_eq_none
  · exact formatless.body?_eq_none

/-- Statements that look at nothing but the names. -/
theorem perform (rules : Compositional body holds) (indent : Int) {statement : Statement}
    (found : read? body = some statement)
    (regular : statement.isSimple = true ∨ statement.isHeader = true ∨
      statement.opened? = some .resource) :
    holds (statement.perform indent) := by
  have field {field : Text} (mem : field ∈ statement.fields) : List.IsInfix field body :=
    fields_infix_of_read? found field mem
  cases statement with
  | require path => exact rules.emit _ _
  | function name parameters result =>
      have piece : List.IsInfix parameters body := field (by simp [fields])
      have written := rules.withNames fun formatless => Parameter.exists_writeList
        (formatless.of_isInfix piece) fun _ => Parameter.takenFrom_of_mem_listOfText
      exact rules.bind written fun _ => rules.bind (rules.openBlock _ _ _) fun _ =>
        rules.declareAll _
  | arrow target parameters result =>
      have piece : List.IsInfix parameters body := field (by simp [fields])
      have written := rules.withNames fun formatless => Parameter.exists_writeList
        (formatless.of_isInfix piece) fun _ => Parameter.takenFrom_of_mem_listOfStoredText
      have value : List.IsInfix ((Text.after? "return ".toList result).getD result) body := by
        have whole : List.IsInfix result body := field (by simp [fields])
        cases shorter : Text.after? "return ".toList result with
        | none => exact whole
        | some rest =>
            have split := Text.after?_eq_some_iff.mp shorter
            exact List.IsInfix.trans (split ▸ (List.suffix_append _ _).isInfix) whole
      exact rules.bind written fun _ => rules.bind (rules.declareAll _) fun _ =>
        rules.bind (rules.expand_piece value) fun _ => rules.bind (rules.emit _ _) fun _ =>
          rules.declare _
  | closure target parameters =>
      have piece : List.IsInfix parameters body := field (by simp [fields])
      have written := rules.withNames fun formatless => Parameter.exists_writeList
        (formatless.of_isInfix piece) fun _ => Parameter.takenFrom_of_mem_listOfStoredText
      exact rules.bind written fun _ => rules.bind (rules.declareAll _) fun _ =>
        rules.bind (rules.openBlock _ _ _) fun _ => rules.declare _
  | resource acquired handle =>
      exact rules.bind (rules.expand_piece (field (by simp [fields]))) fun _ =>
        rules.bind (rules.emit _ _) fun _ => rules.bind (rules.openBlock _ _ _) fun _ =>
          rules.bind (rules.declare _) fun _ => rules.acquire _ _
  | input target prompt => exact rules.bind (rules.emit _ _) fun _ => rules.declare _
  | choice target accepted condition rejected =>
      exact rules.bind (rules.declare _) fun _ =>
        rules.bind (rules.expand_piece (field (by simp [fields]))) fun _ =>
          rules.bind (rules.expand_piece (field (by simp [fields]))) fun _ =>
            rules.bind (rules.expand_piece (field (by simp [fields]))) fun _ => rules.emit _ _
  | constant name value =>
      exact rules.bind (rules.expand_piece (field (by simp [fields]))) fun _ =>
        rules.bind (rules.emit _ _) fun _ => rules.define _
  | assign target value =>
      have piece : List.IsInfix value body := field (by simp [fields])
      have written := rules.withNames fun formatless =>
        Expr.exists_expandValue (formatless.of_isInfix piece)
      exact rules.bind (rules.declare _) fun _ => rules.bind written fun _ => rules.emit _ _
  | leave => exact rules.emit _ _
  | proceed => exact rules.emit _ _
  | pass => exact rules.emit _ _
  | returnValue value =>
      exact rules.bind (rules.expand_piece (field (by simp [fields]))) fun _ => rules.emit _ _
  | print content =>
      have piece : List.IsInfix content body := field (by simp [fields])
      have written := rules.expand fun formatless =>
        printedContent_plain (formatless.of_isInfix piece).body?_eq_none
      exact rules.bind written fun _ => rules.emit _ _
  | call callee arguments =>
      have piece : List.IsInfix arguments body := field (by simp [fields])
      have written := rules.expand fun formatless =>
        callArguments_plain callee (formatless.of_isInfix piece)
      exact rules.bind written fun _ => rules.emit _ _
  | when condition =>
      exact rules.bind (rules.expand_piece (field (by simp [fields]))) fun _ =>
        rules.openBlock _ _ _
  | elseWhen condition =>
      exact rules.bind (rules.expand_piece (field (by simp [fields]))) fun _ =>
        rules.openBlock _ _ _
  | otherwise => exact rules.openBlock _ _ _
  | countLoop counter bounds =>
      have plain := bounds_plain (field (by simp [fields]) : List.IsInfix bounds body)
      exact rules.bind (rules.expand fun formatless => (plain formatless).1) fun _ =>
        rules.bind (rules.expand fun formatless => (plain formatless).2.1) fun _ =>
          rules.bind (rules.expand fun formatless => (plain formatless).2.2) fun _ =>
            rules.bind (rules.openBlock _ _ _) fun _ => rules.declare _
  | eachLoop element collection =>
      exact rules.bind (rules.declare _) fun _ =>
        rules.bind (rules.expand_piece (field (by simp [fields]))) fun _ => rules.openBlock _ _ _
  | _ => simp [isSimple, isHeader, opened?] at regular

/-- The header of a loop where no do loop waits for its condition. -/
theorem openLoop (rules : Compositional body holds) (indent : Int) {condition : Text}
    (found : read? body = some (.whileLoop condition)) :
    holds (do
      let written ← Conversion.expand condition.strip
      Conversion.openBlock .whileLoop indent ("while (".toList ++ written ++ [')'])) := by
  have piece : List.IsInfix condition body := fields_infix_of_read? found _ (by simp [fields])
  exact rules.bind (rules.expand_piece ((Text.strip_isInfix condition).trans piece)) fun _ =>
    rules.openBlock _ _ _

theorem convertUnknown (rules : Compositional body holds) (indent : Int) :
    holds (Conversion.convertUnknown indent body) := by
  unfold Conversion.convertUnknown
  split
  · exact rules.openBlock _ _ _
  · exact rules.bind (rules.expand_piece (List.infix_refl body)) fun _ => rules.emit _ _

/-- All statements but those that collect a match and the header or the end of a loop. -/
theorem Pending.perform (rules : Compositional.Pending body holds) (indent : Int)
    {statement : Statement} (found : read? body = some statement)
    (other : ∀ condition, statement ≠ .whileLoop condition) (is_arm : statement.isArm = false)
    (header : statement.started? = none) : holds (statement.perform indent) := by
  by_cases regular : statement.isSimple = true ∨ statement.isHeader = true ∨
      statement.opened? = some .resource
  · exact rules.toCompositional.perform indent found regular
  have field {field : Text} (mem : field ∈ statement.fields) : List.IsInfix field body :=
    fields_infix_of_read? found field mem
  cases statement with
  | doLoop => exact rules.bind (rules.openBlock _ _ _) fun _ => rules.setDoPending
  | switch subject =>
      exact rules.bind (rules.expand_piece (field (by simp [fields]))) fun _ =>
        rules.bind (rules.openBlock _ _ _) fun _ => rules.setSwitchPending
  | label value =>
      exact rules.bind (rules.breakPending _) fun _ =>
        rules.bind (rules.expand_piece (field (by simp [fields]))) fun _ =>
          rules.bind (rules.emit _ _) fun _ => rules.setCasePending
  | defaultLabel =>
      exact rules.bind (rules.breakPending _) fun _ => rules.bind (rules.emit _ _) fun _ =>
        rules.setCasePending
  | whileLoop condition => exact absurd rfl (other condition)
  | matchAssign target subject => simp [started?] at header
  | matchReturn subject => simp [started?] at header
  | arm values result => simp [isArm] at is_arm
  | defaultArm result => simp [isArm] at is_arm
  | _ => simp [isSimple, isHeader, opened?] at regular

/-- All statements but the header or the end of a loop. -/
theorem Collecting.perform (rules : Compositional.Collecting body holds) (indent : Int)
    {statement : Statement} (found : read? body = some statement)
    (other : ∀ condition, statement ≠ .whileLoop condition) :
    holds (statement.perform indent) := by
  have field {field : Text} (mem : field ∈ statement.fields) : List.IsInfix field body :=
    fields_infix_of_read? found field mem
  cases statement with
  | matchAssign target subject =>
      exact rules.bind (rules.startMatch _ _ _) fun _ => rules.toCompositional.declare _
  | matchReturn subject => exact rules.startMatch _ _ _
  | arm values result =>
      have values_piece : List.IsInfix values body := field (by simp [fields])
      have result_piece : List.IsInfix result body := field (by simp [fields])
      exact rules.bind (rules.mapM_expand fun value mem =>
        (infix_of_mem_armValues mem).trans values_piece) fun _ =>
          rules.bind (rules.expand_piece ((Text.strip_isInfix result).trans result_piece)) fun _ =>
            rules.addArm _ _
  | defaultArm result =>
      have piece : List.IsInfix result body := field (by simp [fields])
      exact rules.bind (rules.expand_piece ((Text.strip_isInfix result).trans piece)) fun _ =>
        rules.addArm _ _
  | _ => exact rules.toPending.perform indent found other rfl rfl

end Compositional
end Conversion
end Ephp
