import Ephp.Proofs.Dedent
import Ephp.Proofs.Lockstep

/-!
# One conversion after another

The start of a source forgets everything but whether a switch and a label are pending.  A pending
switch makes no difference to what is written, since a block is closed by the same brace with it as
without it.  So of an earlier source nothing but a pending label can show in the output of a later
one.
-/

namespace Ephp
namespace State

/-- The states agree in everything but whether a switch waits for its end. -/
def AlikeButSwitch (left right : State) : Prop :=
  ∃ pending, left = { right with switchPending := pending }

namespace AlikeButSwitch

variable {left right : State}

theorem reset (same : left.casePending = right.casePending) :
    AlikeButSwitch left.reset right.reset :=
  ⟨left.switchPending, by rw [State.reset, State.reset, same]⟩

theorem flushMatch (alike : AlikeButSwitch left right) :
    AlikeButSwitch left.flushMatch right.flushMatch := by
  obtain ⟨pending, rfl⟩ := alike
  refine ⟨pending, ?_⟩
  unfold State.flushMatch
  cases right.collected.lines with
  | nil => rfl
  | cons first rest => rfl

/-- A block that ends the pending switch is written like a block that ends none. -/
theorem close (alike : AlikeButSwitch left right) (block : Option Block) (level : Int) :
    AlikeButSwitch (left.close block level) (right.close block level) := by
  obtain ⟨pending, rfl⟩ := alike
  unfold State.close
  by_cases owner : block = some .resource
  · rw [if_pos owner, if_pos owner]
    refine ⟨pending, ?_⟩
    cases right.resources.lookup level with
    | none => rfl
    | some resource => rfl
  rw [if_neg owner, if_neg owner]
  by_cases stored : block = some .closure
  · rw [if_pos stored, if_pos stored]
    exact ⟨pending, rfl⟩
  rw [if_neg stored, if_neg stored]
  by_cases labelled : right.casePending = true
  · rw [if_pos labelled, if_pos labelled]
    exact ⟨pending, rfl⟩
  rw [if_neg labelled, if_neg labelled]
  -- The brace is the same, and no switch is pending behind it.
  have brace (state : State) :
      (if state.switchPending then { state.emit level ['}'] with switchPending := false }
        else state.emit level ['}']) = { state.emit level ['}'] with switchPending := false } := by
    cases pending : state.switchPending with
    | true => rfl
    | false =>
        obtain ⟨⟩ := state
        cases pending
        rfl
  rw [brace, brace]
  exact ⟨false, rfl⟩

end AlikeButSwitch
end State

namespace Conversion

open State (AlikeButSwitch)

theorem synchronous_alikeButSwitch : Synchronous AlikeButSwitch where
  names_eq := by
    rintro _ right ⟨pending, rfl⟩
    rfl
  emit := by
    rintro _ right indent text ⟨pending, rfl⟩
    exact ⟨pending, rfl⟩
  openBlock := by
    rintro _ right block level ⟨pending, rfl⟩
    exact ⟨pending, rfl⟩
  named := by
    rintro _ right names ⟨pending, rfl⟩
    exact ⟨pending, rfl⟩
  acquire := by
    rintro _ right level resource ⟨pending, rfl⟩
    exact ⟨pending, rfl⟩
  levels_eq := by
    rintro _ right ⟨pending, rfl⟩
    rfl
  doPending_eq := by
    rintro _ right ⟨pending, rfl⟩
    rfl
  casePending_eq := by
    rintro _ right ⟨pending, rfl⟩
    rfl
  pop := by
    rintro _ right below ⟨pending, rfl⟩
    exact ⟨pending, rfl⟩
  setDoPending := by
    rintro _ right waiting ⟨pending, rfl⟩
    exact ⟨pending, rfl⟩
  setCasePending := by
    rintro _ right labelled ⟨pending, rfl⟩
    exact ⟨pending, rfl⟩
  setSwitchPending := by
    rintro _ right switched ⟨pending, rfl⟩
    exact ⟨switched, rfl⟩
  blocks_eq := by
    rintro _ right ⟨pending, rfl⟩
    rfl
  isOpen_eq := by
    rintro _ right ⟨pending, rfl⟩
    rfl
  writeLine := by
    rintro _ right text ⟨pending, rfl⟩
    exact ⟨pending, rfl⟩
  startMatch subject use target := .modify fun ⟨pending, same⟩ => ⟨pending, by rw [same]⟩
  addArm values result := .modify fun ⟨pending, same⟩ => ⟨pending, by rw [same]⟩
  flushMatch alike := alike.flushMatch
  close block level alike := alike.close block level

/-- From any two states that agree on whether a label is pending, a source becomes the same text or
fails with the same fault, and the states that are reached agree in everything, the lines included,
but whether a switch is pending. -/
theorem agree_convert_of_casePending {left right : State}
    (same : left.casePending = right.casePending) (source : Text) :
    Agree AlikeButSwitch (convert source left) (convert source right) := by
  have agree := synchronous_alikeButSwitch.convertLines source.lines (AlikeButSwitch.reset same)
  rw [convert_eq, convert_eq]
  generalize convertLines source.lines left.reset = left_result,
    convertLines source.lines right.reset = right_result at agree
  cases agree with
  | error kept => exact .error kept
  | ok kept =>
      have closed := synchronous_alikeButSwitch.closeAll kept.flushMatch
      have same_lines := congrArg State.lines closed.choose_spec
      simp only at same_lines ⊢
      rw [same_lines]
      exact .ok closed

/-- What is left by a conversion that failed in a label of a switch, in a block that owns a resource
and with a match that is being collected. -/
def interrupted : State :=
  match convert ("with open(a) as h:\n    switch a:\n        case 1:\n".toList ++
    "            v = match a:\n                case 1: f\"\"".toList) State.initial with
  | .ok _ state => state
  | .error _ state => state

theorem agree_convert_of_casePending_interrupted :
    interrupted.casePending = true ∧ interrupted.blocks = [.switch, .resource] ∧
      Agree AlikeButSwitch (convert "if b:\n    c()".toList interrupted)
        (convert "if b:\n    c()".toList { State.initial with casePending := true }) := by
  have pending : interrupted.casePending = true := by decide +kernel
  exact ⟨pending, by decide +kernel, agree_convert_of_casePending pending _⟩

-- A pending label does show: the next block that is closed gets its break.
example :
    (convert "if b:\n    c()".toList).passes (fun text _ => text == Text.join ['\n'] (banner ++
      ["if (b) \x7b".toList, "    c();".toList, "    break;".toList, "    \x7d".toList]))
        interrupted = true := by decide +kernel

end Conversion
end Ephp
