import Ephp.Proofs.Forest
import Ephp.Proofs.Placement
import Ephp.Proofs.Return

/-!
# The end of the source as a line

The end of the source closes blocks in a loop of its own.  Where no do loop and no match is open it
does what a line without indentation does: a source with one more line `pass` is converted to the
same text, with one more line.
-/

namespace Ephp
namespace Text

theorem lines_cons_of_isLineBreak {char : Char} (ends : isLineBreak char = true) {rest : Text}
    (single : char = '\r' → rest.head? ≠ some '\n') : lines (char :: rest) = [] :: lines rest := by
  rw [lines, if_pos ends]
  rintro others rfl rfl
  exact single rfl rfl

theorem lines_ne_nil {text : Text} (filled : text ≠ []) : lines text ≠ [] := by
  fun_cases lines text with
  | case1 => exact absurd rfl filled
  | case2 rest => simp
  | case3 char rest _ ends => simp
  | case4 char rest _ stays => cases lines rest <;> simp [consLine]

/-- A line feed behind a text that does not end with a line break separates the lines of the text
from those that follow. -/
theorem lines_append_of_unended {text : Text} (filled : text ≠ [])
    (unended : ∀ char ∈ text.getLast?, isLineBreak char = false) (rest : Text) :
    lines (text ++ '\n' :: rest) = lines text ++ lines rest := by
  fun_induction lines text with
  | case1 => exact absurd rfl filled
  | case2 others ih =>
      have nonempty : others ≠ [] := by
        rintro rfl
        simp [isLineBreak] at unended
      rw [List.getLast?_cons_cons, List.getLast?_cons_of_ne_nil nonempty] at unended
      rw [List.cons_append, List.cons_append, lines, ih nonempty unended, List.cons_append]
  | case3 char others single ends ih =>
      have nonempty : others ≠ [] := by
        rintro rfl
        simp [ends] at unended
      rw [List.getLast?_cons_of_ne_nil nonempty] at unended
      rw [List.cons_append, lines_cons_of_isLineBreak ends, ih nonempty unended, List.cons_append]
      rintro rfl head
      obtain ⟨first, later, rfl⟩ := List.exists_cons_of_ne_nil nonempty
      exact single later rfl (by simpa using head)
  | case4 char others _ stays ih =>
      rw [List.cons_append, lines_cons (by simpa using stays)]
      by_cases last : others = []
      · subst last
        rfl
      · rw [List.getLast?_cons_of_ne_nil last] at unended
        obtain ⟨first, later, lines_eq⟩ := List.exists_cons_of_ne_nil (lines_ne_nil last)
        rw [ih last unended, lines_eq]
        rfl

theorem join_append_singleton (separator text : Text) {texts : List Text} (filled : texts ≠ []) :
    join separator (texts ++ [text]) = join separator texts ++ separator ++ text := by
  induction texts with
  | nil => exact absurd rfl filled
  | cons first texts ih =>
      cases texts with
      | nil => simp
      | cons second texts =>
          have rest := ih (by simp)
          rw [List.cons_append] at rest
          rw [List.cons_append, List.cons_append, join_cons_cons, rest, join_cons_cons]
          simp only [List.append_assoc]

end Text

namespace State

open Conversion (startedBy?)

theorem dedent_collected {state : State} (absent : state.collected = .absent) (indent : Int) :
    (state.dedent indent).collected = .absent := by
  apply @dedent_induct indent (fun state => state.collected = .absent) _ state absent
  intro state level below _ _ absent
  have flushed : (state.pop below).flushMatch = state.pop below := flushMatch_of_absent absent
  rw [closeTop_eq, flushed]
  split
  · exact absent
  · rw [close_collected]
    exact absent

/-- The outermost level is open, and neither a do loop nor a match waits to be completed. -/
structure Settled (state : State) : Prop where
  rooted : state.Rooted
  idle : state.doPending = false
  absent : state.collected = .absent

namespace Settled

variable {state : State}

theorem reset (state : State) : state.reset.Settled :=
  ⟨⟨[], rfl, by simp⟩, rfl, rfl⟩

theorem dedent (settled : state.Settled) {indent : Int} (nonneg : 0 ≤ indent) :
    (state.dedent indent).Settled :=
  ⟨settled.rooted.dedent nonneg, by rw [dedent_doPending, settled.idle],
    dedent_collected settled.absent indent⟩

/-- No match is being collected behind a line that starts none. -/
theorem convertLine {line : Text} {after : State} (settled : state.Settled)
    (other : line.strip ≠ "do:".toList) (matchless : startedBy? line = none)
    (done : Conversion.convertLine line state = .ok () after) : after.Settled := by
  have idle := Conversion.idle_of_convertLine settled.idle other done
  refine ⟨(settled.rooted.convertLine done).resolve_right (by simp [settled.idle]), idle, ?_⟩
  rcases Conversion.convertLine_eq_ok done with ⟨_, text, _, rfl⟩ | ⟨spoken, outcome⟩
  · exact settled.absent
  have absent := dedent_collected settled.absent line.indentOf
  cases outcome with
  | labelled found label made =>
      cases (state.dedent line.indentOf).casePending <;> exact absent
  | started names found header =>
      simp [startedBy?, spoken, found, header] at matchless
  | armed arm found is_arm isOpen made_values made_result =>
      simp [absent, Match.absent, Match.isOpen] at isOpen
  | _ => exact absent

theorem convertLines {lines : List Text} {after : State} (settled : state.Settled)
    (loopless : ∀ line ∈ lines, line.strip ≠ "do:".toList)
    (matchless : ∀ line ∈ lines, startedBy? line = none)
    (done : Conversion.convertLines lines state = .ok () after) : after.Settled := by
  apply Conversion.convertLines_induct _ settled done
  intro line mem state after settled done
  exact settled.convertLine (loopless line mem) (matchless line mem) done

/-- The end of the source closes what a line without indentation closes. -/
theorem closeAll (settled : state.Settled) : state.flushMatch.closeAll = state.dedent 0 := by
  obtain ⟨uppers, open_eq, positive⟩ := settled.rooted
  rw [flushMatch_of_absent settled.absent, closeAll_eq_dedent open_eq positive settled.idle]

end Settled
end State

namespace Conversion

theorem convertLine_pass (state : State) :
    convertLine "pass".toList state = .ok () ((state.dedent 0).emit 0 "// pass".toList) := by
  have found : Statement.read? "pass".toList = some .pass := by decide +kernel
  rw [convertLine_of_isRemark_eq_false (by decide)]
  exact convertBody_of_applies found rfl

theorem convertLines_append_pass {lines : List Text} {state : State} :
    convertLines (lines ++ ["pass".toList]) state =
      match convertLines lines state with
      | .ok _ after => .ok () ((after.dedent 0).emit 0 "// pass".toList)
      | .error fault after => .error fault after := by
  rw [convertLines_append, bind_apply]
  cases convertLines lines state with
  | ok _ after =>
      rw [convertLines_cons]
      exact bind_eq_ok.mpr ⟨(), _, convertLine_pass after, rfl⟩
  | error fault after => rfl

/-- A result with one more line at its end; a fault stays as it is. -/
def withLine (line : Text) :
    EStateM.Result Fault State Text → EStateM.Result Fault State Text
  | .ok text final => .ok (text ++ '\n' :: line) (final.emit 0 line)
  | .error fault after => .error fault after

/-- A source that is neither empty nor ends with a line break, and that opens no do loop and starts
no match, is converted with one more line `pass` as it is converted without it, and then the line is
written; or both fail in the same way.  For the end of the source leaves the state that a line
without indentation leaves. -/
theorem convert_append_pass {source : Text} (filled : source ≠ [])
    (unended : ∀ char ∈ source.getLast?, Text.isLineBreak char = false)
    (loopless : ∀ line ∈ source.lines, line.strip ≠ "do:".toList)
    (matchless : ∀ line ∈ source.lines, startedBy? line = none) (state : State) :
    convert (source ++ "\npass".toList) state =
      withLine "// pass".toList (convert source state) ∧
    ∀ after, convertLines source.lines state.reset = .ok () after →
      convert source state =
        .ok (Text.join ['\n'] (after.dedent 0).lines) (after.dedent 0) := by
  have lines : (source ++ "\npass".toList).lines = source.lines ++ ["pass".toList] :=
    Text.lines_append_of_unended filled unended "pass".toList
  have settled {after : State} (done : convertLines source.lines state.reset = .ok () after) :
      after.Settled := (State.Settled.reset state).convertLines loopless matchless done
  refine ⟨?_, fun after done => ?_⟩
  · rw [convert_eq, convert_eq, lines, convertLines_append_pass]
    cases done : convertLines source.lines state.reset with
    | error fault after => rfl
    | ok _ after =>
        have closed := (settled done).dedent (Int.le_refl 0)
        have passed : ((after.dedent 0).emit 0 "// pass".toList).Settled :=
          ⟨closed.rooted, closed.idle, closed.absent⟩
        have kept : ((after.dedent 0).emit 0 "// pass".toList).dedent 0 =
            (after.dedent 0).emit 0 "// pass".toList :=
          State.dedent_eq_self fun level top => State.dedent_levels_head_le top
        have nonempty : (after.dedent 0).lines ≠ [] := by
          rw [← (settled done).closeAll]
          apply List.ne_nil_of_mem (a := "<?php".toList)
          apply after.lines_isPrefix_closeAll.subset
          exact (lines_isPrefix_of_convertLines done).subset (by simp [State.reset, banner])
        simp only [(settled done).closeAll, passed.closeAll, kept]
        rw [State.emit_lines, Text.join_append_singleton _ _ nonempty, List.append_assoc]
        rfl
  · rw [convert_eq, done]
    simp only [(settled done).closeAll]

/-- A source that ends inside of a function stored in a variable, in a block that owns a resource
and in a label of a switch. -/
def unclosed : Text :=
  "g = fn(b):\n    with open(b) as h:\n        switch b:\n            case 1:".toList

theorem convert_append_pass_unclosed :
    (convertLines unclosed.lines).passes (fun _ after =>
      after.blocks == [.switch, .resource, .closure]) State.initial.reset = true ∧
    convert (unclosed ++ "\npass".toList) State.initial =
      withLine "// pass".toList (convert unclosed State.initial) := by
  have loopless : ∀ line ∈ unclosed.lines, line.strip ≠ "do:".toList := by decide +kernel
  have matchless : ∀ line ∈ unclosed.lines, startedBy? line = none := by decide +kernel
  have unended : ∀ char ∈ unclosed.getLast?, Text.isLineBreak char = false := by
    have last : unclosed.getLast? = some ':' := by decide +kernel
    intro char mem
    rw [last, Option.mem_some_iff] at mem
    rw [← mem]
    decide
  exact ⟨by decide +kernel, (convert_append_pass (by decide +kernel) unended loopless
    matchless _).1⟩

end Conversion
end Ephp
