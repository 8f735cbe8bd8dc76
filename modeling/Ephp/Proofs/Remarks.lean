import Ephp.Proofs.Forest
import Ephp.Proofs.Written

/-!
# Remarks

Blank lines and comments are copied where they stand.  They close no block and no match, however
they are indented, so that a source with one more remark is converted as it is without it, with one
more line in its place.
-/

namespace Ephp
namespace Text

/-- Whether a text has no line break. -/
def isUnbroken (text : Text) : Bool :=
  text.all (!isLineBreak ·)

/-- The text of the given lines, each of which is ended by a line feed. -/
def ofLines (lines : List Text) : Text :=
  lines.flatMap (· ++ ['\n'])

theorem lines_ofLines {texts : List Text} (unbroken : ∀ text ∈ texts, text.isUnbroken = true) :
    lines (ofLines texts) = texts := by
  induction texts with
  | nil => rfl
  | cons first texts ih =>
      obtain ⟨whole, unbroken⟩ := List.forall_mem_cons.mp unbroken
      have inside : ∀ char ∈ first, isLineBreak char = false := by simpa [isUnbroken] using whole
      rw [ofLines, List.flatMap_cons, List.append_assoc, List.singleton_append,
        lines_append_newline inside]
      exact congrArg (first :: ·) (ih unbroken)

end Text

namespace Conversion

/-- A remark between two parts of the lines adds what is written for it to the lines of the first
part, and makes no other difference. -/
theorem convertLines_insert_remark {front back : List Text} {remark : Text}
    (silent : remark.isRemark = true) {state after : State}
    (done : convertLines (front ++ back) state = .ok () after) :
    ∃ middle plain : State, convertLines front state = .ok () middle ∧
      after = plain.behind middle.lines ∧
      convertLines (front ++ remark :: back) state =
        .ok () (plain.behind (middle.lines ++ [remark.remarkText])) := by
  obtain ⟨middle, fronted, backed⟩ := convertLines_append_eq_ok.mp done
  -- The second part runs as it does where nothing is written yet.
  rw [← middle.behind_lines] at backed
  obtain ⟨plain, bare, rfl⟩ :=
    ((synchronous_behind middle.lines).convertLines back).exists_of_image backed
  refine ⟨middle, plain, fronted, rfl, ?_⟩
  have copied : middle.writeLine remark.remarkText =
      ({ middle with lines := [] } : State).behind (middle.lines ++ [remark.remarkText]) := by
    simp [State.behind, State.writeLine]
  have one := convertLine_of_isRemark silent middle
  refine convertLines_append_eq_ok.mpr ⟨middle, fronted, convertLines_cons_eq_ok.mpr ⟨_, one, ?_⟩⟩
  rw [copied]
  exact ((synchronous_behind _).convertLines back).image_eq_ok bare

/-- If a source of some lines is converted, it is also converted with a blank line or a comment
anywhere between its lines.  The lines that are written are the same, with the remark behind those
that are written for the lines before it, and nothing else in the state that is reached differs. -/
theorem convert_insert_remark {front back : List Text} {remark : Text}
    (unbroken : ∀ line ∈ front ++ remark :: back, line.isUnbroken = true)
    (silent : remark.isRemark = true) {state final : State} {text : Text}
    (done : convert (Text.ofLines (front ++ back)) state = .ok text final) :
    ∃ middle below, convertLines front state.reset = .ok () middle ∧
      final.lines = middle.lines ++ below ∧
      text = Text.join ['\n'] (middle.lines ++ below) ∧
      convert (Text.ofLines (front ++ remark :: back)) state =
        .ok (Text.join ['\n'] (middle.lines ++ remark.remarkText :: below))
          { final with lines := middle.lines ++ remark.remarkText :: below } := by
  have others : ∀ line ∈ front ++ back, line.isUnbroken = true := by
    intro line mem
    refine unbroken line (List.mem_append.mpr ?_)
    exact (List.mem_append.mp mem).imp_right (List.mem_cons_of_mem remark)
  obtain ⟨after, converted, rfl, rfl⟩ := convert_eq_ok.mp done
  rw [Text.lines_ofLines others] at converted
  obtain ⟨middle, plain, fronted, rfl, inserted⟩ := convertLines_insert_remark silent converted
  have ending (above : List Text) : (plain.behind above).flushMatch.closeAll =
      plain.flushMatch.closeAll.behind above := by
    rw [State.flushMatch_behind, State.closeAll_behind]
  refine ⟨middle, plain.flushMatch.closeAll.lines, fronted, ?_, ?_, ?_⟩
  · rw [ending]
    rfl
  · rw [ending]
    rfl
  · have same : plain.flushMatch.closeAll.behind (middle.lines ++ [remark.remarkText]) =
        { plain.flushMatch.closeAll.behind middle.lines with
          lines := middle.lines ++ remark.remarkText :: plain.flushMatch.closeAll.lines } := by
      simp [State.behind]
    rw [convert_eq, Text.lines_ofLines unbroken, inserted]
    simp only [ending, same]

/-- A match in a do loop, up to its first arm. -/
def halfMatch : List Text :=
  ["do:".toList, "    v = match x:".toList, "        case 1: 2".toList]

/-- The rest of the match and of the do loop. -/
def otherHalf : List Text :=
  ["        default: 3".toList, "    while v".toList]

theorem convert_insert_remark_halfMatch :
    ∃ text final middle below,
      convert (Text.ofLines (halfMatch ++ otherHalf)) State.initial = .ok text final ∧
      convertLines halfMatch State.initial.reset = .ok () middle ∧
      final.lines = middle.lines ++ below ∧
      convert (Text.ofLines (halfMatch ++ " # note".toList :: otherHalf)) State.initial =
        .ok (Text.join ['\n'] (middle.lines ++ " // note".toList :: below))
          { final with lines := middle.lines ++ " // note".toList :: below } := by
  obtain ⟨text, final, done⟩ := returns_iff.mp
    (by decide +kernel : (convert (Text.ofLines (halfMatch ++ otherHalf))).returns
      State.initial = true)
  have unbroken : ∀ line ∈ halfMatch ++ " # note".toList :: otherHalf,
      Text.isUnbroken line = true := by decide +kernel
  obtain ⟨middle, below, fronted, lines, _, inserted⟩ :=
    convert_insert_remark unbroken (by decide +kernel) done
  exact ⟨text, final, middle, below, done, fronted, lines, inserted⟩

end Conversion
end Ephp
