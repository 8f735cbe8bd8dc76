import Ephp.Statement.Form
import Ephp.Expr.Value
import Ephp.Text.Lines

/-!
# Pieces of a text

The fields of a statement, the items of a list and the parts between separators stand in the text
that they are taken from, as pieces without gaps.
-/

namespace Ephp
namespace Text

theorem trim_isInfix (drops : Char → Bool) (text : Text) : List.IsInfix (trim drops text) text := by
  have front : List.IsPrefix (trim drops text) (text.dropWhile drops) := by
    rw [trim, trimEnd, ← List.reverse_suffix, List.reverse_reverse]
    exact List.dropWhile_suffix drops
  exact front.isInfix.trans (List.dropWhile_suffix drops).isInfix

theorem strip_isInfix (text : Text) : List.IsInfix text.strip text :=
  trim_isInfix isBlank text

theorem indentOf_nonneg (text : Text) : 0 ≤ text.indentOf :=
  Int.natCast_nonneg _

/-- Pieces of a text, the first of which stands at its start. -/
structure Cuts (text : Text) (parts : List Text) : Prop where
  head : ∀ part ∈ parts.head?, List.IsPrefix part text
  each : ∀ part ∈ parts, List.IsInfix part text

theorem Cuts.single : Cuts [] [[]] := ⟨by simp, by simp⟩

theorem Cuts.separate {text : Text} {parts : List Text} (cuts : Cuts text parts) (char : Char) :
    Cuts (char :: text) ([] :: parts) := by
  constructor
  · simp
  · intro part mem
    rcases List.mem_cons.mp mem with rfl | mem
    · exact List.nil_infix
    · exact (cuts.each part mem).trans (List.suffix_cons char text).isInfix

theorem Cuts.extend {text : Text} {parts : List Text} (cuts : Cuts text parts) (char : Char) :
    Cuts (char :: text) (parts.modifyHead (char :: ·)) := by
  cases parts with
  | nil => exact ⟨by simp, by simp⟩
  | cons first parts =>
      have longer : List.IsPrefix (char :: first) (char :: text) :=
        List.cons_prefix_cons.mpr ⟨rfl, cuts.head first (by simp)⟩
      constructor
      · simpa using longer
      · intro part mem
        rcases List.mem_cons.mp mem with rfl | mem
        · exact longer.isInfix
        · exact (cuts.each part (by simp [mem])).trans (List.suffix_cons char text).isInfix

theorem cuts_splitOn (mark : Char) (text : Text) : Cuts text (text.splitOn mark) := by
  induction text with
  | nil => exact Cuts.single
  | cons char text ih =>
      rw [List.splitOn_cons_eq_if_modifyHead]
      split
      · exact ih.separate char
      · exact ih.extend char

theorem cuts_lines (text : Text) : Cuts text text.lines := by
  fun_induction lines text with
  | case1 => exact ⟨by simp, by simp⟩
  | case2 rest ih =>
      refine ⟨by simp, fun line mem => ?_⟩
      exact ((ih.separate '\n').each line mem).trans (List.suffix_cons '\r' _).isInfix
  | case3 char rest _ ends ih => exact ih.separate char
  | case4 char rest _ stays ih =>
      cases lines_eq : lines rest with
      | nil => exact ⟨by simp [consLine], by simp [consLine, List.infix_cons_iff]⟩
      | cons line others => simpa [lines_eq, consLine] using ih.extend char

/-- A line is a piece of its text. -/
theorem infix_of_mem_lines {line text : Text} (mem : line ∈ text.lines) :
    List.IsInfix line text :=
  (cuts_lines text).each line mem

theorem getLast?_strip_ne {text : Text} {char : Char} (blank : isBlank char = true) :
    text.strip.getLast? ≠ some char := by
  rw [strip, trim, trimEnd, List.getLast?_reverse]
  intro last
  have kept := List.head?_dropWhile_not isBlank (text.dropWhile isBlank).reverse
  simp [last, blank] at kept

theorem infix_of_mem_splitAfter {separator part : Text} {skip : Nat} {text : Text}
    (mem : part ∈ splitAfter separator skip text) : List.IsInfix part text := by
  suffices cuts : ∀ skip, Cuts (text.drop skip) (splitAfter separator skip text) from
    ((cuts skip).each part mem).trans (List.drop_suffix skip text).isInfix
  clear mem
  induction text with
  | nil => intro skip; simpa [splitAfter] using Cuts.single
  | cons char text ih =>
      intro skip
      cases skip with
      | succ skip => exact ih skip
      | zero =>
          rw [splitAfter]
          split
          · have rest := ih (separator.length - 1)
            refine ⟨by simp, fun part mem => ?_⟩
            rcases List.mem_cons.mp mem with rfl | mem
            · exact List.nil_infix
            · exact (rest.each part mem).trans
                ((List.drop_suffix _ text).isInfix.trans (List.suffix_cons char text).isInfix)
          · exact (ih 0).extend char

theorem infix_of_mem_splitAt {separator part text : Text} (mem : part ∈ text.splitAt separator) :
    List.IsInfix part text :=
  infix_of_mem_splitAfter mem

theorem infix_of_mem_items {item text : Text} (mem : item ∈ text.items) :
    List.IsInfix item text := by
  obtain ⟨part, part_mem, rfl⟩ := List.mem_map.mp mem
  exact (strip_isInfix part).trans ((cuts_splitOn ',' text).each part part_mem)

theorem splitFirst?_eq_some {mark : Char} {text front back : Text}
    (found : splitFirst? mark text = some (front, back)) : text = front ++ mark :: back := by
  induction text generalizing front with
  | nil => simp [splitFirst?] at found
  | cons char text ih =>
      rw [splitFirst?] at found
      split at found
      · rename_i here
        cases found
        simp [here]
      · simp only [Option.map_eq_some_iff, Prod.mk.injEq, Prod.exists] at found
        obtain ⟨front, _, later, rfl, rfl⟩ := found
        simp [ih later]

theorem splitLast?_eq_some {mark : Char} {text front back : Text}
    (found : splitLast? mark text = some (front, back)) : text = front ++ mark :: back := by
  induction text generalizing front with
  | nil => simp [splitLast?] at found
  | cons char text ih =>
      rw [splitLast?] at found
      split at found
      · rename_i later
        cases found
        simp [ih later]
      · split at found
        · rename_i here
          cases found
          simp [here]
        · simp at found

end Text

namespace Expr

theorem enclosed?_isInfix {opening closing : Char} {text inner : Text}
    (found : enclosed? opening closing text = some inner) : List.IsInfix inner text := by
  unfold enclosed? at found
  split at found
  · cases found
    exact (List.dropLast_prefix _).isInfix.trans (List.drop_suffix 1 text).isInfix
  · simp at found

end Expr

/-- A span that starts with a character of a class is not empty. -/
theorem Span.headed_of_cut? {α : Type} {reach : Reach} {starts admits : Char → Bool}
    {next : Text → Option α} {text run : Text} {found : α}
    (cut : (Span.headed reach starts admits).cut? next text = some (run, found)) :
    ∃ first rest, run = first :: rest ∧ starts first = true ∧
      ∀ char ∈ rest, admits char = true := by
  cases text with
  | nil => simp [cut?] at cut
  | cons char tail =>
      rw [cut?] at cut
      split at cut
      · rename_i started
        simp only [Option.map_eq_some_iff, Prod.mk.injEq, Prod.exists] at cut
        obtain ⟨rest, _, longer, rfl, rfl⟩ := cut
        obtain ⟨_, _, all, _⟩ := cutRun_eq_some longer
        exact ⟨char, rest, rfl, started, all⟩
      · simp at cut

namespace Pattern

/-- Every kept span of a match is a piece of the text. -/
theorem fields_infix_of_match? {α : Type} {pattern : Pattern α} {text behind : Text} {kept : α}
    (matched : pattern.match? text = some (kept, behind)) :
    ∀ field ∈ pattern.fields kept, List.IsInfix field text := by
  induction pattern generalizing text with
  | stop => simp [fields]
  | ending => simp [fields]
  | fixed word next ih =>
      simp only [match?, Option.bind_eq_some_iff, Text.after?_eq_some_iff] at matched
      obtain ⟨rest, rfl, tail⟩ := matched
      intro field mem
      exact (ih tail field mem).trans (List.suffix_append _ _).isInfix
  | skip span next ih =>
      simp only [match?, Option.map_eq_some_iff, Prod.exists, Prod.mk.injEq] at matched
      obtain ⟨run, _, _, cut, rfl, rfl⟩ := matched
      obtain ⟨rest, rfl, tail⟩ := Span.cut?_eq_some cut
      intro field mem
      exact (ih tail field mem).trans (List.suffix_append _ _).isInfix
  | keep span next ih =>
      simp only [match?, Option.map_eq_some_iff, Prod.exists, Prod.mk.injEq] at matched
      obtain ⟨run, inner, _, cut, rfl, rfl⟩ := matched
      obtain ⟨rest, rfl, tail⟩ := Span.cut?_eq_some cut
      intro field mem
      rcases List.mem_cons.mp mem with rfl | mem
      · exact (List.prefix_append _ _).isInfix
      · exact (ih tail field mem).trans (List.suffix_append _ _).isInfix

end Pattern

namespace Statement

theorem form_eq_some {α : Type} {pattern : Pattern α} {build : α → Statement} {line : Text}
    {statement : Statement} (found : form pattern build line = some statement) :
    ∃ kept behind, pattern.match? line = some (kept, behind) ∧ build kept = statement := by
  simp only [form, Option.map_eq_some_iff, Prod.exists] at found
  obtain ⟨kept, behind, matched, built⟩ := found
  exact ⟨kept, behind, matched, built⟩

theorem fields_infix_of_form {α : Type} {pattern : Pattern α} {build : α → Statement} {line : Text}
    {statement : Statement} (found : form pattern build line = some statement)
    (same : ∀ kept, (build kept).fields = pattern.fields kept) :
    ∀ field ∈ statement.fields, List.IsInfix field line := by
  obtain ⟨kept, behind, matched, rfl⟩ := form_eq_some found
  rw [same]
  exact Pattern.fields_infix_of_match? matched

/-- The fields of the statement that a line is are pieces of the line. -/
theorem fields_infix_of_read? {line : Text} {statement : Statement}
    (found : read? line = some statement) :
    ∀ field ∈ statement.fields, List.IsInfix field line := by
  obtain ⟨form, mem, found⟩ := List.exists_of_findSome?_eq_some found
  simp only [forms, List.mem_cons, List.not_mem_nil, or_false] at mem
  rcases mem with rfl | rfl | rfl | rfl | rfl | rfl | rfl | rfl | rfl | rfl | rfl | rfl | rfl |
    rfl | rfl | rfl | rfl | rfl | rfl | rfl | rfl | rfl | rfl | rfl | rfl | rfl | rfl | rfl | rfl |
    rfl
  all_goals exact fields_infix_of_form found fun _ => rfl

/-- Only the line `do:` opens a do loop. -/
theorem eq_of_read?_eq_doLoop {line : Text} (found : read? line = some .doLoop)
    (whole : line.getLast? ≠ some '\n') : line = "do:".toList := by
  obtain ⟨reader, mem, found⟩ := List.exists_of_findSome?_eq_some found
  simp only [forms, List.mem_cons, List.not_mem_nil, or_false] at mem
  rcases mem with rfl | rfl | rfl | rfl | rfl | rfl | rfl | rfl | rfl | rfl | rfl | rfl | rfl |
    rfl | rfl | rfl | rfl | rfl | rfl | rfl | rfl | rfl | rfl | rfl | rfl | rfl | rfl | rfl | rfl |
    rfl
  case inr.inr.inr.inr.inr.inr.inr.inr.inr.inr.inr.inl =>
    obtain ⟨_, behind, matched, _⟩ := form_eq_some found
    simp only [Pattern.match?, Option.bind_eq_some_iff, Text.after?_eq_some_iff] at matched
    obtain ⟨rest, rfl, ended⟩ := matched
    split at ended
    · rename_i last
      rcases last with rfl | rfl
      · rfl
      · exact absurd rfl whole
    · simp at ended
  all_goals
    obtain ⟨_, _, _, built⟩ := form_eq_some found
    cases built

end Statement
end Ephp
