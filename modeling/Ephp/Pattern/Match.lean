import Ephp.Pattern.Basic

/-!
# What a match reads

A match reads the text from its start: the kept spans, in order, followed by the text behind the
match are what is left of the text when the fixed words and the forgotten spans are taken out.
-/

namespace Ephp
namespace Span

/-- A longest cut takes admitted characters off the front, and the rest succeeds. -/
theorem cutLongest_eq_some {α : Type} {admits : Char → Bool} {next : Text → Option α}
    {text run : Text} {found : α} (cut : cutLongest admits next text = some (run, found)) :
    ∃ rest, text = run ++ rest ∧ (∀ char ∈ run, admits char = true) ∧ next rest = some found := by
  induction text generalizing run with
  | nil =>
    simp only [cutLongest, Option.map_eq_some_iff, Prod.mk.injEq] at cut
    obtain ⟨_, success, rfl, rfl⟩ := cut
    exact ⟨[], rfl, by simp, success⟩
  | cons char rest ih =>
    rw [cutLongest] at cut
    split at cut
    · rename_i tail tailFound longer
      split at longer
      · rename_i admitted
        cases cut
        obtain ⟨behind, split_eq, all, success⟩ := ih longer
        exact ⟨behind, by simp [split_eq], by simpa [admitted] using all, success⟩
      · simp at longer
    · simp only [Option.map_eq_some_iff, Prod.mk.injEq] at cut
      obtain ⟨_, success, rfl, rfl⟩ := cut
      exact ⟨_, rfl, by simp, success⟩

/-- A shortest cut takes admitted characters off the front, and the rest succeeds. -/
theorem cutShortest_eq_some {α : Type} {admits : Char → Bool} {next : Text → Option α}
    {text run : Text} {found : α} (cut : cutShortest admits next text = some (run, found)) :
    ∃ rest, text = run ++ rest ∧ (∀ char ∈ run, admits char = true) ∧ next rest = some found := by
  induction text generalizing run with
  | nil =>
    simp only [cutShortest, Option.map_eq_some_iff, Prod.mk.injEq] at cut
    obtain ⟨_, success, rfl, rfl⟩ := cut
    exact ⟨[], rfl, by simp, success⟩
  | cons char rest ih =>
    rw [cutShortest] at cut
    split at cut
    · rename_i success
      cases cut
      exact ⟨_, rfl, by simp, success⟩
    · split at cut
      · rename_i admitted
        simp only [Option.map_eq_some_iff, Prod.mk.injEq, Prod.exists] at cut
        obtain ⟨tail, _, longer, rfl, rfl⟩ := cut
        obtain ⟨behind, split_eq, all, success⟩ := ih longer
        exact ⟨behind, by simp [split_eq], by simpa [admitted] using all, success⟩
      · simp at cut

/-- A cut run consists of admitted characters at the front, and the rest succeeds. -/
theorem cutRun_eq_some {α : Type} {reach : Reach} {admits : Char → Bool}
    {next : Text → Option α} {text run : Text} {found : α}
    (cut : cutRun reach admits next text = some (run, found)) :
    ∃ rest, text = run ++ rest ∧ (∀ char ∈ run, admits char = true) ∧ next rest = some found := by
  cases reach with
  | longest => exact cutLongest_eq_some cut
  | shortest => exact cutShortest_eq_some cut

/-- A cut span stands at the front of the text, and the rest succeeds. -/
theorem cut?_eq_some {α : Type} {span : Span} {next : Text → Option α} {text run : Text}
    {found : α} (cut : span.cut? next text = some (run, found)) :
    ∃ rest, text = run ++ rest ∧ next rest = some found := by
  cases span with
  | free reach admits =>
    obtain ⟨rest, split_eq, _, success⟩ := cutRun_eq_some cut
    exact ⟨rest, split_eq, success⟩
  | headed reach starts admits =>
    cases text with
    | nil => simp [cut?] at cut
    | cons char tail =>
      rw [cut?] at cut
      split at cut
      · simp only [Option.map_eq_some_iff, Prod.mk.injEq, Prod.exists] at cut
        obtain ⟨_, _, longer, rfl, rfl⟩ := cut
        obtain ⟨rest, split_eq, _, success⟩ := cutRun_eq_some longer
        exact ⟨rest, by simp [split_eq], success⟩
      · simp at cut

end Span

namespace Pattern

/-- What a match leaves is the end of the text. -/
theorem isSuffix_of_match? {α : Type} {pattern : Pattern α} {text behind : Text} {kept : α}
    (matched : pattern.match? text = some (kept, behind)) : List.IsSuffix behind text := by
  induction pattern generalizing text with
  | stop =>
    cases matched
    exact List.suffix_refl _
  | ending =>
    simp only [match?] at matched
    split at matched
    · cases matched
      exact List.suffix_refl _
    · simp at matched
  | fixed word next ih =>
    simp only [match?, Option.bind_eq_some_iff, Text.after?_eq_some_iff] at matched
    obtain ⟨rest, rfl, tail⟩ := matched
    exact (ih tail).trans (List.suffix_append _ _)
  | skip span next ih =>
    simp only [match?, Option.map_eq_some_iff, Prod.exists, Prod.mk.injEq] at matched
    obtain ⟨run, _, _, cut, rfl, rfl⟩ := matched
    obtain ⟨rest, rfl, tail⟩ := Span.cut?_eq_some cut
    exact (ih tail).trans (List.suffix_append _ _)
  | keep span next ih =>
    simp only [match?, Option.map_eq_some_iff, Prod.exists, Prod.mk.injEq] at matched
    obtain ⟨run, inner, _, cut, rfl, rfl⟩ := matched
    obtain ⟨rest, rfl, tail⟩ := Span.cut?_eq_some cut
    exact (ih tail).trans (List.suffix_append _ _)

/-- The kept spans and what is left are read off the text in order. -/
theorem fields_sublist_of_match? {α : Type} {pattern : Pattern α} {text behind : Text} {kept : α}
    (matched : pattern.match? text = some (kept, behind)) :
    List.Sublist ((pattern.fields kept).flatten ++ behind) text := by
  induction pattern generalizing text with
  | stop =>
    cases matched
    simp [fields]
  | ending =>
    simp only [match?] at matched
    split at matched
    · cases matched
      simp [fields]
    · simp at matched
  | fixed word next ih =>
    simp only [match?, Option.bind_eq_some_iff, Text.after?_eq_some_iff] at matched
    obtain ⟨rest, rfl, tail⟩ := matched
    exact (ih tail).trans (List.sublist_append_right _ _)
  | skip span next ih =>
    simp only [match?, Option.map_eq_some_iff, Prod.exists, Prod.mk.injEq] at matched
    obtain ⟨run, _, _, cut, rfl, rfl⟩ := matched
    obtain ⟨rest, rfl, tail⟩ := Span.cut?_eq_some cut
    exact (ih tail).trans (List.sublist_append_right _ _)
  | keep span next ih =>
    simp only [match?, Option.map_eq_some_iff, Prod.exists, Prod.mk.injEq] at matched
    obtain ⟨run, inner, _, cut, rfl, rfl⟩ := matched
    obtain ⟨rest, rfl, tail⟩ := Span.cut?_eq_some cut
    simp only [fields, List.flatten_cons, List.append_assoc]
    exact List.Sublist.append (List.Sublist.refl _) (ih tail)

end Pattern
end Ephp
