import Ephp.Text.Basic

/-!
# Substitution

A substitution walks over a text from left to right.  Wherever its rule applies it writes the
rule's answer and goes on behind what the rule consumed; every other character is copied.
-/

namespace Ephp
namespace Text

/-- Apply `rule` to a text after passing over its first `skip` characters.  An application that
consumes nothing is no application. -/
def substituteAfter (rule : Text → Option (Text × Text)) : Nat → Text → Text
  | _, [] => []
  | skip + 1, _ :: rest => substituteAfter rule skip rest
  | 0, char :: rest =>
    match rule (char :: rest) with
    | some (written, behind) =>
      if behind.length ≤ rest.length then
        written ++ substituteAfter rule (rest.length - behind.length) rest
      else
        char :: substituteAfter rule 0 rest
    | none => char :: substituteAfter rule 0 rest

/-- Replace every part of a text that `rule` applies to: the rule answers what to write and what
is left of the text. -/
def substitute (rule : Text → Option (Text × Text)) (text : Text) : Text :=
  substituteAfter rule 0 text

/-- Replace every occurrence of the word `old` by `new`. -/
def replace (old new text : Text) : Text :=
  substitute (fun rest => (after? old rest).map fun behind => (new, behind)) text

/-- Passing over characters is dropping them. -/
theorem substituteAfter_eq (rule : Text → Option (Text × Text)) (skip : Nat) (text : Text) :
    substituteAfter rule skip text = substitute rule (text.drop skip) := by
  induction text generalizing skip with
  | nil => simp [substitute, substituteAfter]
  | cons char rest ih =>
    cases skip with
    | zero => rfl
    | succ skip => simp [substituteAfter, ih]

/-- A rule that never adds occurrences of `mark` makes a substitution that never adds any. -/
theorem count_substitute_le (mark : Char) (rule : Text → Option (Text × Text))
    (keeps : ∀ text written behind, rule text = some (written, behind) →
      List.IsSuffix behind text ∧ written.count mark + behind.count mark ≤ text.count mark)
    (text : Text) : (substitute rule text).count mark ≤ text.count mark := by
  suffices general : ∀ size, ∀ text : Text, text.length ≤ size →
      (substitute rule text).count mark ≤ text.count mark from general _ text (Nat.le_refl _)
  intro size
  induction size with
  | zero =>
    intro text short
    have empty : text = [] := List.eq_nil_of_length_eq_zero (Nat.le_zero.mp short)
    simp [empty, substitute, substituteAfter]
  | succ size ih =>
    intro text short
    cases text with
    | nil => simp [substitute, substituteAfter]
    | cons char rest =>
      have copied : (char :: substitute rule rest).count mark ≤ (char :: rest).count mark := by
        have tail := ih rest (by simpa using short)
        simp only [List.count_cons]
        omega
      unfold substitute substituteAfter
      split
      · rename_i written behind applied
        obtain ⟨suffix, counted⟩ := keeps _ _ _ applied
        split
        · rename_i consumed
          obtain ⟨front, split_eq⟩ := suffix
          cases front with
          | nil =>
            have := congrArg List.length split_eq
            simp at this
            omega
          | cons head front =>
            obtain ⟨rfl, rfl⟩ : head = char ∧ front ++ behind = rest := by simpa using split_eq
            rw [substituteAfter_eq]
            have dropped : (front ++ behind).drop ((front ++ behind).length - behind.length)
                = behind := by simp
            rw [dropped, List.count_append]
            have tail := ih behind (by simp at short ⊢; omega)
            omega
        · exact copied
      · exact copied

end Text
end Ephp
