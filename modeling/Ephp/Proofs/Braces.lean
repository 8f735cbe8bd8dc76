import Ephp.Proofs.Material

/-!
# Nesting of braces

Reading a text from left to right, an opening brace goes one level in and a closing brace one level
out.  A text is balanced if this never goes below the level at which it starts and ends there.
-/

namespace Ephp
namespace Text

/-- No part in front has more closing than opening braces, and both are equally many. -/
def Balanced (text : Text) : Prop :=
  (∀ front, List.IsPrefix front text → front.count '}' ≤ front.count '{') ∧
    text.count '{' = text.count '}'

/-- The depth behind a text that starts at a depth, unless the text goes out too far. -/
def nest : Nat → Text → Option Nat
  | depth, [] => some depth
  | depth, char :: rest =>
    if char = '{' then nest (depth + 1) rest
    else if char = '}' then
      match depth with
      | 0 => none
      | depth + 1 => nest depth rest
    else nest depth rest

theorem nest_append (depth : Nat) (left right : Text) :
    nest depth (left ++ right) = (nest depth left).bind fun depth => nest depth right := by
  induction left generalizing depth with
  | nil => rfl
  | cons char left ih =>
      simp only [List.cons_append, nest]
      split
      · exact ih (depth + 1)
      · split
        · cases depth with
          | zero => rfl
          | succ depth => exact ih depth
        · exact ih depth

/-- Nesting in the terms of counted braces. -/
theorem nest_eq_some_iff {depth final : Nat} {text : Text} :
    nest depth text = some final ↔
      (∀ front, List.IsPrefix front text → front.count '}' ≤ depth + front.count '{') ∧
        final + text.count '}' = depth + text.count '{' := by
  induction text generalizing depth with
  | nil => simp [nest, eq_comm]
  | cons char rest ih =>
      have fronts (holds : Text → Prop) :
          (∀ front, List.IsPrefix front (char :: rest) → holds front) ↔
            holds [] ∧ ∀ front, List.IsPrefix front rest → holds (char :: front) := by
        constructor
        · intro all
          refine ⟨all [] List.nil_prefix, fun front before => ?_⟩
          exact all _ (List.cons_prefix_cons.mpr ⟨rfl, before⟩)
        · rintro ⟨empty, longer⟩ front before
          cases front with
          | nil => exact empty
          | cons first front =>
              obtain ⟨rfl, shorter⟩ := List.cons_prefix_cons.mp before
              exact longer front shorter
      rw [fronts]
      simp only [nest]
      split
      · rename_i opening
        subst opening
        rw [ih]
        simp [Nat.add_assoc, Nat.add_comm 1]
      · rename_i opening
        split
        · rename_i closing
          subst closing
          cases depth with
          | zero =>
              refine iff_of_false (by simp) fun counted => ?_
              have := counted.1.2 [] List.nil_prefix
              simp at this
          | succ depth =>
              change nest depth rest = some final ↔ _
              rw [ih]
              simp only [List.count_nil, Nat.zero_le, true_and, List.count_cons_self,
                List.count_cons_of_ne opening]
              constructor
              · rintro ⟨bounded, total⟩
                refine ⟨fun front before => ?_, by omega⟩
                have := bounded front before
                omega
              · rintro ⟨bounded, total⟩
                refine ⟨fun front before => ?_, by omega⟩
                have := bounded front before
                omega
        · rename_i closing
          rw [ih]
          simp [List.count_cons_of_ne opening, List.count_cons_of_ne closing]

theorem balanced_iff {text : Text} : Balanced text ↔ nest 0 text = some 0 := by
  rw [nest_eq_some_iff, Balanced]
  simp only [Nat.zero_add]
  exact ⟨fun ⟨bounded, total⟩ => ⟨bounded, total.symm⟩,
    fun ⟨bounded, total⟩ => ⟨bounded, total.symm⟩⟩

/-- A text without braces. -/
def Braceless (text : Text) : Prop :=
  '{' ∉ text ∧ '}' ∉ text

instance (text : Text) : Decidable (Braceless text) :=
  inferInstanceAs (Decidable (_ ∧ _))

theorem Braceless.of_isInfix {text piece : Text} (braceless : Braceless text)
    (stands : List.IsInfix piece text) : Braceless piece :=
  ⟨fun mem => braceless.1 (stands.subset mem), fun mem => braceless.2 (stands.subset mem)⟩

theorem Braceless.of_madeFrom {source text : Text} (braceless : Braceless source)
    (made : MadeFrom source text) : Braceless text :=
  ⟨fun mem => braceless.1 (made _ mem rfl), fun mem => braceless.2 (made _ mem rfl)⟩

theorem braceless_indentation (indent : Int) : Braceless (indentation indent) := by
  simp [Braceless, indentation]

theorem Braceless.append {left right : Text} (first : Braceless left) (second : Braceless right) :
    Braceless (left ++ right) := by
  simp [Braceless, first.1, first.2, second.1, second.2]

theorem nest_of_braceless {text : Text} (braceless : Braceless text) (depth : Nat) :
    nest depth text = some depth := by
  rw [nest_eq_some_iff]
  have opening : text.count '{' = 0 := List.count_eq_zero.mpr braceless.1
  have closing : text.count '}' = 0 := List.count_eq_zero.mpr braceless.2
  refine ⟨fun front before => ?_, by omega⟩
  have := before.sublist.count_le '}'
  omega

theorem nest_append_of_braceless {left : Text} (braceless : Braceless left) (depth : Nat)
    (right : Text) : nest depth (left ++ right) = nest depth right := by
  rw [nest_append, nest_of_braceless braceless, Option.bind_some]

/-- The separators between lines without braces do not count. -/
theorem nest_join {separator : Text} (braceless : Braceless separator) (depth : Nat)
    (texts : List Text) : nest depth (join separator texts) = nest depth texts.flatten := by
  induction texts generalizing depth with
  | nil => rfl
  | cons first texts ih =>
      cases texts with
      | nil => simp
      | cons second texts =>
          rw [join_cons_cons, List.flatten_cons, List.append_assoc, nest_append, nest_append]
          congr 1
          funext inner
          rw [nest_append_of_braceless braceless, ih]

end Text
end Ephp
