import Ephp.Proofs.Formatless

/-!
# Expressions that are written as they stand

Whatever an expansion writes of its own accord has a character that does not occur in a break.  So
an expression that is no format text is written as a break only if it is one already.
-/

namespace Ephp
namespace Text

/-- The characters of a written break. -/
def leaveLetters : Text :=
  " break;".toList

theorem subset_of_isLeave {line : Text} (left : line.isLeave = true) : line ⊆ leaveLetters := by
  intro char mem
  by_contra foreign
  simp [isLeave_eq_false_of_mem mem foreign] at left

/-- A substitution that only has some letters did not write anything that has others. -/
theorem substitute_eq_of_subset {rule : Text → Option (Text × Text)} {letters : Text}
    (foreign : ∀ text written behind, rule text = some (written, behind) → ¬written ⊆ letters)
    {text : Text} (few : substitute rule text ⊆ letters) : substitute rule text = text := by
  induction text with
  | nil => rfl
  | cons char rest ih =>
      rcases substitute_cons rule char rest with ⟨written, behind, more, applied, same⟩ | same
      · rw [same] at few
        exact absurd (List.append_subset.mp few).1 (foreign _ _ _ applied)
      · rw [same] at few ⊢
        rw [ih (List.cons_subset.mp few).2]

theorem replace_eq_of_subset {old new letters text : Text} (foreign : ¬new ⊆ letters)
    (few : replace old new text ⊆ letters) : replace old new text = text := by
  refine substitute_eq_of_subset (fun _ _ _ applied => ?_) few
  simp only [Option.map_eq_some_iff, Prod.mk.injEq] at applied
  obtain ⟨_, _, rfl, _⟩ := applied
  exact foreign

theorem head?_strip_ne {text : Text} {char : Char} (blank : isBlank char = true) :
    text.strip.head? ≠ some char := by
  intro first
  have front : List.IsPrefix text.strip (text.dropWhile isBlank) := by
    have back := List.dropWhile_suffix isBlank (l := (text.dropWhile isBlank).reverse)
    simpa [strip, trim, trimEnd] using List.reverse_prefix.mpr back
  obtain ⟨rest, split⟩ := front
  have kept := List.head?_dropWhile_not isBlank text
  rw [← split, List.head?_append, first] at kept
  simp [blank] at kept

end Text

theorem Pattern.replace_eq_of_subset {α : Type} {pattern : Pattern α} {write : α → Text}
    {letters text : Text} (foreign : ∀ kept, ¬write kept ⊆ letters)
    (few : pattern.replace write text ⊆ letters) : pattern.replace write text = text := by
  refine Text.substitute_eq_of_subset (fun _ _ _ applied => ?_) few
  simp only [rule, Option.map_eq_some_iff, Prod.mk.injEq] at applied
  obtain ⟨⟨kept, _⟩, _, rfl, _⟩ := applied
  exact foreign kept

namespace Expr

open Text (leaveLetters)

theorem respell_eq_of_subset {spellings : List (Text × Text)} {letters text : Text}
    (foreign : ∀ pair ∈ spellings, ¬pair.2 ⊆ letters) (few : respell spellings text ⊆ letters) :
    respell spellings text = text := by
  induction spellings generalizing text with
  | nil => rfl
  | cons pair spellings ih =>
      obtain ⟨first, others⟩ := List.forall_mem_cons.mp foreign
      have later : respell spellings (Text.replace pair.1 pair.2 text) =
          Text.replace pair.1 pair.2 text := ih others few
      have same : respell (pair :: spellings) text = Text.replace pair.1 pair.2 text := later
      rw [same] at few ⊢
      exact Text.replace_eq_of_subset first few

theorem convertCalls_eq_of_subset {text : Text} (few : convertCalls text ⊆ leaveLetters) :
    convertCalls text = text := by
  have foreign {char : Char} {written : Text} (mem : char ∈ written)
      (other : char ∉ leaveLetters) : ¬written ⊆ leaveLetters := fun few => other (few mem)
  have respelled := respell_eq_of_subset (by decide) few
  rw [convertCalls, respelled] at few ⊢
  have appended : convertAppend (convertStrip (convertSplit text)) =
      convertStrip (convertSplit text) := by
    refine Pattern.replace_eq_of_subset ?_ few
    rintro ⟨subject, arguments, _⟩
    exact foreign (by simp : '[' ∈ subject ++ "[] = ".toList ++ arguments) (by decide)
  rw [appended] at few ⊢
  have stripped : convertStrip (convertSplit text) = convertSplit text := by
    refine Pattern.replace_eq_of_subset ?_ few
    rintro ⟨subject, _⟩
    exact foreign (List.mem_cons_self : 't' ∈ _) (by decide)
  rw [stripped] at few ⊢
  refine Pattern.replace_eq_of_subset ?_ few
  rintro ⟨subject, arguments, _⟩
  exact foreign (List.mem_cons_of_mem _ List.mem_cons_self : 'x' ∈ _) (by decide)

theorem markVariables_eq_of_subset {names : Names} {text : Text}
    (few : markVariables names text ⊆ leaveLetters) : markVariables names text = text := by
  have unmarked : ∀ run ∈ runs text, markRun names run = run := by
    intro run mem
    unfold markRun
    split
    · rename_i sigil
      have marked : '$' ∈ markVariables names text :=
        List.mem_flatMap.mpr ⟨run, mem, by simp [markRun, sigil]⟩
      exact absurd (few marked) (by decide)
    · rfl
  calc markVariables names text
      = ((runs text).map (markRun names)).flatten := List.flatMap_def
    _ = ((runs text).map id).flatten := by rw [List.map_congr_left unmarked]; rfl
    _ = text := by rw [List.map_id, runs, List.flatten_splitBy]

theorem expandPart_eq_of_subset {names : Names} {part : Part}
    (few : expandPart names part ⊆ leaveLetters) : expandPart names part = part.text := by
  cases part with
  | literal text => rfl
  | code text =>
      have spelled : respellKeywords (markVariables names text) = markVariables names text :=
        respell_eq_of_subset (by decide) few
      rw [expandPart, spelled] at few ⊢
      exact markVariables_eq_of_subset few

theorem expandPlain_eq_of_subset {names : Names} {text : Text}
    (few : expandPlain names text ⊆ leaveLetters) : expandPlain names text = text := by
  have same : expandPlain names text = Text.replace "..".toList ['.'] text := by
    have each : ∀ part ∈ parts (Text.replace "..".toList ['.'] text),
        expandPart names part = part.text := fun part mem =>
      expandPart_eq_of_subset fun char inside => few (List.mem_flatMap.mpr ⟨part, mem, inside⟩)
    rw [expandPlain, List.flatMap_def, List.map_congr_left each, ← List.flatMap_def]
    exact flatMap_partsFrom none _
  rw [same] at few ⊢
  exact Text.replace_eq_of_subset (by decide) few

/-- An expression that is no format text is written as a break only if it is one. -/
theorem eq_of_isLeave_expand {names : Names} {line written : Text}
    (plain : Format.body? line.strip = none) (done : expand names line.strip = .ok written)
    (left : (written ++ [';']).isLeave = true) : line.strip = "break".toList := by
  have few : written ⊆ leaveLetters := (List.append_subset.mp (Text.subset_of_isLeave left)).1
  rw [expand_eq, body?_convertCalls plain] at done
  obtain rfl : expandPlain names (convertCalls line.strip) = written := by simpa using done
  have plainly := expandPlain_eq_of_subset few
  rw [plainly] at few left
  rw [convertCalls_eq_of_subset few] at left
  have unindented : (line.strip ++ [';']).dropWhile (· == ' ') = line.strip ++ [';'] := by
    cases body : line.strip with
    | nil => rfl
    | cons first rest =>
        have distinct : first ≠ ' ' := by
          rintro rfl
          apply @Text.head?_strip_ne line ' ' (by decide)
          rw [body, List.head?_cons]
        rw [List.cons_append, List.dropWhile_cons_of_neg (by simpa using distinct)]
  have whole : line.strip ++ [';'] = "break".toList ++ [';'] := by
    rw [← unindented]
    exact beq_iff_eq.mp left
  exact List.append_cancel_right whole

end Expr
end Ephp
