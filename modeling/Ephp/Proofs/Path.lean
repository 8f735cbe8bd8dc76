import Ephp.File.Path

/-!
# Paths of outputs

The path of an output is the path of its source with every source ending replaced.  No ending goes
over a slash, so the replacement acts on the names of a path one by one: it commutes with taking the
directory of a path and with joining paths.  What it leaves has no source ending.
-/

namespace Ephp
namespace Text

variable {old new : Text}

theorem replace_occurrence (filled : old ≠ []) (rest : Text) :
    replace old new (old ++ rest) = new ++ replace old new rest := by
  obtain ⟨first, others, rfl⟩ := List.exists_cons_of_ne_nil filled
  have found : after? (first :: others) (first :: (others ++ rest)) = some rest :=
    after?_eq_some_iff.mpr rfl
  rw [replace, substitute, List.cons_append, substituteAfter]
  simp only [found, Option.map_some, List.length_append, Nat.le_add_left, if_true]
  rw [substituteAfter_eq, Nat.add_sub_cancel, List.drop_left]
  rfl

theorem replace_cons {char : Char} {rest : Text} (other : ¬List.IsPrefix old (char :: rest)) :
    replace old new (char :: rest) = char :: replace old new rest := by
  have missing : after? old (char :: rest) = none := by
    refine Option.eq_none_iff_forall_ne_some.mpr fun behind found => other ?_
    rw [after?_eq_some_iff.mp found]
    exact List.prefix_append _ _
  rw [replace, substitute, substituteAfter]
  simp only [missing, Option.map_none]
  rfl

/-- Induction along a replacement: a text is empty, starts with an occurrence, or starts with a
character that is copied. -/
theorem replace_induct {motive : Text → Prop} (filled : old ≠ []) (nil : motive [])
    (occurrence : ∀ rest, motive rest → motive (old ++ rest))
    (copied : ∀ char rest, ¬List.IsPrefix old (char :: rest) → motive rest →
      motive (char :: rest)) (text : Text) : motive text := by
  generalize size : text.length = length
  induction length using Nat.strongRecOn generalizing text with
  | _ length ih =>
      cases text with
      | nil => exact nil
      | cons char rest =>
          by_cases stands : List.IsPrefix old (char :: rest)
          · obtain ⟨behind, split⟩ := stands
            have shorter : behind.length < length := by
              have longer := List.length_pos_iff.mpr filled
              rw [← size, ← split, List.length_append]
              omega
            rw [← split]
            exact occurrence behind (ih _ shorter behind rfl)
          · refine copied char rest stands (ih rest.length ?_ rest rfl)
            rw [← size]
            exact Nat.lt_succ_self _

theorem isPrefix_of_isPrefix_append_cons {word front back : Text} {mark : Char}
    (absent : mark ∉ word) (stands : List.IsPrefix word (front ++ mark :: back)) :
    List.IsPrefix word front := by
  rcases List.prefix_or_prefix_of_prefix stands (List.prefix_append front _) with shorter | longer
  · exact shorter
  · obtain ⟨more, rfl⟩ := longer
    have behind : List.IsPrefix more (mark :: back) :=
      (List.prefix_append_right_inj front).mp stands
    cases more with
    | nil => simp
    | cons char more =>
        obtain ⟨rfl, _⟩ := List.cons_prefix_cons.mp behind
        simp at absent

/-- A replacement acts on both sides of a character that the replaced word does not have. -/
theorem replace_append_cons {mark : Char} (filled : old ≠ []) (absent : mark ∉ old)
    (front back : Text) :
    replace old new (front ++ mark :: back) =
      replace old new front ++ mark :: replace old new back := by
  induction front using replace_induct filled with
  | nil =>
      refine replace_cons fun stands => ?_
      obtain ⟨first, others, rfl⟩ := List.exists_cons_of_ne_nil filled
      obtain ⟨rfl, _⟩ := List.cons_prefix_cons.mp stands
      simp at absent
  | occurrence rest ih =>
      rw [List.append_assoc, replace_occurrence filled, ih, replace_occurrence filled,
        List.append_assoc]
  | copied char rest other ih =>
      rw [replace_cons other, List.cons_append, List.cons_append, replace_cons, ih]
      exact fun stands => other (isPrefix_of_isPrefix_append_cons absent stands)

theorem mem_replace (filled : old ≠ []) {char : Char} {text : Text}
    (mem : char ∈ replace old new text) : char ∈ new ∨ char ∈ text := by
  induction text using replace_induct filled with
  | nil => exact .inr mem
  | occurrence rest ih =>
      rw [replace_occurrence filled, List.mem_append] at mem
      rcases mem with mem | mem
      · exact .inl mem
      · exact (ih mem).imp_right fun mem => List.mem_append_right _ mem
  | copied first rest other ih =>
      rw [replace_cons other, List.mem_cons] at mem
      rcases mem with rfl | mem
      · exact .inr List.mem_cons_self
      · exact (ih mem).imp_right fun mem => List.mem_cons_of_mem _ mem

theorem trimEnd_append_of_all {drops : Char → Bool} {back : Text} (front : Text)
    (all : ∀ char ∈ back, drops char = true) :
    trimEnd drops (front ++ back) = trimEnd drops front := by
  rw [trimEnd, List.reverse_append, List.dropWhile_append_of_pos (by simpa using all), trimEnd]

theorem trimEnd_append_singleton {drops : Char → Bool} {char : Char} (front : Text)
    (kept : drops char = false) : trimEnd drops (front ++ [char]) = front ++ [char] := by
  simp [trimEnd, kept]

end Text

namespace Path

open Text (replace_induct)

theorem sourceEnding_ne_nil : sourceEnding ≠ [] := by decide

theorem output_nil : output [] = [] := rfl

theorem output_occurrence (rest : Text) :
    output (sourceEnding ++ rest) = '.' :: 'p' :: 'h' :: 'p' :: output rest :=
  Text.replace_occurrence sourceEnding_ne_nil rest

theorem output_cons {char : Char} {rest : Text}
    (other : ¬List.IsPrefix sourceEnding (char :: rest)) :
    output (char :: rest) = char :: output rest :=
  Text.replace_cons other

theorem output_append_cons (front back : Text) :
    output (front ++ '/' :: back) = output front ++ '/' :: output back :=
  Text.replace_append_cons sourceEnding_ne_nil (by decide) front back

theorem not_mem_output {path : Text} (absent : '/' ∉ path) : '/' ∉ output path := by
  intro mem
  rcases Text.mem_replace sourceEnding_ne_nil mem with mem | mem
  · exact absurd mem (by decide)
  · exact absent mem

theorem isAbsolute_output (path : Text) : isAbsolute (output path) = isAbsolute path := by
  induction path using replace_induct sourceEnding_ne_nil with
  | nil => rfl
  | occurrence rest _ =>
      rw [output_occurrence]
      rfl
  | copied char rest other _ =>
      rw [output_cons other]
      rfl

theorem isEmpty_output (path : Text) : (output path).isEmpty = path.isEmpty := by
  induction path using replace_induct sourceEnding_ne_nil with
  | nil => rfl
  | occurrence rest _ =>
      rw [output_occurrence]
      rfl
  | copied char rest other _ =>
      rw [output_cons other]
      rfl

/-- A path has no slash, or a last one. -/
theorem exists_last_slash (path : Text) :
    '/' ∉ path ∨ ∃ front name, path = front ++ '/' :: name ∧ '/' ∉ name := by
  by_cases mem : '/' ∈ path
  · obtain ⟨name, front, split, absent⟩ :=
      List.eq_append_cons_of_mem (List.mem_reverse.mpr mem)
    refine .inr ⟨front.reverse, name.reverse, ?_, by simpa using absent⟩
    simpa using congrArg List.reverse split
  · exact .inl mem

theorem getLast?_of_not_mem {name : Text} (absent : '/' ∉ name) :
    (name.getLast? == some '/') = false :=
  beq_eq_false_iff_ne.mpr fun last => absent (List.mem_of_getLast? last)

theorem getLast?_append_slash (front : Text) {name : Text} (absent : '/' ∉ name) :
    ((front ++ '/' :: name).getLast? == some '/') = name.isEmpty := by
  cases name with
  | nil => simp
  | cons first rest =>
      have last : (front ++ '/' :: first :: rest).getLast? = (first :: rest).getLast? := by
        rw [List.getLast?_append, List.getLast?_cons_cons, List.getLast?_cons]
        rfl
      rw [last]
      exact getLast?_of_not_mem absent

theorem getLast?_output (path : Text) :
    ((output path).getLast? == some '/') = (path.getLast? == some '/') := by
  rcases exists_last_slash path with absent | ⟨front, name, rfl, absent⟩
  · rw [getLast?_of_not_mem absent, getLast?_of_not_mem (not_mem_output absent)]
  · rw [output_append_cons, getLast?_append_slash _ (not_mem_output absent),
      getLast?_append_slash _ absent, isEmpty_output]

theorem output_join (base path : Text) :
    output (join base path) = join (output base) (output path) := by
  unfold join
  rw [isAbsolute_output, isEmpty_output, getLast?_output]
  split
  · rfl
  · split
    · rename_i slash
      rw [Bool.or_eq_true, List.isEmpty_iff, beq_iff_eq] at slash
      rcases slash with rfl | last
      · rfl
      · obtain ⟨front, rfl⟩ := List.getLast?_eq_some_iff.mp last
        rw [List.append_assoc, List.singleton_append, output_append_cons, output_append_cons,
          List.append_assoc]
        rfl
    · rw [List.append_assoc, List.singleton_append, output_append_cons, List.append_assoc]
      rfl

theorem all_slash_output (path : Text) :
    (output path).all (· == '/') = path.all (· == '/') := by
  induction path using replace_induct sourceEnding_ne_nil with
  | nil => rfl
  | occurrence rest _ =>
      rw [output_occurrence]
      rfl
  | copied char rest other ih =>
      rw [output_cons other, List.all_cons, List.all_cons]
      exact congrArg _ ih

theorem trimEnd_of_getLast? {path : Text} (kept : (path.getLast? == some '/') = false) :
    path.trimEnd (· == '/') = path := by
  rcases List.eq_nil_or_concat path with rfl | ⟨front, last, rfl⟩
  · rfl
  · rw [List.concat_eq_append] at kept ⊢
    exact Text.trimEnd_append_singleton front (by simpa using kept)

theorem output_trimEnd (path : Text) :
    output (path.trimEnd (· == '/')) = (output path).trimEnd (· == '/') := by
  generalize size : path.length = length
  induction length generalizing path with
  | zero =>
      rw [List.eq_nil_of_length_eq_zero size]
      rfl
  | succ length ih =>
      cases slash : path.getLast? == some '/' with
      | false => rw [trimEnd_of_getLast? slash, trimEnd_of_getLast? (getLast?_output path ▸ slash)]
      | true =>
          obtain ⟨front, rfl⟩ := List.getLast?_eq_some_iff.mp (beq_iff_eq.mp slash)
          rw [output_append_cons, Text.trimEnd_append_of_all front (by simp),
            Text.trimEnd_append_of_all (output front) (by simp [output_nil]), ih front]
          simpa using size

/-- The directory of a path is what stands before its last slash. -/
theorem directory_append_slash (front : Text) {name : Text} (absent : '/' ∉ name) :
    directory (front ++ '/' :: name) =
      if front.all (· == '/') then front ++ ['/'] else front.trimEnd (· == '/') := by
  have kept : (front ++ '/' :: name).trimEnd (· != '/') = front ++ ['/'] := by
    rw [← List.singleton_append, ← List.append_assoc, Text.trimEnd_append_of_all,
      Text.trimEnd_append_singleton _ rfl]
    intro char mem
    exact bne_iff_ne.mpr fun same => absent (same ▸ mem)
  have trimmed : (front ++ ['/']).trimEnd (· == '/') = front.trimEnd (· == '/') :=
    Text.trimEnd_append_of_all front (by simp)
  simp [directory, kept, trimmed]

theorem directory_of_not_mem {path : Text} (absent : '/' ∉ path) : directory path = [] := by
  have empty : path.trimEnd (· != '/') = [] := by
    rw [← List.nil_append path, Text.trimEnd_append_of_all]
    · rfl
    · exact fun char mem => bne_iff_ne.mpr fun same => absent (same ▸ mem)
  simp [directory, empty]

theorem output_directory (path : Text) : output (directory path) = directory (output path) := by
  rcases exists_last_slash path with absent | ⟨front, name, rfl, absent⟩
  · rw [directory_of_not_mem absent, directory_of_not_mem (not_mem_output absent)]
    rfl
  · rw [output_append_cons, directory_append_slash _ absent,
      directory_append_slash _ (not_mem_output absent), all_slash_output]
    split
    · exact output_append_cons front []
    · exact output_trimEnd front

end Path
end Ephp
