import Ephp.Program
import Ephp.Proofs.Outcome
import Ephp.Proofs.Path
import Ephp.Proofs.Reading

/-!
# Import lines

An import line is read twice: as a statement, which writes the path that the output requires, and
before the conversion, to find the source files that have to be converted as well.  The two agree on
the imports of source files.  Seen from the directory of the output, the required path is the path
of the output for the imported file.
-/

namespace Ephp

open Text (isInline)

/-- A line that is an import of the file at `path`. -/
def IsImport (line path : Text) : Prop :=
  ∃ gap, Span.gap.Spells gap ∧ Span.most.Spells path ∧
    line = "import".toList ++ (gap ++ '"' :: (path ++ ['"']))

/-- The pattern of import lines whose path ends with `word`; what stands before it is kept. -/
def importPattern (word : Text) : Pattern (Text × Unit) :=
  .fixed "import".toList <| .skip .gap <| .fixed ['"'] <| .keep .most <|
    .fixed (word ++ ['"']) .ending

namespace Span

theorem spells_most {text : Text} :
    most.Spells text ↔ text ≠ [] ∧ ∀ char ∈ text, isInline char = true := by
  constructor
  · rintro ⟨first, rest, rfl, started, all⟩
    exact ⟨List.cons_ne_nil _ _, List.forall_mem_cons.mpr ⟨started, all⟩⟩
  · rintro ⟨filled, all⟩
    obtain ⟨first, rest, rfl⟩ := List.exists_cons_of_ne_nil filled
    exact ⟨first, rest, rfl, (List.forall_mem_cons.mp all).1, (List.forall_mem_cons.mp all).2⟩

theorem spells_most_append {stem word : Text} (filled : stem ≠ [])
    (inline : ∀ char ∈ word, isInline char = true) :
    most.Spells (stem ++ word) ↔ most.Spells stem := by
  simp only [spells_most, List.forall_mem_append]
  exact ⟨fun ⟨_, all, _⟩ => ⟨filled, all⟩, fun ⟨_, all⟩ => ⟨by simp [filled], all, inline⟩⟩

end Span

theorem importPattern_reads {word line stem : Text} (spelled : Span.most.Spells stem)
    (imported : IsImport line (stem ++ word)) : (importPattern word).Reads line (stem, ()) := by
  obtain ⟨gap, blanks, _, rfl⟩ := imported
  rw [List.append_assoc]
  exact .fixed rfl (.skip rfl blanks rfl (.fixed rfl (.toWord _ rfl spelled)))

theorem isImport_of_match? {word line stem behind : Text} (whole : line.getLast? ≠ some '\n')
    (inline : ∀ char ∈ word, isInline char = true)
    (matched : (importPattern word).match? line = some ((stem, ()), behind)) :
    Span.most.Spells stem ∧ IsImport line (stem ++ word) := by
  obtain ⟨_, rfl, matched⟩ := Pattern.match?_fixed_eq_some.mp matched
  obtain ⟨gap, _, rfl, blanks, matched⟩ := Pattern.exists_of_match?_skip matched
  obtain ⟨_, rfl, matched⟩ := Pattern.match?_fixed_eq_some.mp matched
  obtain ⟨_, rfl, spelled, matched⟩ := Pattern.exists_of_match?_keep matched
  obtain ⟨rest, rfl, ended⟩ := Pattern.match?_fixed_eq_some.mp matched
  have filled := (Span.spells_most.mp spelled).1
  refine ⟨spelled, gap, blanks, (Span.spells_most_append filled inline).mpr spelled, ?_⟩
  rw [Pattern.match?] at ended
  split at ended
  · rename_i last
    rcases last with rfl | rfl
    · simp
    · exact absurd (by simp only [← List.append_assoc, List.getLast?_concat]) whole
  · simp at ended

namespace Statement

theorem requireForm_eq_some_iff {line path : Text} (whole : line.getLast? ≠ some '\n') :
    requireForm line = some (.require path) ↔ IsImport line path := by
  constructor
  · intro found
    obtain ⟨⟨stem, _⟩, behind, matched, built⟩ := form_eq_some found
    cases built
    simpa using (@isImport_of_match? [] _ _ _ whole (by simp) matched).2
  · intro imported
    obtain ⟨_, _, spelled, _⟩ := id imported
    have reads : (importPattern []).Reads line (path, ()) :=
      importPattern_reads spelled (by simpa using imported)
    exact form_of_reads (path, ()) reads

/-- Only the first reader makes import statements. -/
theorem read?_eq_require_iff {line path : Text} :
    read? line = some (.require path) ↔ requireForm line = some (.require path) := by
  constructor
  · intro found
    obtain ⟨reader, mem, found⟩ := List.exists_of_findSome?_eq_some found
    simp only [forms, List.mem_cons, List.not_mem_nil, or_false] at mem
    rcases mem with rfl | rfl | rfl | rfl | rfl | rfl | rfl | rfl | rfl | rfl | rfl | rfl | rfl |
      rfl | rfl | rfl | rfl | rfl | rfl | rfl | rfl | rfl | rfl | rfl | rfl | rfl | rfl | rfl |
      rfl | rfl
    case inl => exact found
    all_goals
      obtain ⟨_, _, _, built⟩ := form_eq_some found
      cases built
  · intro found
    rw [read?, forms, List.findSome?_cons, found]

end Statement

namespace Program

/-- The imports that are followed are the import statements of source files. -/
theorem importedPath?_eq_some_iff {line file : Text} :
    importedPath? line = some file ↔ Statement.read? line.strip = some (.require file) ∧
      5 < file.length ∧ Path.isSource file = true := by
  have whole : line.strip.getLast? ≠ some '\n' := Text.getLast?_strip_ne (by decide)
  have inline : ∀ char ∈ Path.sourceEnding, isInline char = true :=
    List.all_eq_true.mp (by decide)
  rw [Statement.read?_eq_require_iff, Statement.requireForm_eq_some_iff whole]
  constructor
  · intro found
    simp only [importedPath?, Option.map_eq_some_iff, Prod.exists] at found
    obtain ⟨stem, _, behind, matched, rfl⟩ := found
    obtain ⟨spelled, imported⟩ := isImport_of_match? whole inline matched
    refine ⟨imported, ?_, ?_⟩
    · have filled := List.length_pos_iff.mpr (Span.spells_most.mp spelled).1
      rw [List.length_append]
      exact Nat.lt_add_of_pos_left filled
    · exact List.isSuffixOf_iff_suffix.mpr (List.suffix_append _ _)
  · rintro ⟨imported, long, source⟩
    obtain ⟨stem, rfl⟩ := List.isSuffixOf_iff_suffix.mp source
    have filled : stem ≠ [] := by
      rintro rfl
      exact absurd long (by decide)
    obtain ⟨_, _, spelled, _⟩ := id imported
    have reads := importPattern_reads ((Span.spells_most_append filled inline).mp spelled) imported
    simp only [importedPath?, Option.map_eq_some_iff, Prod.exists]
    exact ⟨stem, (), [], reads, rfl⟩

end Program

namespace Path

theorem join_directory_output (input file : Text) :
    join (directory (output input)) (output file) = output (join (directory input) file) := by
  rw [output_join, output_directory]

end Path

namespace Conversion

theorem convertLine_of_require {line path : Text}
    (found : Statement.read? line.strip = some (.require path)) (state : State) :
    convertLine line state = .ok () ((state.dedent line.indentOf).emit line.indentOf
      ("require_once \"".toList ++ Statement.requiredPath path ++ "\";".toList)) := by
  have spoken : line.isRemark = false := by
    have whole : line.strip.getLast? ≠ some '\n' := Text.getLast?_strip_ne (by decide)
    obtain ⟨gap, _, _, split⟩ := (Statement.requireForm_eq_some_iff whole).mp
      (Statement.read?_eq_require_iff.mp found)
    rw [Text.isRemark, split]
    rfl
  rw [convertLine_of_isRemark_eq_false spoken, convertBody_of_applies found rfl]
  rfl

end Conversion

/-- The imports that are followed are exactly the import statements of source files, and such a
statement requires the output for the imported file, seen from the directory of the output. -/
theorem require_agrees_with_import (input line : Text) :
    (∀ file, Program.importedPath? line = some file ↔
      Statement.read? line.strip = some (.require file) ∧ 5 < file.length ∧
        Path.isSource file = true) ∧
    ∀ file, Program.importedPath? line = some file →
      ∃ required,
        (∀ state, Conversion.convertLine line state =
          .ok () ((state.dedent line.indentOf).emit line.indentOf
            ("require_once \"".toList ++ required ++ "\";".toList))) ∧
        Path.join (Path.directory (Path.output input)) required =
          Path.output (Path.join (Path.directory input) file) := by
  refine ⟨fun file => Program.importedPath?_eq_some_iff, fun file imported => ?_⟩
  obtain ⟨found, _, source⟩ := Program.importedPath?_eq_some_iff.mp imported
  refine ⟨Statement.requiredPath file, Conversion.convertLine_of_require found, ?_⟩
  rw [Statement.requiredPath, if_pos source, Path.join_directory_output]

theorem require_agrees_with_import_nested :
    ∃ required,
      (∀ state, Conversion.convertLine "  import \"/lib.ephp/io.ephp\"".toList state =
        .ok () ((state.dedent 2).emit 2 ("require_once \"".toList ++ required ++ "\";".toList))) ∧
      Path.join (Path.directory (Path.output "app.ephp/main.ephp".toList)) required =
        "/lib.php/io.php".toList :=
  (require_agrees_with_import "app.ephp/main.ephp".toList
    "  import \"/lib.ephp/io.ephp\"".toList).2 "/lib.ephp/io.ephp".toList (by decide +kernel)

end Ephp
