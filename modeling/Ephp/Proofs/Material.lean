import Mathlib.Data.List.SplitBy
import Ephp.Proofs.Piece
import Ephp.Proofs.Step

/-!
# What written texts are made of

Everything that a conversion writes of its own accord is printable ASCII, and the braces apart no
expansion of an expression writes anything else.  So every other character of an expanded text comes
from the expression itself.
-/

namespace Ephp

/-- Every character of a text that is not plain comes from a source. -/
def MadeFrom (source text : Text) : Prop :=
  ∀ char ∈ text, Text.isPlain char = false → char ∈ source

namespace MadeFrom

variable {source middle text left right : Text}

theorem of_subset (subset : text ⊆ source) : MadeFrom source text :=
  fun _ mem _ => subset mem

theorem of_isInfix (piece : List.IsInfix text source) : MadeFrom source text :=
  of_subset piece.subset

theorem of_plain (plain : text.all Text.isPlain = true) : MadeFrom source text := by
  intro char mem special
  have := List.all_eq_true.mp plain char mem
  simp [special] at this

theorem of_count_le
    (bounded : ∀ mark, Text.isPlain mark = false → text.count mark ≤ source.count mark) :
    MadeFrom source text := by
  intro char mem special
  have present : 0 < text.count char := List.count_pos_iff.mpr mem
  exact List.count_pos_iff.mp (Nat.lt_of_lt_of_le present (bounded char special))

theorem trans (outer : MadeFrom source middle) (inner : MadeFrom middle text) :
    MadeFrom source text :=
  fun char mem special => outer char (inner char mem special) special

theorem nil : MadeFrom source [] := by simp [MadeFrom]

theorem append (first : MadeFrom source left) (second : MadeFrom source right) :
    MadeFrom source (left ++ right) := by
  intro char mem special
  rcases List.mem_append.mp mem with mem | mem
  · exact first char mem special
  · exact second char mem special

theorem cons {char : Char} (plain : Text.isPlain char = true) (rest : MadeFrom source text) :
    MadeFrom source (char :: text) :=
  append (of_plain (by simpa using plain) : MadeFrom source [char]) rest

theorem flatMap {α : Type} {items : List α} {write : α → Text}
    (each : ∀ item ∈ items, MadeFrom source (write item)) :
    MadeFrom source (items.flatMap write) := by
  intro char mem special
  obtain ⟨item, item_mem, mem⟩ := List.mem_flatMap.mp mem
  exact each item item_mem char mem special

theorem join {separator : Text} {texts : List Text} (separated : MadeFrom source separator)
    (each : ∀ text ∈ texts, MadeFrom source text) :
    MadeFrom source (Text.join separator texts) := by
  induction texts with
  | nil => exact nil
  | cons first texts ih =>
      have head : MadeFrom source first := each first (by simp)
      cases texts with
      | nil => simpa using head
      | cons second texts =>
          rw [Text.join_cons_cons]
          exact (head.append separated).append (ih fun text mem => each text (by simp [mem]))

end MadeFrom

theorem Except.exists_of_mem_mapM {ε α β : Type} {items : List α} {results : List β}
    {action : α → Except ε β} (done : items.mapM action = .ok results) :
    ∀ result ∈ results, ∃ item ∈ items, action item = .ok result := by
  induction items generalizing results with
  | nil =>
      rw [List.mapM_nil, pure_eq_ok] at done
      simp [← done]
  | cons item items ih =>
      simp only [List.mapM_cons, bind_eq_ok, pure_eq_ok] at done
      obtain ⟨first, head, rest, tail, rfl⟩ := done
      intro result mem
      rcases List.mem_cons.mp mem with rfl | mem
      · exact ⟨item, by simp, head⟩
      · obtain ⟨other, other_mem, same⟩ := ih tail result mem
        exact ⟨other, by simp [other_mem], same⟩

namespace Text

theorem madeFrom_replace (old : Text) {new : Text} (plain : new.all isPlain = true) (text : Text) :
    MadeFrom text (replace old new text) :=
  .of_count_le fun _ special =>
    count_replace_le old (count_eq_zero_of_plain plain special) text

end Text

namespace Format

theorem subset_of_body? {text body : Text} (found : body? text = some body) : body ⊆ text := by
  intro char mem
  have present : 0 < body.count char := List.count_pos_iff.mpr mem
  exact List.count_pos_iff.mp (Nat.lt_of_lt_of_le present (count_body?_le found char))

/-- The characters of a segment. -/
def Segment.text : Segment → Text
  | .literal text => text
  | .placeholder text => text

theorem Segment.flatMap_consLiteral (char : Char) (segments : List Segment) :
    (consLiteral char segments).flatMap text = char :: segments.flatMap text := by
  unfold consLiteral
  split <;> simp [text]

theorem Segment.flatMap_consPlaceholder (char : Char) (segments : List Segment) :
    (consPlaceholder char segments).flatMap text = char :: segments.flatMap text := by
  unfold consPlaceholder
  split <;> simp [text]

/-- The segments of a body are the body without the braces around its placeholders. -/
theorem segmentsFrom_sublist (inside : Bool) (body : Text) :
    List.Sublist ((segmentsFrom inside body).flatMap Segment.text) body := by
  induction body generalizing inside with
  | nil => simp [segmentsFrom]
  | cons char rest ih =>
      cases inside with
      | false =>
          rw [segmentsFrom]
          split
          · exact (ih true).trans (List.sublist_cons_self char rest)
          · rw [Segment.flatMap_consLiteral]
            exact (ih false).cons_cons char
      | true =>
          rw [segmentsFrom]
          split
          · exact (ih false).trans (List.sublist_cons_self char rest)
          · rw [Segment.flatMap_consPlaceholder]
            exact (ih true).cons_cons char

theorem subset_of_mem_segments {body : Text} {segment : Segment} (mem : segment ∈ segments body) :
    segment.text ⊆ body := fun _ inside =>
  (segmentsFrom_sublist false body).subset (List.mem_flatMap.mpr ⟨segment, mem, inside⟩)

theorem madeFrom_quote (text : Text) : MadeFrom text (quote text) := by
  have inner : MadeFrom text (Text.replace ['"'] ['\\', '"'] text) :=
    Text.madeFrom_replace _ rfl text
  exact ((MadeFrom.of_plain rfl).append inner).append (.of_plain rfl)

end Format

namespace Expr

theorem madeFrom_convertCalls (text : Text) : MadeFrom text (convertCalls text) :=
  .of_count_le fun _ special => count_convertCalls_le special text

theorem Part.flatMap_consCode (char : Char) (parts : List Part) :
    (Part.consCode char parts).flatMap Part.text = char :: parts.flatMap Part.text := by
  unfold Part.consCode
  split <;> simp [Part.text]

theorem Part.flatMap_consLiteral (char : Char) (parts : List Part) :
    (Part.consLiteral char parts).flatMap Part.text = char :: parts.flatMap Part.text := by
  unfold Part.consLiteral
  split <;> simp [Part.text]

/-- The parts of an expression, one after the other, are the expression. -/
theorem flatMap_partsFrom (within : Option Char) (text : Text) :
    (partsFrom within text).flatMap Part.text = text := by
  induction text generalizing within with
  | nil => simp [partsFrom]
  | cons char rest ih =>
      cases within with
      | none =>
          rw [partsFrom]
          split
          · split
            · rw [Part.flatMap_consLiteral, ih]
            · simp [Part.text]
          · rw [Part.flatMap_consCode, ih]
      | some quote =>
          rw [partsFrom]
          split
          · simp [Part.text, ih]
          · rw [Part.flatMap_consLiteral, ih]

theorem madeFrom_respell {spellings : List (Text × Text)}
    (plain : ∀ pair ∈ spellings, pair.2.all Text.isPlain = true) (text : Text) :
    MadeFrom text (respell spellings text) :=
  .of_count_le fun _ special =>
    count_respell_le (fun pair mem => Text.count_eq_zero_of_plain (plain pair mem) special) text

theorem madeFrom_markVariables (names : Names) (text : Text) :
    MadeFrom text (markVariables names text) := by
  refine .flatMap fun run mem => ?_
  have piece : MadeFrom text run := by
    refine .of_subset fun char inside => ?_
    rw [← List.flatten_splitBy
      (fun left right => Text.isWordChar left == Text.isWordChar right) text]
    exact List.mem_flatten.mpr ⟨run, mem, inside⟩
  unfold markRun
  split
  · exact piece.cons rfl
  · exact piece

theorem madeFrom_expandPart (names : Names) (part : Part) :
    MadeFrom part.text (expandPart names part) := by
  cases part with
  | literal text => exact .of_subset (List.Subset.refl _)
  | code text =>
      exact (madeFrom_markVariables names text).trans (madeFrom_respell (by decide) _)

theorem madeFrom_expandPlain (names : Names) (text : Text) :
    MadeFrom text (expandPlain names text) := by
  have dots : MadeFrom text (Text.replace "..".toList ['.'] text) :=
    Text.madeFrom_replace _ rfl text
  refine dots.trans (.flatMap fun part mem => ?_)
  refine MadeFrom.trans (.of_subset fun char inside => ?_) (madeFrom_expandPart names part)
  rw [← flatMap_partsFrom none (Text.replace "..".toList ['.'] text)]
  exact List.mem_flatMap.mpr ⟨part, mem, inside⟩

/-- Expanding an expression adds plain characters only. -/
theorem madeFrom_expand {names : Names} {text result : Text}
    (done : expand names text = .ok result) : MadeFrom text result := by
  -- A placeholder has fewer opening braces than the expression around it.
  induction size : text.count '{' using Nat.strongRecOn generalizing text result with
  | ind size ih =>
      have calls := madeFrom_convertCalls text
      rw [expand_eq] at done
      split at done
      · cases found : Format.body? (convertCalls text) with
        | none => simp_all
        | some body =>
            have inner : MadeFrom text body :=
              calls.trans (.of_subset (Format.subset_of_body? found))
            simp only [expandFormat, found, Except.bind_eq_ok] at done
            obtain ⟨written, each, joined⟩ := done
            have made : ∀ part ∈ written, MadeFrom text part := by
              intro part mem
              obtain ⟨segment, segment_mem, expanded⟩ := Except.exists_of_mem_mapM each part mem
              have piece : MadeFrom text segment.text :=
                inner.trans (.of_subset (Format.subset_of_mem_segments segment_mem))
              cases segment with
              | literal literal =>
                  cases expanded
                  exact piece.trans (Format.madeFrom_quote literal)
              | placeholder inside =>
                  have smaller := count_placeholder_lt found segment_mem
                  have shorter : MadeFrom inside inside.strip :=
                    .of_isInfix (Text.strip_isInfix inside)
                  exact piece.trans (shorter.trans (ih _ (size ▸ smaller) expanded rfl))
            cases written with
            | nil => cases joined
            | cons first rest =>
                cases joined
                exact .join (.of_plain rfl) made
      · cases done
        exact calls.trans (madeFrom_expandPlain names _)

theorem madeFrom_map_toLower {text : Text} (truth : isTruthValue text = true) :
    MadeFrom text (text.map Char.toLower) := by
  simp only [isTruthValue, spells, Bool.or_eq_true, beq_iff_eq] at truth
  rcases truth with truth | truth
  · rw [truth]
    exact .of_plain rfl
  · rw [truth]
    exact .of_plain rfl

theorem madeFrom_unquoted (text : Text) : MadeFrom text (unquoted text) :=
  .of_isInfix
    ((Text.trim_isInfix _ _).trans ((Text.trim_isInfix _ _).trans (Text.strip_isInfix text)))

theorem madeFrom_expandList {names : Names} {inner result : Text}
    (done : expandList names inner = .ok result) : MadeFrom inner result := by
  simp only [expandList, Except.bind_eq_ok, Except.pure_eq_ok] at done
  obtain ⟨elements, each, rfl⟩ := done
  refine .append (.append (.of_plain rfl) (.join (.of_plain rfl) fun element mem => ?_))
    (.of_plain rfl)
  obtain ⟨item, item_mem, expanded⟩ := Except.exists_of_mem_mapM each element mem
  have piece : MadeFrom inner item := .of_isInfix (Text.infix_of_mem_items item_mem)
  exact piece.trans (madeFrom_expand expanded)

theorem madeFrom_expandDictionary {names : Names} {inner result : Text}
    (done : expandDictionary names inner = .ok result) : MadeFrom inner result := by
  simp only [expandDictionary, Except.bind_eq_ok, Except.pure_eq_ok] at done
  obtain ⟨entries, each, rfl⟩ := done
  refine .append (.append (.of_plain rfl) (.join (.of_plain rfl) fun entry mem => ?_))
    (.of_plain rfl)
  obtain ⟨⟨key, value⟩, pair_mem, expanded⟩ := Except.exists_of_mem_mapM each entry mem
  simp only [expandEntry, Except.bind_eq_ok, Except.pure_eq_ok] at expanded
  obtain ⟨written, value_expanded, rfl⟩ := expanded
  obtain ⟨item, item_mem, cut⟩ := List.mem_filterMap.mp pair_mem
  have piece : MadeFrom inner item := .of_isInfix (Text.infix_of_mem_items item_mem)
  have split := Text.splitFirst?_eq_some cut
  have front : MadeFrom item key := .of_subset (by simp [split])
  have back : MadeFrom item value := .of_subset (by simp [split])
  have stripped : MadeFrom value value.strip := .of_isInfix (Text.strip_isInfix value)
  refine .append (.append (.append (.of_plain rfl) ?_) (.of_plain rfl)) ?_
  · exact (piece.trans front).trans (madeFrom_unquoted key)
  · exact (piece.trans back).trans (stripped.trans (madeFrom_expand value_expanded))

/-- Expanding an assigned value adds plain characters only. -/
theorem madeFrom_expandValue {names : Names} {text result : Text}
    (done : expandValue names text = .ok result) : MadeFrom text result := by
  have stripped : MadeFrom text text.strip := .of_isInfix (Text.strip_isInfix text)
  refine stripped.trans ?_
  unfold expandValue expandStripped at done
  split at done
  · rename_i inner found
    have piece : MadeFrom text.strip inner := .of_isInfix (enclosed?_isInfix found)
    exact piece.trans (madeFrom_expandList done)
  · rename_i inner _ found
    have piece : MadeFrom text.strip inner := .of_isInfix (enclosed?_isInfix found)
    exact piece.trans (madeFrom_expandDictionary done)
  · split at done
    · rename_i truth
      cases done
      exact madeFrom_map_toLower truth
    · exact madeFrom_expand done

end Expr
end Ephp
