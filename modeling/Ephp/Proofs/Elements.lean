import Ephp.Proofs.Items
import Ephp.Proofs.Quotation
import Mathlib.Data.List.Infix

/-!
# Elements of collections

The elements of a collection are words and numbers, quotations, and lists of such elements.  The
intended spelling of an element has a sigil at each variable and the values as they are spelled in
the output; quotations and the brackets and commas of lists stay.  A list is written so exactly if
each of its quotations, however deep it stands, can be cut at its commas, expanded piece by piece
and put together again without a change.
-/

namespace Ephp
namespace Expr

open Format (body?)
open Text (pieces)

/-- A word or a number: letters, digits and underscores, with minus signs and single points. -/
structure IsScalar (text : Text) : Prop where
  filled : text ≠ []
  letters : text.all (fun char => Text.isWordChar char || char == '-' || char == '.') = true
  single : ¬List.IsInfix "..".toList text

instance (text : Text) : Decidable (IsScalar text) :=
  decidable_of_iff (text ≠ [] ∧
      text.all (fun char => Text.isWordChar char || char == '-' || char == '.') = true ∧
        ¬List.IsInfix "..".toList text)
    ⟨fun ⟨filled, letters, single⟩ => ⟨filled, letters, single⟩,
      fun ⟨filled, letters, single⟩ => ⟨filled, letters, single⟩⟩

/-- An element of a collection. -/
inductive Element where
  | scalar (text : Text) (scalar : IsScalar text)
  | quoted (quote : Char) (body : Text) (quotes : isQuote quote = true) (absent : quote ∉ body)
  | list (elements : List Element)

namespace Element

mutual

/-- Evaluate an element from the values of its words and quotations. -/
def fold {α : Type} (scalar quoted : Text → α) (list : List α → α) : Element → α
  | .scalar text _ => scalar text
  | .quoted quote body _ _ => quoted (quote :: (body ++ [quote]))
  | .list elements => list (foldAll scalar quoted list elements)

/-- Evaluate elements one by one. -/
def foldAll {α : Type} (scalar quoted : Text → α) (list : List α → α) : List Element → List α
  | [] => []
  | element :: elements =>
    fold scalar quoted list element :: foldAll scalar quoted list elements

end

theorem foldAll_eq_map {α : Type} {scalar quoted : Text → α} {list : List α → α}
    (elements : List Element) :
    foldAll scalar quoted list elements = elements.map (fold scalar quoted list) := by
  induction elements with
  | nil => rfl
  | cons element elements ih => rw [foldAll, ih, List.map_cons]

/-- Induction along the lists in an element. -/
theorem induct {motive : Element → Prop}
    (scalar : ∀ text scalar, motive (.scalar text scalar))
    (quoted : ∀ quote body quotes absent, motive (.quoted quote body quotes absent))
    (list : ∀ elements, (∀ element ∈ elements, motive element) → motive (.list elements))
    (element : Element) : motive element :=
  @Element.rec motive (fun elements => ∀ element ∈ elements, motive element) scalar quoted list
    (fun _ mem => absurd mem List.not_mem_nil)
    (fun _ _ first others => List.forall_mem_cons.mpr ⟨first, others⟩) element

/-- A list in brackets. -/
def bracket (texts : List Text) : Text :=
  '[' :: (Text.join ", ".toList texts ++ [']'])

/-- An element as it is written in a source. -/
def text : Element → Text :=
  fold id id bracket

/-- An element as it is meant to be written for the output. -/
def write (names : Names) : Element → Text :=
  fold (mapRuns (spellRun names)) id bracket

/-- The quotations in an element. -/
def strings : Element → List Text :=
  fold (fun _ => []) (fun string => [string]) List.flatten

theorem text_scalar {text : Text} (scalar : IsScalar text) :
    (Element.scalar text scalar).text = text := rfl

theorem write_scalar (names : Names) {text : Text} (scalar : IsScalar text) :
    (Element.scalar text scalar).write names = mapRuns (spellRun names) text := rfl

theorem text_quoted {quote : Char} {body : Text} (quotes : isQuote quote = true)
    (absent : quote ∉ body) :
    (Element.quoted quote body quotes absent).text = quote :: (body ++ [quote]) := rfl

theorem text_list (elements : List Element) :
    text (.list elements) = bracket (elements.map text) := by
  rw [text, fold, foldAll_eq_map]

theorem write_list (names : Names) (elements : List Element) :
    write names (.list elements) = bracket (elements.map (write names)) := by
  rw [write, fold, foldAll_eq_map]

theorem strings_list (elements : List Element) :
    strings (.list elements) = elements.flatMap strings := by
  rw [strings, fold, foldAll_eq_map, List.flatMap_def]

end Element

/-! ## Words and numbers -/

namespace IsScalar

variable {text : Text} {names : Names} (scalar : IsScalar text)
include scalar

theorem not_mem {mark : Char}
    (other : (Text.isWordChar mark || mark == '-' || mark == '.') = false) : mark ∉ text := by
  intro mem
  rw [List.all_eq_true.mp scalar.letters mark mem] at other
  cases other

theorem inert : Inert text := by
  have unopened : '(' ∉ text := scalar.not_mem rfl
  have idle (method : Text) (bare : Bool) : ¬Calls method bare text := by
    rintro ⟨front, char, blanks, arguments, back, rfl, -⟩
    simp at unopened
  refine ⟨⟨idle _ _, idle _ _, idle _ _⟩, fun pair mem stands => ?_, scalar.single⟩
  have paren : ∀ pair ∈ builtins, '(' ∈ pair.1 := by decide
  exact unopened (stands.subset (paren pair mem))

theorem quoteless : ∀ char ∈ text, isQuote char = false := by
  intro char mem
  refine Bool.eq_false_iff.mpr fun quoted => ?_
  rcases eq_of_isQuote quoted with rfl | rfl
  · exact scalar.not_mem rfl mem
  · exact scalar.not_mem rfl mem

theorem solid : ∀ char ∈ text, Text.isBlank char = false := by
  intro char mem
  have letter := List.all_eq_true.mp scalar.letters char mem
  simp only [Bool.or_eq_true, beq_iff_eq] at letter
  rcases letter with (word | rfl) | rfl
  · exact Text.isBlank_of_isWordChar word
  · rfl
  · rfl

/-- A word or a number is expanded to itself with its sigil or its other spelling. -/
theorem expand_eq (names : Names) :
    expand names text = .ok (mapRuns (spellRun names) text) := by
  have blankless : ' ' ∉ text := scalar.not_mem rfl
  have spaced : ∀ pair ∈ operators.map fun pair => (spaced pair.1, spaced pair.2),
      ' ' ∈ pair.1 := by decide
  rw [expand_of_callless scalar.quoteless scalar.inert.1, rewrite_eq_self_iff.mpr scalar.inert,
    expandCode, respellKeywords_eq, respell_markVariables, respell_eq_self]
  exact fun pair mem stands =>
    not_mem_mapRuns_spellRun blankless (stands.subset (spaced pair mem))

theorem not_mem_text : ',' ∉ text :=
  scalar.not_mem rfl

theorem not_mem_write : ',' ∉ mapRuns (spellRun names) text :=
  not_mem_of_other rfl (by decide) scalar.not_mem_text

end IsScalar

theorem isBlank_of_isQuote {quote : Char} (quotes : isQuote quote = true) :
    Text.isBlank quote = false := by
  rcases eq_of_isQuote quotes with rfl | rfl <;> rfl

/-! ## What an element is written with -/

/-- A text that neither starts nor ends with a blank and does not start like a format text. -/
structure Solid (text : Text) : Prop where
  filled : text ≠ []
  opens : text.head?.any Text.isBlank = false
  closes : text.getLast?.any Text.isBlank = false
  plain : body? text = none

theorem Solid.strip_eq {text : Text} (solid : Solid text) : text.strip = text := by
  rw [Text.strip_of_head? solid.opens, Text.trimEnd_of_getLast? solid.closes]

theorem Solid.append {front back : Text} (first : Solid front) (second : Solid back) :
    Solid (front ++ ", ".toList ++ back) where
  filled := List.append_ne_nil_of_right_ne_nil _ second.filled
  opens := by
    obtain ⟨char, rest, rfl⟩ := List.exists_cons_of_ne_nil first.filled
    exact first.opens
  closes := by
    rcases List.eq_nil_or_concat back with rfl | ⟨others, last, rfl⟩
    · exact absurd rfl second.filled
    · have closes := second.closes
      rw [List.concat_eq_append, List.getLast?_concat] at closes
      rwa [List.concat_eq_append, ← List.append_assoc, List.getLast?_concat]
  plain := by
    obtain ⟨char, rest, rfl⟩ := List.exists_cons_of_ne_nil first.filled
    cases rest with
    | nil => exact (Format.body?_eq_none_iff char ',' _).mpr (by simp [isQuote])
    | cons second rest =>
        exact (Format.body?_eq_none_iff char second _).mpr
          ((Format.body?_eq_none_iff char second rest).mp first.plain)

theorem Solid.join {texts : List Text} (filled : texts ≠ []) (each : ∀ text ∈ texts, Solid text) :
    Solid (Text.join ", ".toList texts) := by
  induction texts with
  | nil => exact absurd rfl filled
  | cons first texts ih =>
      obtain ⟨one, others⟩ := List.forall_mem_cons.mp each
      cases texts with
      | nil => rwa [Text.join_singleton]
      | cons second texts =>
          rw [Text.join_cons_cons]
          exact one.append (ih (List.cons_ne_nil _ _) others)

theorem solid_bracket (texts : List Text) : Solid (Element.bracket texts) where
  filled := List.cons_ne_nil _ _
  opens := rfl
  closes := by
    rw [Element.bracket, ← List.cons_append, List.getLast?_concat]
    rfl
  plain := rfl

namespace Element

variable {names : Names}

/-- Marks that are part of no word or number are written as often as they stand in the source. -/
theorem count_write {mark : Char}
    (other : (Text.isWordChar mark || mark == '-' || mark == '.') = false) (sigil : mark ≠ '$')
    (element : Element) : (element.write names).count mark = element.text.count mark := by
  induction element using Element.induct with
  | scalar text scalar =>
      have absent := scalar.not_mem other
      have word : Text.isWordChar mark = false := by
        simp only [Bool.or_eq_false_iff] at other
        exact other.1.1
      have written : mark ∉ mapRuns (spellRun names) text := not_mem_of_other word sigil absent
      exact (List.count_eq_zero.mpr written).trans (List.count_eq_zero.mpr absent).symm
  | quoted quote body quotes absent => rfl
  | list elements ih =>
      have joined : (Text.join ", ".toList (elements.map (write names))).count mark =
          (Text.join ", ".toList (elements.map text)).count mark := Text.count_join_congr ih
      rw [write_list, text_list, bracket, bracket, List.count_cons, List.count_cons,
        List.count_append, List.count_append, joined]

theorem solid_text (element : Element) : Solid element.text := by
  cases element with
  | scalar text scalar =>
      refine ⟨scalar.filled, ?_, ?_, body?_of_quoteless scalar.quoteless⟩
      · cases text with
        | nil => rfl
        | cons char text => exact scalar.solid char List.mem_cons_self
      · rcases List.eq_nil_or_concat text with rfl | ⟨front, last, rfl⟩
        · rfl
        · have solid := scalar.solid last (by simp)
          rwa [text_scalar, List.concat_eq_append, List.getLast?_concat]
  | quoted quote body quotes absent =>
      refine ⟨List.cons_ne_nil _ _, isBlank_of_isQuote quotes, ?_, ?_⟩
      · rw [text_quoted, ← List.cons_append, List.getLast?_concat]
        exact isBlank_of_isQuote quotes
      · rcases eq_of_isQuote quotes with rfl | rfl <;> rfl
  | list elements =>
      rw [text_list]
      exact solid_bracket _

section Nested

variable {elements : List Element}

theorem solid_join (filled : elements ≠ []) :
    Solid (Text.join ", ".toList (elements.map text)) :=
  Solid.join (by simpa using filled) (List.forall_mem_map.mpr fun element _ => element.solid_text)

theorem count_comma (element : Element) :
    element.text.count ',' = (element.write names).count ',' :=
  (count_write rfl (by decide) element).symm

theorem not_mem_write {element : Element} (absent : ',' ∉ element.text) :
    ',' ∉ element.write names := by
  rwa [← List.count_eq_zero, ← count_comma, List.count_eq_zero]

theorem count_comma_join :
    (Text.join ", ".toList (elements.map text)).count ',' =
      (Text.join ", ".toList (elements.map (write names))).count ',' :=
  Text.count_join_congr fun element _ => element.count_comma

end Nested

/-- A piece that starts like a format text belongs to a quotation, which is meant to stay. -/
theorem settled (element : Element) :
    List.Forall₂ Settled (pieces element.text) (pieces (element.write names)) := by
  induction element using Element.induct with
  | scalar text scalar =>
      refine (forall₂_pieces_of_not_mem scalar.not_mem_text scalar.not_mem_write).mpr (.inr ?_)
      rw [Text.strip_blank_cons, Text.strip_of_solid scalar.solid]
      exact body?_convertCalls (body?_of_quoteless scalar.quoteless)
  | quoted quote body quotes absent => exact List.forall₂_same.mpr fun _ _ => .inl rfl
  | list elements ih =>
      rw [text_list, write_list]
      cases elements with
      | nil => exact List.forall₂_same.mpr fun _ _ => .inl rfl
      | cons first elements =>
          have filled := List.cons_ne_nil first elements
          have solid := solid_join filled
          have joined := (forall₂_pieces_join_iff filled
            fun element _ => element.count_comma).mpr ih
          exact settled_cons (settled_concat solid.filled count_comma_join solid.closes joined)

theorem spreads_nil : Spreads names [] [] := by
  have nothing : expand names (Text.strip [' ']) = .ok [] := expand_of_body? rfl
  exact .cons ⟨[], nothing, rfl⟩ .nil

/-- A list without brackets is written as intended exactly if its elements are. -/
theorem spreads_join_iff (elements : List Element) :
    Spreads names (Text.join ", ".toList (elements.map text))
        (Text.join ", ".toList (elements.map (write names))) ↔
      ∀ element ∈ elements, Spreads names element.text (element.write names) := by
  cases elements with
  | nil => exact iff_of_true spreads_nil fun _ mem => absurd mem List.not_mem_nil
  | cons first elements =>
      exact forall₂_pieces_join_iff (List.cons_ne_nil _ _) fun element _ => element.count_comma

/-- The brackets around a list do not matter. -/
theorem spreads_bracket_iff (elements : List Element) :
    Spreads names (bracket (elements.map text)) (bracket (elements.map (write names))) ↔
      Spreads names (Text.join ", ".toList (elements.map text))
        (Text.join ", ".toList (elements.map (write names))) := by
  cases elements with
  | nil =>
      -- The empty list has no pieces to compare, and the brackets alone are expanded to themselves.
      have empty : expand names "[]".toList = .ok "[]".toList := expand_cons [']']
      exact iff_of_true (.cons ⟨_, empty, rfl⟩ .nil) spreads_nil
  | cons first elements =>
      have filled := List.cons_ne_nil first elements
      have solid := solid_join filled
      have settled : List.Forall₂ Settled _ _ := (forall₂_pieces_join_iff filled
        fun element _ => element.count_comma).mpr fun element _ => @settled names element
      rw [bracket, bracket, spreads_cons_iff, spreads_concat_iff solid.filled count_comma_join
        solid.closes settled]
      · obtain ⟨char, rest, whole⟩ := List.exists_cons_of_ne_nil solid.filled
        have opens := solid.opens
        rw [whole] at opens ⊢
        exact opens
      · exact (Format.body?_concat_iff _).mpr solid.plain

/-- An element is written as intended exactly if its quotations can be put together again. -/
theorem spreads_iff (element : Element) :
    Spreads names element.text (element.write names) ↔
      ∀ string ∈ element.strings, Reassembles names string := by
  induction element using Element.induct with
  | scalar text scalar =>
      refine iff_of_true ?_ fun _ mem => absurd mem List.not_mem_nil
      exact (spreads_iff_of_not_mem scalar.not_mem_text scalar.not_mem_write
        (Text.strip_of_solid scalar.solid)).mpr (scalar.expand_eq names)
  | quoted quote body quotes absent =>
      have single : (Element.quoted quote body quotes absent).strings =
        [quote :: (body ++ [quote])] := rfl
      rw [single, List.forall_mem_singleton]
      exact spreads_self_iff (List.cons_ne_nil _ _)
  | list elements ih =>
      rw [text_list, write_list, spreads_bracket_iff, spreads_join_iff, strings_list,
        List.forall_mem_flatMap]
      exact forall₂_congr ih

/-! ## Elements without commas -/

theorem exists_of_mem_strings {element : Element} {string : Text}
    (held : string ∈ element.strings) :
    ∃ quote body, isQuote quote = true ∧ quote ∉ body ∧ string = quote :: (body ++ [quote]) := by
  induction element using Element.induct with
  | scalar text scalar => exact absurd held List.not_mem_nil
  | quoted quote body quotes absent =>
      exact ⟨quote, body, quotes, absent, List.mem_singleton.mp held⟩
  | list elements ih =>
      rw [strings_list] at held
      obtain ⟨element, mem, held⟩ := List.mem_flatMap.mp held
      exact ih element mem held

theorem mem_text_of_mem_strings {element : Element} {string : Text}
    (held : string ∈ element.strings) {char : Char} (mem : char ∈ string) :
    char ∈ element.text := by
  induction element using Element.induct with
  | scalar text scalar => exact absurd held List.not_mem_nil
  | quoted quote body quotes absent => rwa [List.mem_singleton.mp held] at mem
  | list elements ih =>
      rw [strings_list] at held
      obtain ⟨element, element_mem, held⟩ := List.mem_flatMap.mp held
      rw [text_list, bracket]
      refine List.mem_cons_of_mem _ (List.mem_append_left _ ?_)
      exact Text.mem_join_of_mem (List.mem_map_of_mem element_mem) (ih element element_mem held)

/-- An element without commas is expanded as intended exactly if nothing stands in its quotations
that is rewritten. -/
theorem expand_text_iff {element : Element} (absent : ',' ∉ element.text) :
    expand names element.text = .ok (element.write names) ↔
      ∀ string ∈ element.strings, Inert string := by
  rw [← spreads_iff_of_not_mem absent (not_mem_write absent) element.solid_text.strip_eq,
    spreads_iff]
  refine forall₂_congr fun string held => ?_
  obtain ⟨quote, body, quotes, unquoted, rfl⟩ := exists_of_mem_strings held
  have free : ',' ∉ quote :: (body ++ [quote]) := mt (mem_text_of_mem_strings held) absent
  have solid : Solid (quote :: (body ++ [quote])) :=
    (Element.quoted quote body quotes unquoted).solid_text
  rw [← spreads_self_iff (List.cons_ne_nil _ _), spreads_iff_of_not_mem free free solid.strip_eq,
    expand_of_body? (body?_convertCalls solid.plain), Except.ok.injEq]
  exact expandPlain_quoted_iff quotes unquoted

end Element

end Expr
end Ephp
