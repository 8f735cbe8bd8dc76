import Ephp.Proofs.Brackets
import Ephp.Proofs.Counting
import Ephp.Proofs.Segments
import Mathlib.Data.List.Forall2

/-!
# Items of a list

A list is cut at its commas, the pieces are expanded one by one, and the results are joined again.
So a list is written as another one, with as many commas, exactly if each piece is expanded to the
corresponding piece of the other one.  This does not change if the lists are put between brackets:
the brackets are part of the first and the last piece, which are expanded between them.  A format
text would be an exception, but it never is expanded to itself.
-/

namespace Ephp

theorem List.forall₂_append_iff {α β : Type} {related : α → β → Prop} {left more : List α}
    {right others : List β} (same : left.length = right.length) :
    List.Forall₂ related (left ++ more) (right ++ others) ↔
      List.Forall₂ related left right ∧ List.Forall₂ related more others := by
  induction left generalizing right with
  | nil =>
      obtain rfl := List.eq_nil_of_length_eq_zero same.symm
      simp
  | cons first left ih =>
      cases right with
      | nil => simp at same
      | cons second right =>
          rw [List.cons_append, List.cons_append, List.forall₂_cons, List.forall₂_cons,
            ih (Nat.succ.inj same), and_assoc]

theorem List.forall₂_flatMap_iff {α β γ : Type} {related : β → γ → Prop} {items : List α}
    {read : α → List β} {write : α → List γ}
    (same : ∀ item ∈ items, (read item).length = (write item).length) :
    List.Forall₂ related (items.flatMap read) (items.flatMap write) ↔
      ∀ item ∈ items, List.Forall₂ related (read item) (write item) := by
  induction items with
  | nil => simp
  | cons item items ih =>
      obtain ⟨first, same⟩ := List.forall_mem_cons.mp same
      rw [List.flatMap_cons, List.flatMap_cons, forall₂_append_iff first, ih same,
        List.forall_mem_cons]

/-! ## Pieces -/

namespace Text

/-- The pieces of a text between its commas, where the first has a blank in front of it like the
others in a list. -/
def pieces (text : Text) : List Text :=
  (' ' :: text).splitOn ','

theorem items_eq_map_pieces (text : Text) : items text = (pieces text).map strip := by
  obtain ⟨first, others, split⟩ := List.exists_cons_of_ne_nil (List.splitOn_ne_nil ',' text)
  rw [items, pieces, List.splitOn_cons_eq_if_modifyHead, if_neg (by decide), split]
  simp [strip_blank_cons]

theorem join_pieces (text : Text) : join [','] (pieces text) = ' ' :: text :=
  List.intercalate_splitOn ','

theorem not_mem_of_mem_pieces {text piece : Text} (mem : piece ∈ pieces text) : ',' ∉ piece :=
  not_mem_of_mem_splitOn mem

theorem pieces_of_not_mem {text : Text} (absent : ',' ∉ text) : pieces text = [' ' :: text] :=
  List.splitOn_eq_singleton (by simpa using absent)

theorem pieces_append (front back : Text) :
    pieces (front ++ ", ".toList ++ back) = pieces front ++ pieces back := by
  have cut : ' ' :: (front ++ ", ".toList ++ back) = (' ' :: front) ++ ',' :: ' ' :: back := by
    simp
  rw [pieces, cut, List.splitOn_append_cons_self]
  rfl

theorem length_pieces (text : Text) : (pieces text).length = text.count ',' + 1 := by
  have general (text : Text) : (text.splitOn ',').length = text.count ',' + 1 := by
    induction text using split_induct ',' with
    | last text absent => simp [List.splitOn_eq_singleton absent, List.count_eq_zero.mpr absent]
    | cut item rest absent ih =>
        rw [List.splitOn_append_cons_self_of_not_mem absent, List.length_cons, ih,
          List.count_append, List.count_eq_zero.mpr absent, List.count_cons_self, Nat.zero_add]
  rw [pieces, general, List.count_cons_of_ne (by decide)]

theorem pieces_join {texts : List Text} (filled : texts ≠ []) :
    pieces (join ", ".toList texts) = texts.flatMap pieces := by
  induction texts with
  | nil => exact absurd rfl filled
  | cons first texts ih =>
      cases texts with
      | nil => simp
      | cons second texts =>
          rw [join_cons_cons, pieces_append, ih (List.cons_ne_nil _ _)]
          exact List.flatMap_cons.symm

/-- A blank in front of joined texts can be put in front of each of them. -/
theorem blank_cons_join {texts : List Text} (filled : texts ≠ []) :
    ' ' :: join ", ".toList texts = join [','] (texts.map (' ' :: ·)) := by
  induction texts with
  | nil => exact absurd rfl filled
  | cons first texts ih =>
      cases texts with
      | nil => simp
      | cons second texts =>
          rw [join_cons_cons, List.map_cons, List.map_cons, join_cons_cons, ← List.map_cons,
            ← ih (List.cons_ne_nil _ _)]
          simp

theorem pieces_join_of_not_mem {texts : List Text} (filled : texts ≠ [])
    (absent : ∀ text ∈ texts, ',' ∉ text) :
    pieces (join ", ".toList texts) = texts.map (' ' :: ·) := by
  rw [pieces_join filled, List.map_eq_flatMap]
  exact List.flatMap_congr fun text mem => pieces_of_not_mem (absent text mem)

/-- A bracket in front of a text is part of its first piece. -/
theorem exists_pieces_cons (text : Text) :
    ∃ (first : Text) (others : List Text), List.IsPrefix first text ∧
      pieces text = (' ' :: first) :: others ∧
        pieces ('[' :: text) = (' ' :: '[' :: first) :: others := by
  obtain ⟨first, others, split⟩ := List.exists_cons_of_ne_nil (List.splitOn_ne_nil ',' text)
  have front (char : Char) (other : char ≠ ',') {rest : Text} {item : Text} {items : List Text}
      (split : rest.splitOn ',' = item :: items) :
      (char :: rest).splitOn ',' = (char :: item) :: items := by
    rw [List.splitOn_cons_eq_if_modifyHead, if_neg (by simpa using other), split]
    rfl
  refine ⟨first, others, ?_, front ' ' (by decide) split,
    front ' ' (by decide) (front '[' (by decide) split)⟩
  have joined : join [','] (text.splitOn ',') = text := List.intercalate_splitOn ','
  rw [split] at joined
  rw [← joined]
  cases others with
  | nil => simp
  | cons second others => exact ⟨_, by rw [join_cons_cons, List.append_assoc]⟩

/-- A bracket behind a text is part of its last piece. -/
theorem exists_pieces_concat (text : Text) :
    ∃ front last, List.IsSuffix last (' ' :: text) ∧ pieces text = front ++ [last] ∧
      pieces (text ++ [']']) = front ++ [last ++ [']']] := by
  have general (text : Text) :
      ∃ front last, List.IsSuffix last text ∧ text.splitOn ',' = front ++ [last] ∧
        (text ++ [']']).splitOn ',' = front ++ [last ++ [']']] := by
    induction text using split_induct ',' with
    | last text absent =>
        exact ⟨[], text, List.suffix_refl _, List.splitOn_eq_singleton absent,
          List.splitOn_eq_singleton (by simpa using absent)⟩
    | cut item rest absent ih =>
        obtain ⟨front, last, behind, split, closed⟩ := ih
        refine ⟨item :: front, last, ?_, ?_, ?_⟩
        · exact behind.trans ((List.suffix_cons ',' rest).trans (List.suffix_append item _))
        · rw [List.splitOn_append_cons_self_of_not_mem absent, split, List.cons_append]
        · rw [List.append_assoc, List.cons_append,
            List.splitOn_append_cons_self_of_not_mem absent, closed, List.cons_append]
  exact general (' ' :: text)

theorem count_join {separator : Text} {mark : Char} (free : mark ∉ separator)
    (texts : List Text) : (join separator texts).count mark = texts.flatten.count mark := by
  induction texts with
  | nil => rfl
  | cons first texts ih =>
      cases texts with
      | nil => simp
      | cons second texts =>
          rw [join_cons_cons, List.count_append, List.count_append, ih,
            List.count_eq_zero.mpr free, Nat.add_zero, ← List.count_append]
          rfl

/-- Joining texts adds a comma between any two neighbours. -/
theorem count_comma_join {texts : List Text} (filled : texts ≠ []) :
    (join ", ".toList texts).count ',' + 1 = texts.flatten.count ',' + texts.length := by
  induction texts with
  | nil => exact absurd rfl filled
  | cons first texts ih =>
      cases texts with
      | nil => simp
      | cons second texts =>
          have others := ih (List.cons_ne_nil _ _)
          have comma : ", ".toList.count ',' = 1 := rfl
          rw [join_cons_cons, List.count_append, List.count_append, comma, List.flatten_cons,
            List.count_append, List.length_cons]
          omega

/-- Joined texts can be told apart if there are as many on both sides and no comma in some. -/
theorem join_inj_of_not_mem {left right : List Text} (sizes : left.length = right.length)
    (absent : ∀ text ∈ right, ',' ∉ text)
    (same : join ", ".toList left = join ", ".toList right) : left = right := by
  cases right with
  | nil => exact List.eq_nil_of_length_eq_zero sizes
  | cons second right =>
      have filled : left ≠ [] := by
        rintro rfl
        cases sizes
      have commas := count_comma_join filled
      rw [same, count_comma_join (List.cons_ne_nil second right), sizes, Nat.add_right_cancel_iff]
        at commas
      have plain : ∀ text ∈ left, ',' ∉ text := by
        have none : (second :: right).flatten.count ',' = 0 := by
          refine List.count_eq_zero.mpr fun mem => ?_
          obtain ⟨text, given, mem⟩ := List.mem_flatten.mp mem
          exact absent text given mem
        rw [none] at commas
        exact fun text given mem =>
          List.count_eq_zero.mp commas.symm (List.mem_flatten.mpr ⟨text, given, mem⟩)
      have pieces_eq := congrArg pieces same
      rw [pieces_join_of_not_mem filled plain,
        pieces_join_of_not_mem (List.cons_ne_nil _ _) absent] at pieces_eq
      exact List.map_injective_iff.mpr (fun _ _ tails => (List.cons.inj tails).2) pieces_eq

theorem mem_join_of_mem {separator : Text} {texts : List Text} {text : Text} {char : Char}
    (given : text ∈ texts) (mem : char ∈ text) : char ∈ join separator texts := by
  induction texts with
  | nil => exact absurd given List.not_mem_nil
  | cons first texts ih =>
      cases texts with
      | nil => rwa [join_singleton, ← List.mem_singleton.mp given]
      | cons second texts =>
          rw [join_cons_cons, List.append_assoc]
          rcases List.mem_cons.mp given with rfl | given
          · exact List.mem_append_left _ mem
          · exact List.mem_append_right _ (List.mem_append_right _ (ih given))

theorem count_join_congr {α : Type} {mark : Char} {separator : Text} {items : List α}
    {left right : α → Text}
    (same : ∀ item ∈ items, (left item).count mark = (right item).count mark) :
    (join separator (items.map left)).count mark =
      (join separator (items.map right)).count mark := by
  induction items with
  | nil => rfl
  | cons first items ih =>
      obtain ⟨one, others⟩ := List.forall_mem_cons.mp same
      cases items with
      | nil => simpa using one
      | cons second items =>
          have rest := ih others
          rw [List.map_cons, List.map_cons] at rest
          simp only [List.map_cons, join_cons_cons, List.count_append, one, rest]

/-! ## Blanks at the ends -/

theorem trimEnd_isPrefix (drops : Char → Bool) (text : Text) :
    List.IsPrefix (trimEnd drops text) text := by
  rw [trimEnd, ← List.reverse_suffix, List.reverse_reverse]
  exact List.dropWhile_suffix drops

/-- Trimming the end of a text stops at a character that is kept. -/
theorem trimEnd_append_cons {drops : Char → Bool} {char : Char} (kept : drops char = false)
    (front back : Text) :
    trimEnd drops (front ++ char :: back) = front ++ char :: trimEnd drops back := by
  rw [trimEnd, List.reverse_append, List.reverse_cons, List.append_assoc, List.dropWhile_append]
  split
  · rename_i empty
    simp [trimEnd, kept, List.isEmpty_iff.mp empty]
  · simp [trimEnd]

theorem trimEnd_cons {drops : Char → Bool} {char : Char} (kept : drops char = false)
    (text : Text) : trimEnd drops (char :: text) = char :: trimEnd drops text :=
  trimEnd_append_cons kept [] text

theorem strip_cons {char : Char} (solid : isBlank char = false) (text : Text) :
    strip (char :: text) = char :: trimEnd isBlank text := by
  rw [strip, trim, List.dropWhile_cons_of_neg (by simp [solid]), trimEnd_cons solid]

theorem strip_of_head? {text : Text} (solid : text.head?.any isBlank = false) :
    strip text = trimEnd isBlank text := by
  cases text with
  | nil => rfl
  | cons char text => rw [strip_cons (by simpa using solid), trimEnd_cons (by simpa using solid)]

theorem trimEnd_of_getLast? {text : Text} (solid : text.getLast?.any isBlank = false) :
    trimEnd isBlank text = text := by
  rcases List.eq_nil_or_concat text with rfl | ⟨front, last, rfl⟩
  · rfl
  · rw [List.concat_eq_append] at solid ⊢
    exact trimEnd_append_singleton front (by simpa using solid)

theorem any_head?_of_isPrefix {text front : Text} (ahead : List.IsPrefix front text)
    (solid : text.head?.any isBlank = false) : front.head?.any isBlank = false := by
  obtain ⟨back, rfl⟩ := ahead
  cases front with
  | nil => rfl
  | cons char front => exact solid

theorem any_getLast?_of_isSuffix {text back : Text} (behind : List.IsSuffix back text)
    (solid : text.getLast?.any isBlank = false) : back.getLast?.any isBlank = false := by
  obtain ⟨front, rfl⟩ := behind
  rcases List.eq_nil_or_concat back with rfl | ⟨others, last, rfl⟩
  · rfl
  · rw [List.concat_eq_append, List.getLast?_concat]
    rwa [List.concat_eq_append, ← List.append_assoc, List.getLast?_concat] at solid

theorem strip_concat {text : Text} (solid : text.getLast?.any isBlank = false) :
    strip (text ++ [']']) = strip text ++ [']'] := by
  have closed (text : Text) : trimEnd isBlank (text ++ [']']) = text ++ [']'] :=
    trimEnd_append_singleton text rfl
  rw [strip, trim, List.dropWhile_append]
  split
  · rename_i empty
    rw [strip, trim, List.isEmpty_iff.mp empty]
    exact closed []
  · have kept := any_getLast?_of_isSuffix (List.dropWhile_suffix isBlank) solid
    rw [closed, strip, trim, trimEnd_of_getLast? kept]

end Text

namespace Format

open Ephp.Expr (isQuote)

theorem body?_eq_none_iff (first second : Char) (rest : Text) :
    body? (first :: second :: rest) = none ↔ ¬(first = 'f' ∧ isQuote second = true) := by
  unfold body?
  split
  · simp_all [isQuote]
  · simp_all [isQuote]
  · simp_all [isQuote]

theorem body?_append_eq_none {front back : Text} (plain : body? (front ++ back) = none) :
    body? front = none := by
  cases front with
  | nil => rfl
  | cons first front =>
      cases front with
      | nil => simp [body?]
      | cons second front => rwa [List.cons_append, List.cons_append, body?_eq_none_iff,
          ← body?_eq_none_iff first second front] at plain

theorem body?_strip_of_isPrefix {front text : Text} (ahead : List.IsPrefix front text)
    (solid : text.head?.any Text.isBlank = false) (plain : body? text = none) :
    body? front.strip = none := by
  have start : List.IsPrefix front.strip text := by
    rw [Text.strip_of_head? (Text.any_head?_of_isPrefix ahead solid)]
    exact (Text.trimEnd_isPrefix Text.isBlank front).trans ahead
  obtain ⟨back, rfl⟩ := start
  exact body?_append_eq_none plain

theorem body?_concat_iff (text : Text) : body? (text ++ [']']) = none ↔ body? text = none := by
  refine ⟨body?_append_eq_none, fun plain => ?_⟩
  cases text with
  | nil => rfl
  | cons first text =>
      cases text with
      | nil => exact (body?_eq_none_iff first ']' []).mpr (by simp [isQuote])
      | cons second text => rwa [List.cons_append, List.cons_append, body?_eq_none_iff,
          ← body?_eq_none_iff first second text]

end Format

namespace Expr

open Format
open Text (isFixture pieces)

variable {names : Names} {text written : Text}

/-! ## What is in an expansion -/

theorem expand_of_body? (plain : body? (convertCalls text) = none) :
    expand names text = .ok (expandPlain names (convertCalls text)) := by
  rw [expand_eq, plain]
  rfl

theorem expand_cons (text : Text) :
    expand names ('[' :: text) = .ok ('[' :: expandPlain names (convertCalls text)) := by
  have calls : convertCalls ('[' :: text) = '[' :: convertCalls text := convertCalls_cons rfl text
  rw [expand_of_body? (by rw [calls]; rfl), calls, expandPlain_cons]

theorem expand_concat (plain : body? (convertCalls text) = none) :
    expand names (text ++ [']']) = .ok (expandPlain names (convertCalls text) ++ [']']) := by
  have closed : body? (convertCalls (text ++ [']'])) = none := by
    rwa [convertCalls_concat, body?_concat_iff]
  rw [expand_of_body? closed, convertCalls_concat, expandPlain_concat]

theorem not_mem_of_isFixture {mark : Char} {word : Text} (fixture : isFixture mark = true)
    (checked : word.all Text.isVolatile = true) : mark ∉ word := by
  intro mem
  have gone := List.all_eq_true.mp checked mark mem
  rw [isVolatile_of_isFixture fixture] at gone
  cases gone

section Count

variable {mark : Char} (fixture : isFixture mark = true) (unquoted : mark ≠ '"')
  (unescaped : mark ≠ '\\')

include fixture in
theorem count_convertCalls (text : Text) : (convertCalls text).count mark = text.count mark := by
  rw [← List.count_filter fixture, filter_convertCalls, List.count_filter fixture]

include fixture in
theorem count_expandPlain (names : Names) (text : Text) :
    (expandPlain names (convertCalls text)).count mark = text.count mark := by
  rw [← List.count_filter fixture, filter_expandPlain, List.count_filter fixture]

include unquoted unescaped in
theorem count_quote_le (text : Text) : (quote text).count mark ≤ text.count mark := by
  have escaped : ['\\', '"'].count mark = 0 := by
    simp [List.count_eq_zero, unquoted, unescaped]
  have inner := Text.count_replace_le ['"'] escaped text
  have ends : ['"'].count mark = 0 := by simp [List.count_eq_zero, unquoted]
  rw [quote, List.count_append, List.count_append, ends]
  omega

include unquoted unescaped in
theorem count_segment_le {segment : Segment} {part : Text}
    (inner : ∀ text, segment = .placeholder text → ∀ result, expand names text.strip = .ok result →
      result.count mark ≤ text.strip.count mark)
    (expanded : expandSegment names segment = .ok part) :
    part.count mark ≤ segment.text.count mark := by
  cases segment with
  | literal literal =>
      cases expanded
      exact count_quote_le unquoted unescaped literal
  | placeholder text =>
      have stripped := (Text.trim_sublist Text.isBlank text).count_le mark
      exact Nat.le_trans (inner text rfl part expanded) stripped

theorem count_written_le {segments : List Segment} {written : List Text}
    (each : ∀ segment ∈ segments, ∀ part, expandSegment names segment = .ok part →
      part.count mark ≤ segment.text.count mark)
    (done : segments.map (expandSegment names) = written.map .ok) :
    written.flatten.count mark ≤ (segments.flatMap Segment.text).count mark := by
  induction segments generalizing written with
  | nil =>
      obtain rfl := List.map_eq_nil_iff.mp done.symm
      exact Nat.le_refl _
  | cons segment segments ih =>
      cases written with
      | nil => cases done
      | cons part parts =>
          obtain ⟨one, others⟩ := List.cons.inj done
          obtain ⟨first, each⟩ := List.forall_mem_cons.mp each
          have front := first part one
          have back := ih each others
          rw [List.flatten_cons, List.flatMap_cons, List.count_append, List.count_append]
          omega

/-- The written segments of a format text. -/
theorem exists_of_expand_format {body result : Text} (found : body? (convertCalls text) = some body)
    (done : expand names text = .ok result) :
    ∃ written, (segments body).map (expandSegment names) = written.map .ok ∧ written ≠ [] ∧
      result = Text.join " . ".toList written := by
  rw [expand_eq, found, Option.isSome_some, if_pos rfl, expandFormat, found,
    Except.bind_eq_ok] at done
  obtain ⟨written, each, joined⟩ := done
  refine ⟨written, Except.mapM_eq_ok_iff.mp each, ?_, ?_⟩
  · rintro rfl
    cases joined
  · cases written with
    | nil => cases joined
    | cons first others =>
        cases joined
        rfl

include fixture unquoted unescaped in
/-- Expanding adds no braces and no colons. -/
theorem count_expand_le {result : Text} (done : expand names text = .ok result) :
    result.count mark ≤ text.count mark := by
  -- A placeholder has fewer opening braces than the expression around it.
  induction size : text.count '{' using Nat.strongRecOn generalizing text result with
  | ind size ih =>
      cases found : body? (convertCalls text) with
      | none =>
          rw [expand_of_body? found] at done
          cases done
          exact Nat.le_of_eq (count_expandPlain fixture names text)
      | some body =>
          obtain ⟨written, each, _, rfl⟩ := exists_of_expand_format found done
          have inner : ∀ segment ∈ segments body, ∀ part, expandSegment names segment = .ok part →
              part.count mark ≤ segment.text.count mark := by
            intro segment mem part expanded
            refine count_segment_le unquoted unescaped ?_ expanded
            rintro text rfl result expanded
            exact ih _ (size ▸ count_placeholder_lt found mem) expanded rfl
          calc
            _ = written.flatten.count mark :=
              Text.count_join (not_mem_of_isFixture fixture rfl) written
            _ ≤ ((segments body).flatMap Segment.text).count mark := count_written_le inner each
            _ ≤ body.count mark := (segmentsFrom_sublist false body).count_le mark
            _ ≤ (convertCalls text).count mark := count_body?_le found mark
            _ = text.count mark := count_convertCalls fixture text

end Count

/-- A format text starts with a quote once it is expanded, or it loses a brace. -/
theorem head?_or_count_lt {body result : Text} (found : body? (convertCalls text) = some body)
    (done : expand names text = .ok result) :
    result.head? = some '"' ∨ result.count '{' < text.count '{' := by
  obtain ⟨written, each, filled, rfl⟩ := exists_of_expand_format found done
  cases body with
  | nil => exact absurd (List.map_eq_nil_iff.mp each.symm) filled
  | cons char rest =>
      by_cases brace : char = '{'
      · -- The placeholder in front of the body has not its opening brace any more.
        right
        have inner : ∀ segment ∈ segments (char :: rest), ∀ part,
            expandSegment names segment = .ok part → part.count '{' ≤ segment.text.count '{' :=
          fun _ _ _ => count_segment_le (by decide) (by decide)
            fun _ _ _ => count_expand_le rfl (by decide) (by decide)
        have opened : segments (char :: rest) = segmentsFrom true rest := by
          rw [segments, segmentsFrom, if_pos brace]
        calc
          _ = written.flatten.count '{' := Text.count_join (by decide) written
          _ ≤ ((segments (char :: rest)).flatMap Segment.text).count '{' :=
            count_written_le inner each
          _ ≤ rest.count '{' := by
            rw [opened]
            exact (segmentsFrom_sublist true rest).count_le '{'
          _ < (char :: rest).count '{' := by simp [brace]
          _ ≤ (convertCalls text).count '{' := count_body?_le found '{'
          _ = text.count '{' := count_convertCalls rfl text
      · left
        obtain ⟨literal, others, read⟩ :
            ∃ literal others, segments (char :: rest) = .literal literal :: others := by
          rw [segments, segmentsFrom, if_neg brace]
          unfold Segment.consLiteral
          split
          · exact ⟨_, _, rfl⟩
          · exact ⟨_, _, rfl⟩
        cases written with
        | nil => exact absurd rfl filled
        | cons part parts =>
            rw [read, List.map_cons, List.map_cons] at each
            obtain ⟨quoted, _⟩ := List.cons.inj each
            cases quoted
            cases parts with
            | nil => rfl
            | cons second parts => rfl

/-! ## Writing pieces -/

/-- A piece of a list is written as a blank and what the piece is expanded to. -/
def Writes (names : Names) (piece written : Text) : Prop :=
  ∃ result, expand names piece.strip = .ok result ∧ written = ' ' :: result

/-- A list is written piece by piece. -/
def Spreads (names : Names) (text written : Text) : Prop :=
  List.Forall₂ (Writes names) (pieces text) (pieces written)

/-- A piece that stays as it is, or one that is no format text. -/
def Settled (piece written : Text) : Prop :=
  piece = written ∨ body? (convertCalls piece.strip) = none

theorem writes_iff {piece result : Text} (done : expand names piece.strip = .ok result) :
    Writes names piece written ↔ written = ' ' :: result := by
  constructor
  · rintro ⟨other, expanded, rfl⟩
    rw [done] at expanded
    cases expanded
    rfl
  · exact fun same => ⟨result, done, same⟩

/-- A format text is not written as it stands. -/
theorem not_writes_self {piece : Text} (format : body? (convertCalls piece.strip) ≠ none) :
    ¬Writes names piece piece := by
  rintro ⟨result, done, same⟩
  obtain ⟨body, found⟩ := Option.ne_none_iff_exists'.mp format
  rcases head?_or_count_lt found done with quoted | fewer
  · obtain ⟨rest, rfl⟩ := List.head?_eq_some_iff.mp quoted
    apply format
    rw [same, Text.strip_blank_cons, Text.strip_cons (by decide), convertCalls_cons (by decide)]
    rfl
  · have stripped := (Text.trim_sublist Text.isBlank piece).count_le '{'
    have blank : piece.count '{' = result.count '{' := by
      rw [same, List.count_cons_of_ne (by decide)]
    rw [Text.strip] at fewer
    omega

/-- An opening bracket in front of a piece is written in front of what the piece is written as. -/
theorem writes_cons_iff {first : Text} (solid : first.head?.any Text.isBlank = false)
    (plain : body? first.strip = none) :
    Writes names (' ' :: '[' :: first) (' ' :: '[' :: written) ↔
      Writes names (' ' :: first) (' ' :: written) := by
  have opened : expand names (Text.strip (' ' :: '[' :: first)) =
      .ok ('[' :: expandPlain names (convertCalls first.strip)) := by
    rw [Text.strip_blank_cons, Text.strip_cons (by decide), ← Text.strip_of_head? solid,
      expand_cons]
  have bare : expand names (Text.strip (' ' :: first)) =
      .ok (expandPlain names (convertCalls first.strip)) := by
    rw [Text.strip_blank_cons, expand_of_body? (body?_convertCalls plain)]
  rw [writes_iff opened, writes_iff bare]
  simp

/-- A closing bracket behind a piece is written behind what the piece is written as. -/
theorem writes_concat_iff {last : Text} (solid : last.getLast?.any Text.isBlank = false)
    (settled : Settled last written) :
    Writes names (last ++ [']']) (written ++ [']']) ↔ Writes names last written := by
  by_cases plain : body? (convertCalls last.strip) = none
  · have closed : expand names (Text.strip (last ++ [']'])) =
        .ok (expandPlain names (convertCalls last.strip) ++ [']']) := by
      rw [Text.strip_concat solid, expand_concat plain]
    rw [writes_iff closed, writes_iff (expand_of_body? plain), ← List.cons_append,
      List.append_cancel_right_eq]
  · obtain rfl := settled.resolve_right plain
    refine iff_of_false (not_writes_self ?_) (not_writes_self plain)
    rwa [Text.strip_concat solid, convertCalls_concat, ne_eq, body?_concat_iff]

/-! ## Writing lists -/

theorem forall₂_writes_iff {texts writtens : List Text} :
    List.Forall₂ (Writes names) texts writtens ↔
      ∃ results : List Text, (texts.map Text.strip).map (expand names) = results.map .ok ∧
        writtens = results.map (' ' :: ·) := by
  constructor
  · intro each
    induction each with
    | nil => exact ⟨[], rfl, rfl⟩
    | cons one others ih =>
        obtain ⟨result, done, rfl⟩ := one
        obtain ⟨results, all, rfl⟩ := ih
        exact ⟨result :: results, by simp [done, ← all], rfl⟩
  · rintro ⟨results, all, rfl⟩
    induction texts generalizing results with
    | nil =>
        obtain rfl := List.map_eq_nil_iff.mp all.symm
        exact .nil
    | cons text texts ih =>
        cases results with
        | nil => cases all
        | cons result results =>
            obtain ⟨one, others⟩ := List.cons.inj all
            exact .cons ⟨result, one, rfl⟩ (ih results others)

theorem expandList_eq_ok_iff (same : text.count ',' = written.count ',') :
    expandList names text = .ok ('[' :: (written ++ [']'])) ↔ Spreads names text written := by
  have shape (results : List Text) : ['['] ++ Text.join ", ".toList results ++ [']'] =
      '[' :: (written ++ [']']) ↔ Text.join ", ".toList results = written := by simp
  have nonempty {results : List Text}
      (all : text.items.map (expand names) = results.map .ok) : results ≠ [] := by
    rintro rfl
    rw [Text.items_eq_map_pieces, List.map_nil, List.map_eq_nil_iff, List.map_eq_nil_iff] at all
    exact List.splitOn_ne_nil _ _ all
  rw [Spreads, forall₂_writes_iff, ← Text.items_eq_map_pieces, expandList]
  simp only [Except.bind_eq_ok, Except.pure_eq_ok, Except.mapM_eq_ok_iff, shape]
  constructor
  · rintro ⟨results, all, rfl⟩
    -- There are as many results as pieces, so no result has a comma in it.
    have absent : ∀ result ∈ results, ',' ∉ result := by
      have commas := Text.count_comma_join (nonempty all)
      have sizes := congrArg List.length all
      rw [List.length_map, List.length_map, Text.items_eq_map_pieces, List.length_map,
        Text.length_pieces] at sizes
      have none : results.flatten.count ',' = 0 := by omega
      exact fun result mem comma =>
        List.count_eq_zero.mp none (List.mem_flatten.mpr ⟨result, mem, comma⟩)
    exact ⟨results, all, Text.pieces_join_of_not_mem (nonempty all) absent⟩
  · rintro ⟨results, all, split⟩
    refine ⟨results, all, ?_⟩
    have joined := Text.join_pieces written
    rw [split, ← Text.blank_cons_join (nonempty all)] at joined
    exact (List.cons.inj joined).2

/-- Joined texts are compared piece by piece if each text is. -/
theorem forall₂_pieces_join_iff {α : Type} {related : Text → Text → Prop} {items : List α}
    {read write : α → Text} (filled : items ≠ [])
    (same : ∀ item ∈ items, (read item).count ',' = (write item).count ',') :
    List.Forall₂ related (pieces (Text.join ", ".toList (items.map read)))
        (pieces (Text.join ", ".toList (items.map write))) ↔
      ∀ item ∈ items, List.Forall₂ related (pieces (read item)) (pieces (write item)) := by
  rw [Text.pieces_join (by simpa using filled), Text.pieces_join (by simpa using filled),
    List.flatMap_map, List.flatMap_map]
  refine List.forall₂_flatMap_iff fun item mem => ?_
  rw [Text.length_pieces, Text.length_pieces, same item mem]

theorem spreads_cons_iff (solid : text.head?.any Text.isBlank = false) (plain : body? text = none) :
    Spreads names ('[' :: text) ('[' :: written) ↔ Spreads names text written := by
  obtain ⟨first, others, ahead, split, opened⟩ := Text.exists_pieces_cons text
  obtain ⟨front, more, _, target, enclosed⟩ := Text.exists_pieces_cons written
  rw [Spreads, Spreads, split, opened, target, enclosed, List.forall₂_cons, List.forall₂_cons,
    writes_cons_iff (Text.any_head?_of_isPrefix ahead solid)
      (body?_strip_of_isPrefix ahead solid plain)]

theorem settled_cons (settled : List.Forall₂ Settled (pieces text) (pieces written)) :
    List.Forall₂ Settled (pieces ('[' :: text)) (pieces ('[' :: written)) := by
  obtain ⟨first, others, _, split, opened⟩ := Text.exists_pieces_cons text
  obtain ⟨front, more, _, target, enclosed⟩ := Text.exists_pieces_cons written
  rw [split, target, List.forall₂_cons] at settled
  rw [opened, enclosed]
  refine .cons (.inr ?_) settled.2
  rw [Text.strip_blank_cons, Text.strip_cons (by decide), convertCalls_cons (by decide)]
  rfl

section Closing

variable (filled : text ≠ []) (same : text.count ',' = written.count ',')
  (solid : text.getLast?.any Text.isBlank = false)
  (settled : List.Forall₂ Settled (pieces text) (pieces written))
include filled same solid settled

/-- A comparison of pieces that does not see a closing bracket behind the last ones. -/
theorem forall₂_concat_iff {related : Text → Text → Prop}
    (step : ∀ {last ending : Text}, last.getLast?.any Text.isBlank = false → Settled last ending →
      (related (last ++ [']']) (ending ++ [']']) ↔ related last ending)) :
    List.Forall₂ related (pieces (text ++ [']'])) (pieces (written ++ [']'])) ↔
      List.Forall₂ related (pieces text) (pieces written) := by
  obtain ⟨front, last, behind, split, closed⟩ := Text.exists_pieces_concat text
  obtain ⟨before, ending, _, target, enclosed⟩ := Text.exists_pieces_concat written
  have sizes : front.length = before.length := by
    have left := Text.length_pieces text
    have right := Text.length_pieces written
    rw [split, List.length_append] at left
    rw [target, List.length_append] at right
    simp at left right
    omega
  have solid_last : last.getLast?.any Text.isBlank = false := by
    refine Text.any_getLast?_of_isSuffix behind ?_
    rwa [List.getLast?_cons_of_ne_nil filled]
  rw [split, target, List.forall₂_append_iff sizes, List.forall₂_cons] at settled
  rw [split, closed, target, enclosed, List.forall₂_append_iff sizes,
    List.forall₂_append_iff sizes, List.forall₂_cons, List.forall₂_cons,
    step solid_last settled.2.1]

theorem settled_concat :
    List.Forall₂ Settled (pieces (text ++ [']'])) (pieces (written ++ [']'])) := by
  refine (forall₂_concat_iff filled same solid settled fun solid _ => ?_).mpr settled
  rw [Settled, Settled, List.append_cancel_right_eq, Text.strip_concat solid, convertCalls_concat,
    body?_concat_iff]

theorem spreads_concat_iff :
    Spreads names (text ++ [']']) (written ++ [']']) ↔ Spreads names text written :=
  forall₂_concat_iff filled same solid settled writes_concat_iff

end Closing

theorem forall₂_pieces_of_not_mem {related : Text → Text → Prop} (absent : ',' ∉ text)
    (unwritten : ',' ∉ written) :
    List.Forall₂ related (pieces text) (pieces written) ↔
      related (' ' :: text) (' ' :: written) := by
  rw [Text.pieces_of_not_mem absent, Text.pieces_of_not_mem unwritten, List.forall₂_cons,
    and_iff_left .nil]

/-- A list without commas is expanded as a whole. -/
theorem spreads_iff_of_not_mem (absent : ',' ∉ text) (unwritten : ',' ∉ written)
    (stripped : text.strip = text) :
    Spreads names text written ↔ expand names text = .ok written := by
  rw [Spreads, forall₂_pieces_of_not_mem absent unwritten]
  constructor
  · rintro ⟨result, done, same⟩
    rwa [Text.strip_blank_cons, stripped, ← (List.cons.inj same).2] at done
  · intro done
    refine ⟨written, ?_, rfl⟩
    rwa [Text.strip_blank_cons, stripped]

/-- A text that is put together again from what its pieces are expanded to. -/
def Reassembles (names : Names) (text : Text) : Prop :=
  ∃ items, text = Text.join ", ".toList items ∧
    ∀ item ∈ items, ',' ∉ item ∧ expand names item.strip = .ok item

theorem spreads_self_iff (filled : text ≠ []) :
    Spreads names text text ↔ Reassembles names text := by
  constructor
  · intro spreads
    obtain ⟨results, all, split⟩ := forall₂_writes_iff.mp spreads
    have nonempty : results ≠ [] := by
      rintro rfl
      exact List.splitOn_ne_nil _ _ split
    have joined := Text.join_pieces text
    rw [split, ← Text.blank_cons_join nonempty] at joined
    rw [split, List.map_map, List.map_map, List.map_inj_left] at all
    refine ⟨results, (List.cons.inj joined).2.symm, fun result mem => ⟨fun comma => ?_, ?_⟩⟩
    · have piece : ' ' :: result ∈ pieces text := split ▸ List.mem_map_of_mem mem
      exact Text.not_mem_of_mem_pieces piece (List.mem_cons_of_mem _ comma)
    · rw [← Text.strip_blank_cons]
      exact all result mem
  · rintro ⟨items, rfl, each⟩
    have nonempty : items ≠ [] := by
      rintro rfl
      exact filled rfl
    have split := Text.pieces_join_of_not_mem nonempty fun item mem => (each item mem).1
    refine forall₂_writes_iff.mpr ⟨items, ?_, split⟩
    rw [split, List.map_map, List.map_map, List.map_inj_left]
    intro item mem
    rw [Function.comp_apply, Function.comp_apply, Text.strip_blank_cons]
    exact (each item mem).2

end Expr

end Ephp
