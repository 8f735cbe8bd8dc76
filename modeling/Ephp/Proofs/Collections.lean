import Ephp.Proofs.Elements
import Mathlib.Algebra.Order.BigOperators.Group.List
import Mathlib.Algebra.Order.Ring.Nat
import Mathlib.Data.List.TakeWhile

/-!
# Collection literals

A dictionary is cut at its commas like a list, and every item without a colon is dropped.  So a
value with a comma in it is lost from its first comma on, or goes on as an entry of its own.  That
the output is right nevertheless is impossible: it would have fewer colons, quotes or brackets.  A
dictionary is written as intended exactly if no value has a comma in it and nothing stands in a
quotation that is rewritten; a list needs less, since the pieces of its elements are all kept.
-/

namespace Ephp

/-- Where one function is nowhere larger than another and the sums are equal, the values are. -/
theorem List.eq_of_sum_eq {α : Type} {items : List α} {left right : α → Nat}
    (each : ∀ item ∈ items, left item ≤ right item)
    (sums : (items.map left).sum = (items.map right).sum) :
    ∀ item ∈ items, left item = right item := by
  intro item mem
  by_contra differs
  have less := List.sum_lt_sum left right each
    ⟨item, mem, Nat.lt_of_le_of_ne (each item mem) differs⟩
  omega

namespace Text

/-- A text without the blanks around it has all its other characters. -/
theorem count_strip {mark : Char} (solid : isBlank mark = false) (text : Text) :
    text.strip.count mark = text.count mark := by
  have dropped (text : Text) : (text.dropWhile isBlank).count mark = text.count mark := by
    induction text with
    | nil => rfl
    | cons char text ih =>
        by_cases blank : isBlank char = true
        · have other : char ≠ mark := by
            rintro rfl
            rw [blank] at solid
            cases solid
          rw [List.dropWhile_cons_of_pos blank, ih, List.count_cons_of_ne other]
        · rw [List.dropWhile_cons_of_neg blank]
  rw [strip, trim, trimEnd, List.count_reverse, dropped, List.count_reverse, dropped]

theorem splitFirst?_append {mark : Char} {front : Text} (absent : mark ∉ front) (back : Text) :
    splitFirst? mark (front ++ mark :: back) = some (front, back) := by
  induction front with
  | nil => simp [splitFirst?]
  | cons char front ih =>
      obtain ⟨other, absent⟩ := not_or.mp (mt List.mem_cons.mpr absent)
      rw [List.cons_append, splitFirst?, if_neg (Ne.symm other), ih absent]
      rfl

theorem strip_trimEnd (text : Text) : strip (trimEnd isBlank text) = strip text := by
  have whole : trimEnd isBlank text ++ (text.reverse.takeWhile isBlank).reverse = text := by
    rw [trimEnd, ← List.reverse_append, List.takeWhile_append_dropWhile, List.reverse_reverse]
  conv_rhs => rw [← whole]
  refine (strip_append_of_all _ fun char mem => ?_).symm
  exact List.mem_takeWhile_imp (List.mem_reverse.mp mem)

end Text

namespace Expr

open Text (isFixture)

/-! ## Brackets behind a comma -/

/-- Without quotes, the end of a text closes as many brackets as it opens, or more. -/
def Closed (text : Text) : Prop :=
  ∀ back, List.IsSuffix back text → (∀ char ∈ back, isQuote char = false) →
    back.count '[' ≤ back.count ']'

namespace Closed

theorem of_not_mem {text : Text} (absent : '[' ∉ text) : Closed text := by
  intro back behind _
  have unopened : '[' ∉ back := mt (behind.subset ·) absent
  rw [List.count_eq_zero.mpr unopened]
  exact Nat.zero_le _

theorem append {front back : Text} (first : Closed front) (second : Closed back) :
    Closed (front ++ back) := by
  intro rest behind plain
  rcases List.suffix_or_suffix_of_suffix behind (List.suffix_append front back) with inside | across
  · exact second rest inside plain
  · obtain ⟨more, rfl⟩ := across
    have inner : List.IsSuffix more front := by
      obtain ⟨others, whole⟩ := behind
      rw [← List.append_assoc] at whole
      exact ⟨others, List.append_cancel_right whole⟩
    have left := first more inner fun char mem => plain char (List.mem_append_left _ mem)
    have right := second back (List.suffix_refl _) fun char mem =>
      plain char (List.mem_append_right _ mem)
    rw [List.count_append, List.count_append]
    omega

theorem join {texts : List Text} (each : ∀ text ∈ texts, Closed text) :
    Closed (Text.join ", ".toList texts) := by
  induction texts with
  | nil => exact of_not_mem List.not_mem_nil
  | cons first texts ih =>
      obtain ⟨one, others⟩ := List.forall_mem_cons.mp each
      cases texts with
      | nil => rwa [Text.join_singleton]
      | cons second texts =>
          rw [Text.join_cons_cons]
          exact (one.append (of_not_mem (by decide))).append (ih others)

theorem bracket {texts : List Text} (each : ∀ text ∈ texts, Closed text) :
    Closed (Element.bracket texts) := by
  have inner := (join each).append (of_not_mem (by decide : '[' ∉ [']']))
  intro back behind plain
  rcases List.suffix_cons_iff.mp behind with rfl | behind
  · have balance := join each _ (List.suffix_refl _) fun char mem =>
      plain char (List.mem_cons_of_mem _ (List.mem_append_left _ mem))
    generalize Text.join ", ".toList texts = middle at balance
    simp [List.count_append]
    omega
  · exact inner back behind plain

end Closed

namespace Element

/-- A quotation has a quote at its end. -/
theorem eq_nil_of_isSuffix {quote : Char} {body back : Text} (quotes : isQuote quote = true)
    (behind : List.IsSuffix back (quote :: (body ++ [quote])))
    (plain : ∀ char ∈ back, isQuote char = false) : back = [] := by
  rcases List.eq_nil_or_concat back with rfl | ⟨front, last, rfl⟩
  · rfl
  · obtain ⟨others, whole⟩ := behind
    rw [List.concat_eq_append, ← List.append_assoc, ← List.cons_append] at whole
    obtain ⟨_, same⟩ := List.append_inj' whole rfl
    have unquoted := plain last (by simp)
    rw [List.cons.inj same |>.1, quotes] at unquoted
    cases unquoted

theorem closed_text (element : Element) : Closed element.text := by
  induction element using Element.induct with
  | scalar text scalar => exact .of_not_mem (scalar.not_mem rfl)
  | quoted quote body quotes absent =>
      intro back behind plain
      rw [eq_nil_of_isSuffix quotes behind plain]
      exact Nat.le_refl _
  | list elements ih =>
      rw [text_list]
      exact .bracket (List.forall_mem_map.mpr ih)

/-- Behind a comma of an element, more brackets are closed than opened if no quote follows. -/
theorem count_lt_of_comma {element : Element} {front back : Text}
    (split : element.text = front ++ ',' :: back) (plain : ∀ char ∈ back, isQuote char = false) :
    back.count '[' < back.count ']' := by
  have behind : List.IsSuffix back element.text := ⟨front ++ [','], by simp [split]⟩
  cases element with
  | scalar text scalar =>
      have absent : ',' ∉ text := scalar.not_mem rfl
      rw [text_scalar] at split
      simp [split] at absent
  | quoted quote body quotes absent =>
      rw [eq_nil_of_isSuffix quotes behind plain, text_quoted, ← List.cons_append] at split
      obtain ⟨_, same⟩ := List.append_inj' split rfl
      rw [(List.cons.inj same).1] at quotes
      cases quotes
  | list elements =>
      have inner : Closed (Text.join ", ".toList (elements.map text)) :=
        .join (List.forall_mem_map.mpr fun element _ => element.closed_text)
      rw [text_list, bracket, ← List.cons_append] at split
      rcases List.eq_nil_or_concat back with rfl | ⟨rest, last, rfl⟩
      · obtain ⟨_, same⟩ := List.append_inj' split rfl
        cases same
      · have whole : '[' :: Text.join ", ".toList (elements.map text) ++ [']'] =
            (front ++ ',' :: rest) ++ [last] := by
          simpa using split
        obtain ⟨enclosed, same⟩ := List.append_inj' whole rfl
        have inside : List.IsSuffix rest (Text.join ", ".toList (elements.map text)) := by
          cases front with
          | nil => cases enclosed
          | cons first front =>
              refine ⟨front ++ [','], ?_⟩
              rw [List.append_assoc]
              exact (List.cons.inj enclosed).2.symm
        have fewer := inner rest inside fun char mem => plain char (by simp [mem])
        rw [List.concat_eq_append, ← (List.cons.inj same).1, List.count_append, List.count_append]
        simp
        omega

end Element

/-! ## Entries -/

/-- An entry of a dictionary: a word in quotes and a value. -/
structure Entry where
  quote : Char
  key : Text
  value : Element
  quotes : isQuote quote = true
  word : IsWord key

namespace Entry

variable {names : Names} (entry : Entry)

/-- The key with its quotes. -/
def label : Text :=
  entry.quote :: (entry.key ++ [entry.quote])

/-- An entry as it is written in a source. -/
def text : Text :=
  entry.label ++ ": ".toList ++ entry.value.text

/-- The key as it is written for the output, up to the value. -/
def arrow : Text :=
  ['\''] ++ entry.key ++ "' => ".toList

/-- An entry as it is meant to be written for the output. -/
def write (names : Names) (entry : Entry) : Text :=
  entry.arrow ++ entry.value.write names

/-- What is read of the value: the part in front of its first comma. -/
def front : Text :=
  entry.value.text.takeWhile (· != ',')

/-- The part of the value from its first comma on. -/
def rest : Text :=
  entry.value.text.dropWhile (· != ',')

/-- The key and the value that are read. -/
def pair : Text × Text :=
  (entry.label, Text.trimEnd Text.isBlank (' ' :: entry.front))

/-- The entries that are read in the part of the value behind its first comma. -/
def loose : List (Text × Text) :=
  entry.rest.items.filterMap (Text.splitFirst? ':')

/-- What an entry is written as, if it is cut at the first comma of its value. -/
def result (names : Names) (entry : Entry) : Text :=
  entry.arrow ++ expandPlain names (convertCalls entry.front.strip)

theorem front_append_rest : entry.front ++ entry.rest = entry.value.text :=
  List.takeWhile_append_dropWhile

theorem not_mem_front : ',' ∉ entry.front := by
  intro mem
  simpa using List.mem_takeWhile_imp mem

theorem rest_eq : entry.rest = [] ∨ ∃ back, entry.rest = ',' :: back := by
  have stops := stops_dropWhile (· != ',') entry.value.text
  rw [← rest] at stops
  cases split : entry.rest with
  | nil => exact .inl rfl
  | cons char back =>
      rw [split, Text.Stops] at stops
      exact .inr ⟨back, by simpa using stops⟩

/-- A key of letters is read back from its quotes. -/
theorem unquoted_label : unquoted entry.label = entry.key := by
  have free {mark : Char} (other : Text.isWordChar mark = false) :
      ∀ char ∈ entry.key, (char == mark) = false := by
    intro char mem
    rw [beq_eq_false_iff_ne]
    rintro rfl
    exact entry.word.not_mem other mem
  have inner {mark : Char} (other : Text.isWordChar mark = false) :
      Text.trim (· == mark) (mark :: (entry.key ++ [mark])) = entry.key := by
    have kept := Text.trim_of_free (free other)
    obtain ⟨first, others, whole⟩ := List.exists_cons_of_ne_nil entry.word.filled
    have letter : ¬(first == mark) = true := by
      simp [free other first (whole ▸ List.mem_cons_self)]
    rw [whole, Text.trim, List.dropWhile_cons_of_neg (p := (· == mark)) letter] at kept
    rw [whole, Text.trim, List.dropWhile_cons_of_pos (p := (· == mark)) (beq_self_eq_true mark),
      List.cons_append, List.dropWhile_cons_of_neg (p := (· == mark)) letter, ← List.cons_append,
      Text.trimEnd_append_of_all _ (by simp), kept]
  have quote := isBlank_of_isQuote entry.quotes
  rw [unquoted, label, Text.strip_of_ends quote quote]
  rcases eq_of_isQuote entry.quotes with same | same
  · rw [same, inner rfl, Text.trim_of_free (free rfl)]
  · have single : ∀ char ∈ '\'' :: (entry.key ++ ['\'']), (char == '"') = false := by
      intro char mem
      simp only [List.mem_cons, List.mem_append, List.not_mem_nil, or_false] at mem
      rcases mem with rfl | mem | rfl
      · rfl
      · exact free rfl char mem
      · rfl
    rw [same, Text.trim_of_free single, inner rfl]

theorem body?_front : Format.body? entry.front.strip = none :=
  Format.body?_strip_of_isPrefix ⟨entry.rest, entry.front_append_rest⟩
    entry.value.solid_text.opens entry.value.solid_text.plain

theorem not_mem_label {mark : Char} (other : Text.isWordChar mark = false)
    (unquoted : isQuote mark = false) : mark ∉ entry.label := by
  have different : mark ≠ entry.quote := by
    rintro rfl
    rw [entry.quotes] at unquoted
    cases unquoted
  simp [label, different, entry.word.not_mem other]

/-- The part of an entry in front of the first comma of the value is read as an entry. -/
theorem splitFirst?_front :
    Text.splitFirst? ':' (Text.strip (entry.label ++ ": ".toList ++ entry.front)) =
      some entry.pair := by
  have quote := isBlank_of_isQuote entry.quotes
  have stripped : Text.strip (entry.label ++ ": ".toList ++ entry.front) =
      entry.label ++ ':' :: Text.trimEnd Text.isBlank (' ' :: entry.front) := by
    have whole : entry.label ++ ": ".toList ++ entry.front =
        entry.label ++ ':' :: ' ' :: entry.front := by simp
    have opens : (entry.label ++ ':' :: ' ' :: entry.front).head?.any Text.isBlank = false := quote
    rw [whole, Text.strip_of_head? opens, Text.trimEnd_append_cons (by decide)]
  rw [stripped, Text.splitFirst?_append (entry.not_mem_label (by decide) (by decide)), pair]

/-- The entries that are read from a source entry. -/
theorem filterMap_items :
    entry.text.items.filterMap (Text.splitFirst? ':') = entry.pair :: entry.loose := by
  have whole : entry.text = (entry.label ++ ": ".toList ++ entry.front) ++ entry.rest := by
    rw [text, ← entry.front_append_rest, List.append_assoc _ entry.front]
  have absent : ',' ∉ entry.label ++ ": ".toList ++ entry.front := by
    have labelled : ',' ∉ entry.label := entry.not_mem_label (by decide) (by decide)
    simp [labelled, entry.not_mem_front]
  rcases entry.rest_eq with none | ⟨back, some⟩
  · rw [whole, loose, none, List.append_nil, Text.items, List.splitOn_eq_singleton absent]
    exact List.filterMap_cons_some entry.splitFirst?_front
  · have behind : Text.items (',' :: back) = [] :: Text.items back := by
      rw [Text.items, ← List.nil_append (',' :: back),
        List.splitOn_append_cons_self_of_not_mem List.not_mem_nil]
      rfl
    rw [whole, loose, some, behind, Text.items,
      List.splitOn_append_cons_self_of_not_mem absent, List.map_cons]
    exact List.filterMap_cons_some entry.splitFirst?_front

theorem expandEntry_pair : expandEntry names entry.pair = .ok (entry.result names) := by
  rw [pair, expandEntry, Text.strip_trimEnd, Text.strip_blank_cons, unquoted_label,
    expand_of_body? (body?_convertCalls entry.body?_front)]
  rfl

/-- A fixture is written as often as it stands in front of the first comma. -/
theorem count_result {mark : Char} (fixture : isFixture mark = true)
    (solid : Text.isBlank mark = false) :
    (entry.result names).count mark = entry.arrow.count mark + entry.front.count mark := by
  rw [result, List.count_append, count_expandPlain fixture, Text.count_strip solid]

theorem count_write {mark : Char}
    (other : (Text.isWordChar mark || mark == '-' || mark == '.') = false) (sigil : mark ≠ '$') :
    (entry.write names).count mark =
      entry.arrow.count mark + (entry.front.count mark + entry.rest.count mark) := by
  rw [write, List.count_append, Element.count_write other sigil, ← entry.front_append_rest,
    List.count_append]

/-- What an entry leaves open, and what it should, differ by what the rest of the value closes. -/
theorem count_brackets :
    (entry.write names).count '[' + (entry.result names).count ']' + entry.rest.count ']' =
      (entry.write names).count ']' + (entry.result names).count '[' + entry.rest.count '[' := by
  have kept := retains_expandPlain coarse_count names entry.front.strip
  rw [Text.count_strip (by decide), Text.count_strip (by decide)] at kept
  rw [count_write entry rfl (by decide), count_write entry rfl (by decide), result,
    List.count_append, List.count_append]
  omega

/-! ### Values without commas -/

section Whole

variable {entry} (absent : ',' ∉ entry.value.text)
include absent

theorem rest_eq_nil : entry.rest = [] := by
  rcases entry.rest_eq with none | ⟨back, some⟩
  · exact none
  · rw [← entry.front_append_rest, some] at absent
    simp at absent

theorem loose_eq_nil : entry.loose = [] := by
  rw [loose, rest_eq_nil absent]
  rfl

theorem result_eq_write_iff :
    entry.result names = entry.write names ↔ ∀ string ∈ entry.value.strings, Inert string := by
  have solid := entry.value.solid_text
  have whole : entry.front = entry.value.text := by
    rw [← entry.front_append_rest, rest_eq_nil absent, List.append_nil]
  rw [result, write, List.append_cancel_left_eq, whole, solid.strip_eq,
    ← Element.expand_text_iff absent, expand_of_body? (body?_convertCalls solid.plain),
    Except.ok.injEq]

end Whole

end Entry

/-! ## Colons -/

section Colons

variable {names : Names}

theorem count_expandEntry_le {pair : Text × Text} {result : Text}
    (done : expandEntry names pair = .ok result) :
    result.count ':' ≤ pair.1.count ':' + pair.2.count ':' := by
  rw [expandEntry] at done
  simp only [Except.bind_eq_ok, Except.pure_eq_ok] at done
  obtain ⟨value, expanded, rfl⟩ := done
  have key : List.Sublist (unquoted pair.1) pair.1 :=
    (Text.trim_sublist _ _).trans ((Text.trim_sublist _ _).trans (Text.trim_sublist _ _))
  have stripped := (Text.trim_sublist Text.isBlank pair.2).count_le ':'
  have front := key.count_le ':'
  have back : value.count ':' ≤ (Text.strip pair.2).count ':' :=
    count_expand_le rfl (by decide) (by decide) expanded
  rw [Text.strip] at back
  simp [List.count_append]
  omega

/-- Each entry that is read has lost a colon. -/
theorem count_entries_le {items results : List Text}
    (done : (items.filterMap (Text.splitFirst? ':')).map (expandEntry names) = results.map .ok) :
    results.flatten.count ':' + results.length ≤ items.flatten.count ':' := by
  induction items generalizing results with
  | nil =>
      obtain rfl := List.map_eq_nil_iff.mp done.symm
      exact Nat.le_refl _
  | cons item items ih =>
      rw [List.flatten_cons, List.count_append]
      cases cut : Text.splitFirst? ':' item with
      | none =>
          rw [List.filterMap_cons_none cut] at done
          have others := ih done
          omega
      | some pair =>
          rw [List.filterMap_cons_some cut] at done
          cases results with
          | nil => cases done
          | cons result results =>
              obtain ⟨one, done⟩ := List.cons.inj done
              have first := count_expandEntry_le one
              have others := ih done
              have whole : item = pair.1 ++ ':' :: pair.2 := Text.splitFirst?_eq_some cut
              rw [whole, List.count_append, List.count_cons_self, List.flatten_cons,
                List.count_append, List.length_cons]
              omega

theorem count_items_le {mark : Char} (other : mark ≠ ',') (text : Text) :
    text.items.flatten.count mark ≤ text.count mark := by
  have stripped (texts : List Text) :
      (texts.map Text.strip).flatten.count mark ≤ texts.flatten.count mark := by
    induction texts with
    | nil => exact Nat.le_refl _
    | cons first texts ih =>
        have one := (Text.trim_sublist Text.isBlank first).count_le mark
        rw [← Text.strip] at one
        rw [List.map_cons, List.flatten_cons, List.flatten_cons, List.count_append,
          List.count_append]
        omega
  have joined : Text.join [','] (text.splitOn ',') = text := List.intercalate_splitOn ','
  have whole := Text.count_join (by simpa using other : mark ∉ [',']) (text.splitOn ',')
  rw [joined] at whole
  rw [whole]
  exact stripped _

end Colons

/-! ## Dictionaries -/

/-- A dictionary as it is written in a source. -/
def dictionary (entries : List Entry) : Text :=
  '{' :: (Text.join ", ".toList (entries.map Entry.text) ++ ['}'])

section Dictionary

variable {names : Names} {entries : List Entry}

theorem filterMap_items_join (entries : List Entry) :
    (Text.join ", ".toList (entries.map Entry.text)).items.filterMap (Text.splitFirst? ':') =
      entries.flatMap fun entry => entry.pair :: entry.loose := by
  cases entries with
  | nil => rfl
  | cons first entries =>
      rw [Text.items_eq_map_pieces, Text.pieces_join (by simp), List.flatMap_map,
        List.map_flatMap, List.filterMap_flatMap]
      refine List.flatMap_congr fun entry _ => ?_
      rw [← Text.items_eq_map_pieces, entry.filterMap_items]

theorem length_flatMap_cons (entries : List Entry) :
    (entries.flatMap fun entry => entry.pair :: entry.loose).length =
      entries.length + (entries.flatMap Entry.loose).length := by
  induction entries with
  | nil => rfl
  | cons entry entries ih =>
      simp only [List.flatMap_cons, List.length_append, List.length_cons, ih]
      omega

theorem count_colon_text (entries : List Entry) :
    (entries.map Entry.text).flatten.count ':' =
      (entries.map (Entry.write names)).flatten.count ':' + entries.length := by
  induction entries with
  | nil => rfl
  | cons entry entries ih =>
      have label : entry.label.count ':' = 0 :=
        List.count_eq_zero.mpr (entry.not_mem_label (by decide) (by decide))
      have key : entry.key.count ':' = 0 := List.count_eq_zero.mpr (entry.word.not_mem rfl)
      have value : (entry.value.write names).count ':' = entry.value.text.count ':' :=
        Element.count_write rfl (by decide) entry.value
      simp [Entry.text, Entry.write, Entry.arrow, List.count_append, label, key, value, ih]
      omega

section Joined

variable {results : List Text}
  (done : (entries.flatMap fun entry => entry.pair :: entry.loose).map (expandEntry names) =
    results.map .ok)
  (same : Text.join ", ".toList results = Text.join ", ".toList (entries.map (Entry.write names)))
include done same

/-- If a dictionary is written as intended, no further entries are read in its values. -/
theorem loose_eq_nil_of_join : ∀ entry ∈ entries, entry.loose = [] := by
  have bound : results.length ≤ entries.length := by
    have lost := done
    rw [← filterMap_items_join] at lost
    have counted := (count_entries_le lost).trans (count_items_le (by decide) _)
    have written := congrArg (List.count ':') same
    rw [Text.count_join (by decide), Text.count_join (by decide)] at written
    rw [Text.count_join (by decide), @count_colon_text names] at counted
    omega
  have sizes := congrArg List.length done
  rw [List.length_map, List.length_map, length_flatMap_cons] at sizes
  have none : (entries.flatMap Entry.loose).length = 0 := by omega
  exact List.flatMap_eq_nil_iff.mp (List.length_eq_zero_iff.mp none)

/-- If a dictionary is written as intended, each entry is read up to the first comma. -/
theorem results_eq : results = entries.map (Entry.result names) := by
  have single : (entries.flatMap fun entry => entry.pair :: entry.loose) =
      entries.map Entry.pair := by
    rw [List.map_eq_flatMap]
    refine List.flatMap_congr fun entry mem => ?_
    rw [loose_eq_nil_of_join done same entry mem]
  have written : (entries.map Entry.pair).map (expandEntry names) =
      (entries.map (Entry.result names)).map .ok := by
    rw [List.map_map, List.map_map]
    exact List.map_congr_left fun entry _ => entry.expandEntry_pair
  rw [single, written] at done
  exact (List.map_injective_iff.mpr (fun _ _ => Except.ok.inj) done).symm

end Joined

section Results

variable (same : Text.join ", ".toList (entries.map (Entry.result names)) =
  Text.join ", ".toList (entries.map (Entry.write names)))
include same

theorem sum_count_eq {mark : Char} (free : mark ∉ ", ".toList) :
    (entries.map fun entry => (entry.result names).count mark).sum =
      (entries.map fun entry => (entry.write names).count mark).sum := by
  have counted := congrArg (List.count mark) same
  rw [Text.count_join free, Text.count_join free, List.count_flatten, List.count_flatten,
    List.map_map, List.map_map] at counted
  exact counted

/-- No quote stands behind the first comma of a value. -/
theorem isQuote_of_mem_rest : ∀ entry ∈ entries, ∀ char ∈ entry.rest, isQuote char = false := by
  have none {quote : Char} (quotes : isQuote quote = true) :
      ∀ entry ∈ entries, entry.rest.count quote = 0 := by
    obtain ⟨fixture, solid, other, sigil, free⟩ : isFixture quote = true ∧
        Text.isBlank quote = false ∧
          (Text.isWordChar quote || quote == '-' || quote == '.') = false ∧ quote ≠ '$' ∧
            quote ∉ ", ".toList := by
      rcases eq_of_isQuote quotes with rfl | rfl <;> decide
    have read (entry : Entry) := @Entry.count_result names entry quote fixture solid
    have written (entry : Entry) := @Entry.count_write names entry quote other sigil
    have bound : ∀ entry ∈ entries,
        (entry.result names).count quote ≤ (entry.write names).count quote := by
      intro entry _
      rw [read, written]
      omega
    intro entry mem
    have equal := List.eq_of_sum_eq bound (sum_count_eq same free) entry mem
    rw [read, written] at equal
    omega
  intro entry mem char inside
  refine Bool.eq_false_iff.mpr fun quotes => ?_
  exact List.count_eq_zero.mp (none quotes entry mem) inside

/-- No value has a comma. -/
theorem not_mem_text : ∀ entry ∈ entries, ',' ∉ entry.value.text := by
  have unquoted := isQuote_of_mem_rest same
  have closes : ∀ entry ∈ entries, entry.rest.count '[' ≤ entry.rest.count ']' := by
    intro entry mem
    exact entry.value.closed_text entry.rest ⟨entry.front, entry.front_append_rest⟩
      (unquoted entry mem)
  -- On the whole, as many brackets are opened and closed as should be.
  have sums : (entries.map fun entry => (entry.write names).count '[' +
        (entry.result names).count ']').sum =
      (entries.map fun entry => (entry.write names).count ']' +
        (entry.result names).count '[').sum := by
    have opened := sum_count_eq same (by decide : '[' ∉ ", ".toList)
    have closed := sum_count_eq same (by decide : ']' ∉ ", ".toList)
    rw [List.sum_map_add, List.sum_map_add]
    omega
  have bound : ∀ entry ∈ entries, (entry.write names).count '[' + (entry.result names).count ']' ≤
      (entry.write names).count ']' + (entry.result names).count '[' := by
    intro entry mem
    have kept := @Entry.count_brackets names entry
    have fewer := closes entry mem
    omega
  intro entry mem comma
  have equal := List.eq_of_sum_eq bound sums entry mem
  have balanced := @Entry.count_brackets names entry
  rcases entry.rest_eq with none | ⟨back, some⟩
  · rw [← entry.front_append_rest, none, List.append_nil] at comma
    exact entry.not_mem_front comma
  · have split : entry.value.text = entry.front ++ ',' :: back := by
      rw [← some, entry.front_append_rest]
    have fewer := Element.count_lt_of_comma split fun char inside =>
      unquoted entry mem char (some ▸ List.mem_cons_of_mem _ inside)
    rw [some, List.count_cons_of_ne (by decide), List.count_cons_of_ne (by decide)] at balanced
    omega

end Results

theorem not_mem_write {entry : Entry} (absent : ',' ∉ entry.value.text) :
    ',' ∉ entry.write names := by
  have key : ',' ∉ entry.key := entry.word.not_mem rfl
  have value : ',' ∉ entry.value.write names := Element.not_mem_write absent
  simp [Entry.write, Entry.arrow, key, value]

/-- A dictionary is written as intended exactly if no value has a comma and no quotation is
rewritten. -/
theorem expandDictionary_eq_ok_iff (entries : List Entry) :
    expandDictionary names (Text.join ", ".toList (entries.map Entry.text)) =
        .ok (Element.bracket (entries.map (Entry.write names))) ↔
      ∀ entry ∈ entries, ',' ∉ entry.value.text ∧
        ∀ string ∈ entry.value.strings, Inert string := by
  have shape (results : List Text) : ['['] ++ Text.join ", ".toList results ++ [']'] =
      Element.bracket (entries.map (Entry.write names)) ↔ Text.join ", ".toList results =
        Text.join ", ".toList (entries.map (Entry.write names)) := by
    rw [Element.bracket, List.append_assoc, List.singleton_append, List.cons.injEq,
      List.append_cancel_right_eq, and_iff_right rfl]
  rw [expandDictionary, filterMap_items_join]
  simp only [Except.bind_eq_ok, Except.pure_eq_ok, Except.mapM_eq_ok_iff, shape]
  constructor
  · rintro ⟨results, done, same⟩
    obtain rfl := results_eq done same
    have absent := not_mem_text same
    have written : entries.map (Entry.result names) = entries.map (Entry.write names) := by
      refine Text.join_inj_of_not_mem (by simp) (List.forall_mem_map.mpr fun entry mem => ?_) same
      exact not_mem_write (absent entry mem)
    intro entry mem
    have unchanged := List.map_inj_left.mp written entry mem
    exact ⟨absent entry mem, (Entry.result_eq_write_iff (absent entry mem)).mp unchanged⟩
  · intro kept
    refine ⟨entries.map (Entry.write names), ?_, rfl⟩
    rw [List.map_flatMap, List.map_map, List.map_eq_flatMap]
    refine List.flatMap_congr fun entry mem => ?_
    obtain ⟨absent, inert⟩ := kept entry mem
    rw [Entry.loose_eq_nil absent, List.map_singleton, entry.expandEntry_pair,
      (Entry.result_eq_write_iff absent).mpr inert]
    rfl

end Dictionary

/-! ## Collections as values -/

section Values

variable {names : Names}

theorem enclosed?_eq {opening closing : Char} (middle : Text) :
    enclosed? opening closing (opening :: (middle ++ [closing])) = some middle := by
  rw [enclosed?, if_pos ⟨rfl, by rw [← List.cons_append, List.getLast?_concat]⟩]
  simp

theorem expandValue_bracket (texts : List Text) :
    expandValue names (Element.bracket texts) =
      expandList names (Text.join ", ".toList texts) := by
  rw [expandValue, (solid_bracket texts).strip_eq, expandStripped, Element.bracket, enclosed?_eq]

theorem expandValue_dictionary (entries : List Entry) :
    expandValue names (dictionary entries) =
      expandDictionary names (Text.join ", ".toList (entries.map Entry.text)) := by
  have list : enclosed? '[' ']' (dictionary entries) = none := if_neg fun ends => by cases ends.1
  have inner : enclosed? '{' '}' (dictionary entries) =
    some (Text.join ", ".toList (entries.map Entry.text)) := enclosed?_eq _
  rw [expandValue, dictionary, Text.strip_of_ends rfl rfl, ← dictionary, expandStripped, list,
    inner]

/-- A list literal becomes the array of its elements exactly if each quotation in it can be cut at
its commas, expanded piece by piece and put together again without a change.  A dictionary literal
becomes the array of its entries exactly if no value has a comma in it and nothing stands in a
quotation that is rewritten. -/
theorem collections_kept_iff (names : Names) (elements : List Element) (entries : List Entry) :
    (expandValue names (Element.list elements).text = .ok ((Element.list elements).write names) ↔
      ∀ string ∈ (Element.list elements).strings, Reassembles names string) ∧
    (expandValue names (dictionary entries) =
        .ok (Element.bracket (entries.map (Entry.write names))) ↔
      ∀ entry ∈ entries, ',' ∉ entry.value.text ∧
        ∀ string ∈ entry.value.strings, Inert string) := by
  constructor
  · rw [Element.text_list, Element.write_list, expandValue_bracket, Element.bracket,
      expandList_eq_ok_iff Element.count_comma_join, ← Element.spreads_bracket_iff,
      ← Element.text_list, ← Element.write_list]
    exact Element.spreads_iff _
  · rw [expandValue_dictionary]
    exact expandDictionary_eq_ok_iff entries

/-- The list `[x, 'a, b', ["c", []]]`. -/
def mixed : List Element :=
  [.scalar "x".toList (by decide), .quoted '\'' "a, b".toList rfl (by decide),
    .list [.quoted '"' "c".toList rfl (by decide), .list []]]

/-- An entry `'k': "a: b"` and an entry `"n": [x]`. -/
def plainEntries : List Entry :=
  [⟨'\'', "k".toList, .quoted '"' "a: b".toList rfl (by decide), rfl, by decide⟩,
    ⟨'"', "n".toList, .list [.scalar "x".toList (by decide)], rfl, by decide⟩]

/-- The names in a program that has a variable `x`. -/
def declared : Names :=
  Names.empty.declare "x".toList

theorem collections_kept_iff_mixed :
    expandValue declared "[x, 'a, b', [\"c\", []]]".toList =
        .ok "[$x, 'a, b', [\"c\", []]]".toList ∧
      expandValue declared "\x7b'k': \"a: b\", \"n\": [x]\x7d".toList =
        .ok "['k' => \"a: b\", 'n' => [$x]]".toList := by
  have source : (Element.list mixed).text = "[x, 'a, b', [\"c\", []]]".toList ∧
      (Element.list mixed).write declared = "[$x, 'a, b', [\"c\", []]]".toList ∧
        (Element.list mixed).strings = ["'a, b'".toList, "\"c\"".toList] := by decide +kernel
  have given : dictionary plainEntries = "\x7b'k': \"a: b\", \"n\": [x]\x7d".toList ∧
      Element.bracket (plainEntries.map (Entry.write declared)) =
        "['k' => \"a: b\", 'n' => [$x]]".toList := by decide +kernel
  obtain ⟨list, entries⟩ := collections_kept_iff declared mixed plainEntries
  rw [source.1, source.2.1, source.2.2] at list
  rw [given.1, given.2] at entries
  constructor
  · have words : Reassembles declared "'a, b'".toList :=
      ⟨["'a".toList, "b'".toList], rfl, by decide +kernel⟩
    have letter : Reassembles declared "\"c\"".toList :=
      ⟨["\"c\"".toList], rfl, by decide +kernel⟩
    exact list.mpr (List.forall_mem_cons.mpr ⟨words, List.forall_mem_singleton.mpr letter⟩)
  · have inert : Inert "\"a: b\"".toList := rewrite_eq_self_iff.mp (by decide +kernel)
    refine entries.mpr (List.forall_mem_cons.mpr ⟨⟨by decide, ?_⟩,
      List.forall_mem_singleton.mpr ⟨by decide, ?_⟩⟩)
    · exact List.forall_mem_singleton.mpr inert
    · exact fun _ mem => absurd mem List.not_mem_nil

/-- The value of an entry is a list of two numbers: `'k': [1, 2]`. -/
def dividedEntry : Entry :=
  ⟨'\'', "k".toList, .list [.scalar "1".toList (by decide), .scalar "2".toList (by decide)], rfl,
    by decide⟩

/-- The second element of a list in a dictionary is dropped, and the bracket behind it. -/
theorem not_kept_in_dictionary :
    dictionary [dividedEntry] = "\x7b'k': [1, 2]\x7d".toList ∧
      Element.bracket [dividedEntry.write Names.empty] = "['k' => [1, 2]]".toList ∧
        expandValue Names.empty (dictionary [dividedEntry]) = .ok "['k' => [1]".toList := by
  decide +kernel

end Values

end Expr

end Ephp
