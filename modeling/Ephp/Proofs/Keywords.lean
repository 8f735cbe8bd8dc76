import Mathlib.Data.List.Chain
import Ephp.Proofs.Words

/-!
# Keywords as whole words

The logical operators are respelled where they have a blank on either side, one operator after the
other, and a blank counts only once for each of them.  The values are respelled wherever they stand,
also inside of longer words.  So an expression is written with its keywords as whole words exactly
if every operator stands between blanks that it does not share with the same operator, and every
value is a word of its own.
-/

namespace Ephp

namespace Text

/-! ## Items between blanks -/

theorem join_cons {mark : Char} {items : List Text} (filled : items ≠ []) (item : Text) :
    join [mark] (item :: items) = item ++ mark :: join [mark] items := by
  obtain ⟨next, items, rfl⟩ := List.exists_cons_of_ne_nil filled
  rw [join_cons_cons, List.append_assoc, List.singleton_append]

theorem not_mem_of_mem_splitOn {mark : Char} {text item : Text} (mem : item ∈ text.splitOn mark) :
    mark ∉ item := by
  induction text using split_induct mark with
  | last text absent =>
      rw [List.splitOn_eq_singleton absent, List.mem_singleton] at mem
      rwa [mem]
  | cut front rest absent ih =>
      rw [List.splitOn_append_cons_self_of_not_mem absent] at mem
      rcases List.mem_cons.mp mem with rfl | mem
      · exact absent
      · exact ih mem

theorem join_inj {mark : Char} {left right : List Text} (left_filled : left ≠ [])
    (right_filled : right ≠ []) (left_plain : ∀ item ∈ left, mark ∉ item)
    (right_plain : ∀ item ∈ right, mark ∉ item) :
    join [mark] left = join [mark] right ↔ left = right := by
  refine ⟨fun same => ?_, congrArg (join [mark])⟩
  calc
    left = (join [mark] left).splitOn mark :=
      (List.splitOn_intercalate mark left_plain left_filled).symm
    _ = (join [mark] right).splitOn mark := congrArg (List.splitOn mark) same
    _ = right := List.splitOn_intercalate mark right_plain right_filled

/-- What works on both sides of a character works on the items between its occurrences. -/
theorem map_join {mark : Char} {write : Text → Text} {items : List Text} (filled : items ≠ [])
    (cut : ∀ front back, write (front ++ mark :: back) = write front ++ mark :: write back) :
    write (join [mark] items) = join [mark] (items.map write) := by
  induction items with
  | nil => exact absurd rfl filled
  | cons item items ih =>
      cases items with
      | nil => simp
      | cons next items =>
          have others : (next :: items).map write ≠ [] := List.cons_ne_nil _ _
          rw [join_cons (List.cons_ne_nil next items), cut, ih (List.cons_ne_nil next items),
            List.map_cons (l := next :: items), join_cons others]

/-- A replacement starts behind a text that lacks the first character of the replaced word. -/
theorem replace_append_of_head {old new front : Text} {mark : Char}
    (starts : old.head? = some mark) (absent : mark ∉ front) (back : Text) :
    replace old new (front ++ back) = front ++ replace old new back := by
  induction front with
  | nil => rfl
  | cons char front ih =>
      obtain ⟨differs, absent⟩ := not_or.mp (mt List.mem_cons.mpr absent)
      rw [List.cons_append, replace_cons, ih absent, List.cons_append]
      intro stands
      obtain ⟨rest, rfl⟩ := List.head?_eq_some_iff.mp starts
      exact differs (List.cons_prefix_cons.mp stands).1

/-- Of two writings of the same items, where one is never the longer one, all items are alike if the
writings are. -/
theorem flatMap_eq_iff {α : Type} {first second : α → Text} {items : List α}
    (shorter : ∀ item, (first item).length ≤ (second item).length) :
    items.flatMap second = items.flatMap first ↔ ∀ item ∈ items, second item = first item := by
  refine ⟨fun same => ?_, List.flatMap_congr⟩
  induction items with
  | nil => simp
  | cons item items ih =>
      have others : (items.flatMap first).countP (fun _ => true) ≤
          (items.flatMap second).countP (fun _ => true) :=
        Expr.countP_flatMap_le (by simpa using shorter)
      rw [List.flatMap_cons, List.flatMap_cons] at same
      have lengths := congrArg List.length same
      rw [List.length_append, List.length_append] at lengths
      rw [List.countP_true] at others
      have here := shorter item
      obtain ⟨first_same, later⟩ := List.append_inj same (by omega)
      exact List.forall_mem_cons.mpr ⟨first_same, ih later⟩

end Text

namespace Expr

open Text (isWordChar)

/-- Replace the items that are `old`, except for the first and the last one and for one that stands
behind a replaced one.  The flag tells whether there is a blank to use in front of the items. -/
def respellItems (old new : Text) : Bool → List Text → List Text
  | _, [] => []
  | _, [item] => [item]
  | false, item :: next :: items => item :: respellItems old new true (next :: items)
  | true, item :: next :: items =>
      if item = old then new :: respellItems old new false (next :: items)
      else item :: respellItems old new true (next :: items)

/-- An item stands neither first nor last nor behind itself. -/
structure Parted (item : Text) (items : List Text) : Prop where
  starts : items.head? ≠ some item
  ends : items.getLast? ≠ some item
  apart : items.IsChain fun left right => ¬(left = item ∧ right = item)

section Items

variable {old new : Text} {free : Bool} {items : List Text}

theorem respellItems_ne_nil (filled : items ≠ []) : respellItems old new free items ≠ [] := by
  fun_cases respellItems old new free items with
  | case1 => exact absurd rfl filled
  | case2 => exact List.cons_ne_nil _ _
  | case3 => exact List.cons_ne_nil _ _
  | case4 => exact List.cons_ne_nil _ _
  | case5 => exact List.cons_ne_nil _ _

theorem mem_respellItems {item : Text} (mem : item ∈ respellItems old new free items) :
    item = new ∨ item ∈ items := by
  fun_induction respellItems old new free items with
  | case1 => exact .inr mem
  | case2 => exact .inr mem
  | case3 first next items ih =>
      rcases List.mem_cons.mp mem with rfl | mem
      · exact .inr List.mem_cons_self
      · exact (ih mem).imp_right (List.mem_cons_of_mem first)
  | case4 next items ih =>
      rcases List.mem_cons.mp mem with rfl | mem
      · exact .inl rfl
      · exact (ih mem).imp_right (List.mem_cons_of_mem old)
  | case5 first next items differs ih =>
      rcases List.mem_cons.mp mem with rfl | mem
      · exact .inr List.mem_cons_self
      · exact (ih mem).imp_right (List.mem_cons_of_mem first)

/-- Items that are not replaced stay. -/
theorem mem_respellItems_of_ne {item : Text} (differs : item ≠ old) (mem : item ∈ items) :
    item ∈ respellItems old new free items := by
  fun_induction respellItems old new free items with
  | case1 => exact mem
  | case2 => exact mem
  | case3 first next items ih => exact List.mem_cons.mpr ((List.mem_cons.mp mem).imp_right ih)
  | case4 next items ih =>
      exact List.mem_cons_of_mem new (ih ((List.mem_cons.mp mem).resolve_left differs))
  | case5 first next items _ ih => exact List.mem_cons.mpr ((List.mem_cons.mp mem).imp_right ih)

/-- Without another blank there is nothing to replace. -/
theorem replace_spaced_of_not_mem {text : Text} (absent : ' ' ∉ text) :
    Text.replace (spaced old) (spaced new) text = text ∧
      Text.replace (spaced old) (spaced new) (' ' :: text) = ' ' :: text := by
  have same : Text.replace (spaced old) (spaced new) text = text :=
    Text.replace_eq_self fun stands => absent (stands.subset List.mem_cons_self)
  refine ⟨same, ?_⟩
  rw [Text.replace_cons, same]
  intro stands
  exact absent ((List.cons_prefix_cons.mp stands).2.subset (by simp))

/-- Respelling a word between blanks is respelling items. -/
theorem replace_spaced (absent : ' ' ∉ old) (plain : ∀ item ∈ items, ' ' ∉ item) :
    Text.replace (spaced old) (spaced new) (Text.join [' '] items) =
        Text.join [' '] (respellItems old new false items) ∧
      Text.replace (spaced old) (spaced new) (' ' :: Text.join [' '] items) =
        ' ' :: Text.join [' '] (respellItems old new true items) := by
  induction items with
  | nil => exact replace_spaced_of_not_mem (by simp)
  | cons item items ih =>
      obtain ⟨first, plain⟩ := List.forall_mem_cons.mp plain
      cases items with
      | nil =>
          rw [Text.join_singleton, respellItems, respellItems, Text.join_singleton]
          exact replace_spaced_of_not_mem first
      | cons next items =>
          obtain ⟨ih_used, ih_free⟩ := ih plain
          have others {free : Bool} : respellItems old new free (next :: items) ≠ [] :=
            respellItems_ne_nil (List.cons_ne_nil next items)
          have copied : Text.replace (spaced old) (spaced new)
              (item ++ ' ' :: Text.join [' '] (next :: items)) =
                item ++ ' ' :: Text.join [' '] (respellItems old new true (next :: items)) := by
            rw [Text.replace_append_of_head rfl first, ih_free]
          rw [Text.join_cons (List.cons_ne_nil next items), respellItems, Text.join_cons others]
          refine ⟨copied, ?_⟩
          rw [respellItems]
          split
          · rename_i same
            have found : ' ' :: (item ++ ' ' :: Text.join [' '] (next :: items)) =
                spaced old ++ Text.join [' '] (next :: items) := by
              rw [same, spaced]
              simp
            have filled : spaced old ≠ [] := List.cons_ne_nil _ _
            rw [found, Text.replace_occurrence filled, ih_used, Text.join_cons others, spaced]
            simp
          · rename_i differs
            rw [Text.replace_cons, copied, Text.join_cons others]
            rintro ⟨back, split⟩
            have behind : old ++ ' ' :: back = item ++ ' ' :: Text.join [' '] (next :: items) := by
              simpa [spaced] using split
            exact differs (Text.eq_of_first absent first behind).1.symm

/-- If respelling leaves no `old` behind, it stood parted. -/
theorem parted_of_not_mem (absent : old ∉ respellItems old new free items) :
    (free = false → items.head? ≠ some old) ∧ items.getLast? ≠ some old ∧
      items.IsChain fun left right => ¬(left = old ∧ right = old) := by
  fun_induction respellItems old new free items with
  | case1 => simp
  | case2 free item =>
      have differs : item ≠ old := fun same => absent (by simp [same])
      simp [differs]
  | case3 item next items ih =>
      obtain ⟨differs, absent⟩ := not_or.mp (mt List.mem_cons.mpr absent)
      obtain ⟨_, ends, apart⟩ := ih absent
      refine ⟨fun _ => ?_, ?_, List.isChain_cons_cons.mpr ⟨?_, apart⟩⟩
      · simpa using Ne.symm differs
      · rwa [List.getLast?_cons_cons]
      · exact fun both => differs both.1.symm
  | case4 next items ih =>
      obtain ⟨_, absent⟩ := not_or.mp (mt List.mem_cons.mpr absent)
      obtain ⟨starts, ends, apart⟩ := ih absent
      refine ⟨by simp, ?_, List.isChain_cons_cons.mpr ⟨?_, apart⟩⟩
      · rwa [List.getLast?_cons_cons]
      · exact fun both => starts rfl (by simp [both.2])
  | case5 item next items differs ih =>
      obtain ⟨_, absent⟩ := not_or.mp (mt List.mem_cons.mpr absent)
      obtain ⟨_, ends, apart⟩ := ih absent
      refine ⟨by simp, ?_, List.isChain_cons_cons.mpr ⟨?_, apart⟩⟩
      · rwa [List.getLast?_cons_cons]
      · exact fun both => differs both.1

/-- Items that are parted are all replaced. -/
theorem respellItems_of_parted (starts : free = false → items.head? ≠ some old)
    (ends : items.getLast? ≠ some old)
    (apart : items.IsChain fun left right => ¬(left = old ∧ right = old)) :
    respellItems old new free items = items.map fun item => if item = old then new else item := by
  fun_induction respellItems old new free items with
  | case1 => rfl
  | case2 free item =>
      have differs : item ≠ old := by simpa using ends
      simp [differs]
  | case3 item next items ih =>
      have differs : item ≠ old := by simpa using starts rfl
      rw [List.getLast?_cons_cons] at ends
      rw [ih (by simp) ends (List.isChain_cons_cons.mp apart).2]
      simp [differs]
  | case4 next items ih =>
      obtain ⟨first, apart⟩ := List.isChain_cons_cons.mp apart
      have differs : next ≠ old := fun same => first ⟨rfl, same⟩
      rw [List.getLast?_cons_cons] at ends
      rw [ih (by simp [differs]) ends apart]
      simp
  | case5 item next items differs ih =>
      rw [List.getLast?_cons_cons] at ends
      rw [ih (by simp) ends (List.isChain_cons_cons.mp apart).2]
      simp [differs]

theorem parted_map_iff {item : Text} {write : Text → Text}
    (same : ∀ other, write other = item ↔ other = item) :
    Parted item (items.map write) ↔ Parted item items := by
  have starts : (items.map write).head? = some item ↔ items.head? = some item := by
    simp only [List.head?_map, Option.map_eq_some_iff, same, exists_eq_right]
  have ends : (items.map write).getLast? = some item ↔ items.getLast? = some item := by
    simp only [List.getLast?_map, Option.map_eq_some_iff, same, exists_eq_right]
  have apart : (items.map write).IsChain (fun left right => ¬(left = item ∧ right = item)) ↔
      items.IsChain fun left right => ¬(left = item ∧ right = item) := by
    simp only [List.isChain_map, same]
  constructor
  · rintro ⟨not_first, not_last, chain⟩
    exact ⟨mt starts.mpr not_first, mt ends.mpr not_last, apart.mp chain⟩
  · rintro ⟨not_first, not_last, chain⟩
    exact ⟨mt starts.mp not_first, mt ends.mp not_last, apart.mpr chain⟩

end Items

/-! ## Operators one after the other -/

/-- Replace the items that are first words of the list, one pair after the other. -/
def respellAll (spellings : List (Text × Text)) (items : List Text) : List Text :=
  spellings.foldl (fun items pair => respellItems pair.1 pair.2 false items) items

/-- No replaced word is replaced again or written for another one. -/
structure Separate (spellings : List (Text × Text)) : Prop where
  distinct : spellings.Pairwise fun left right => left.1 ≠ right.1
  fresh : ∀ left ∈ spellings, ∀ right ∈ spellings, left.2 ≠ right.1

section Operators

variable {pair : Text × Text} {spellings : List (Text × Text)} {items : List Text}

theorem respellAll_cons (pair : Text × Text) (spellings : List (Text × Text)) (items : List Text) :
    respellAll (pair :: spellings) items =
      respellAll spellings (respellItems pair.1 pair.2 false items) := rfl

theorem respellAll_ne_nil (filled : items ≠ []) : respellAll spellings items ≠ [] := by
  induction spellings generalizing items with
  | nil => exact filled
  | cons pair spellings ih => exact ih (respellItems_ne_nil filled)

theorem respell_spaced (plain : ∀ pair ∈ spellings, ' ' ∉ pair.1 ∧ ' ' ∉ pair.2)
    (blankless : ∀ item ∈ items, ' ' ∉ item) :
    respell (spellings.map fun pair => (spaced pair.1, spaced pair.2)) (Text.join [' '] items) =
        Text.join [' '] (respellAll spellings items) ∧
      ∀ item ∈ respellAll spellings items, ' ' ∉ item := by
  induction spellings generalizing items with
  | nil => exact ⟨rfl, blankless⟩
  | cons pair spellings ih =>
      obtain ⟨⟨absent, target⟩, plain⟩ := List.forall_mem_cons.mp plain
      rw [List.map_cons, respell_cons, (replace_spaced absent blankless).1, respellAll_cons]
      refine ih plain fun item mem => ?_
      rcases mem_respellItems mem with rfl | mem
      · exact target
      · exact blankless item mem

theorem mem_respellAll {item : Text} (differs : ∀ pair ∈ spellings, item ≠ pair.1)
    (mem : item ∈ items) : item ∈ respellAll spellings items := by
  induction spellings generalizing items with
  | nil => exact mem
  | cons pair spellings ih =>
      obtain ⟨first, differs⟩ := List.forall_mem_cons.mp differs
      exact ih differs (mem_respellItems_of_ne first mem)

theorem Separate.tail (separate : Separate (pair :: spellings)) : Separate spellings where
  distinct := (List.pairwise_cons.mp separate.distinct).2
  fresh left left_mem right right_mem :=
    separate.fresh left (List.mem_cons_of_mem pair left_mem) right
      (List.mem_cons_of_mem pair right_mem)

/-- Replacing a word leaves the others where they are. -/
theorem Separate.parted_map_iff (separate : Separate (pair :: spellings)) {other : Text × Text}
    (mem : other ∈ spellings) :
    Parted other.1 (items.map fun item => if item = pair.1 then pair.2 else item) ↔
      Parted other.1 items := by
  refine Expr.parted_map_iff fun item => ?_
  have differs := (List.pairwise_cons.mp separate.distinct).1 other mem
  have fresh := separate.fresh pair List.mem_cons_self other (List.mem_cons_of_mem pair mem)
  split
  · rename_i same
    rw [same]
    exact iff_of_false fresh differs
  · rfl

/-- If none of the replaced words is left, they all stood parted. -/
theorem Separate.parted (separate : Separate spellings)
    (absent : ∀ pair ∈ spellings, pair.1 ∉ respellAll spellings items) :
    ∀ pair ∈ spellings, Parted pair.1 items := by
  induction spellings generalizing items with
  | nil => simp
  | cons pair spellings ih =>
      -- The first word would still be there after the others, which do not replace it.
      have differs := (List.pairwise_cons.mp separate.distinct).1
      obtain ⟨first, absent⟩ := List.forall_mem_cons.mp absent
      rw [respellAll_cons] at first
      obtain ⟨starts, ends, apart⟩ := parted_of_not_mem (mt (mem_respellAll differs) first)
      refine List.forall_mem_cons.mpr ⟨⟨starts rfl, ends, apart⟩, fun other mem => ?_⟩
      have parted : Parted other.1 (respellItems pair.1 pair.2 false items) :=
        ih separate.tail absent other mem
      rwa [respellItems_of_parted starts ends apart, separate.parted_map_iff mem] at parted

/-- Words that stand parted are all replaced. -/
theorem Separate.respellAll_of_parted (separate : Separate spellings)
    (parted : ∀ pair ∈ spellings, Parted pair.1 items) :
    respellAll spellings items = items.map fun item => (spellings.lookup item).getD item := by
  induction spellings generalizing items with
  | nil => simp [respellAll]
  | cons pair spellings ih =>
      obtain ⟨first, parted⟩ := List.forall_mem_cons.mp parted
      rw [respellAll_cons, respellItems_of_parted (fun _ => first.starts) first.ends first.apart,
        ih separate.tail fun other mem => (separate.parted_map_iff mem).mpr (parted other mem),
        List.map_map]
      refine List.map_congr_left fun item _ => ?_
      rw [Function.comp_apply]
      split
      · rename_i same
        have fresh : spellings.lookup pair.2 = none := by
          refine List.lookup_eq_none_iff.mpr fun other mem => ?_
          simpa using separate.fresh pair List.mem_cons_self other (List.mem_cons_of_mem pair mem)
        rw [fresh, same, List.lookup_cons_self]
        rfl
      · rename_i differs
        rw [List.lookup_cons, beq_false_of_ne differs]

end Operators

/-! ## Whole words -/

/-- The keywords as words, with their spellings in the output. -/
def keywordWords : List (Text × Text) :=
  values ++ operators

/-- Write a run of characters: a keyword by its spelling, and any other run with a sigil if it names
a variable. -/
def writeRun (names : Names) (run : Text) : Text :=
  (keywordWords.lookup run).getD (markRun names run)

/-- Write an expression with its keywords as whole words. -/
def writeWords (names : Names) (text : Text) : Text :=
  mapRuns (writeRun names) text

/-- An item between blanks is an operator, or none of its runs is an operator, and a run in which a
value stands is that value. -/
def Legible (item : Text) : Prop :=
  (∃ pair ∈ operators, item = pair.1) ∨
    ∀ run ∈ runs item, (∀ pair ∈ operators, run ≠ pair.1) ∧
      ((∃ pair ∈ values, run = pair.1) ∨ ∀ pair ∈ values, ¬List.IsInfix pair.1 run)

/-- Every keyword of an expression stands where it is recognised, and nothing else is rewritten. -/
structure Regular (text : Text) : Prop where
  inert : Inert text
  legible : ∀ item ∈ text.splitOn ' ', Legible item
  parted : ∀ pair ∈ operators, Parted pair.1 (text.splitOn ' ')

section Writing

variable {names : Names} {run item text : Text}

theorem separate_operators : Separate operators :=
  ⟨by decide, by decide⟩

/-- A run is a keyword with its spelling or any other run. -/
theorem writeRun_cases (names : Names) (run : Text) :
    (∃ pair ∈ keywordWords, run = pair.1 ∧ writeRun names run = pair.2) ∨
      (∀ pair ∈ keywordWords, run ≠ pair.1) ∧ writeRun names run = markRun names run := by
  rw [writeRun]
  cases found : keywordWords.lookup run with
  | none =>
      refine .inr ⟨fun pair mem => ?_, rfl⟩
      simpa using List.lookup_eq_none_iff.mp found pair mem
  | some spelling =>
      obtain ⟨_, _, split, _⟩ := List.lookup_eq_some_iff.mp found
      exact .inl ⟨(run, spelling), by simp [split], rfl, rfl⟩

theorem copies_writeRun : Copies (writeRun names) := by
  intro run others
  rcases writeRun_cases names run with ⟨pair, mem, rfl, _⟩ | ⟨_, written⟩
  · have spelled : ∀ pair ∈ keywordWords, IsWord pair.1 := by decide
    have word := spelled pair mem
    obtain ⟨first, first_mem⟩ := List.exists_mem_of_ne_nil _ word.filled
    exact absurd first_mem (word.not_mem (others first first_mem))
  · rw [written, copies_markRun run others]

theorem stops_writeWords (stops : text.Stops isWordChar) :
    (writeWords names text).Stops isWordChar := by
  cases text with
  | nil => trivial
  | cons first rest =>
      rw [writeWords, mapRuns_cons copies_writeRun stops]
      exact stops

theorem words_append_of_other {front : Text} (others : ∀ char ∈ front, isWordChar char = false)
    (back : Text) : words (front ++ back) = words back := by
  induction front with
  | nil => rfl
  | cons char front ih =>
      obtain ⟨first, others⟩ := List.forall_mem_cons.mp others
      rw [List.cons_append, words_cons first, ih others]

/-- No keyword is a word of what is written. -/
theorem not_mem_words_writeWords (names : Names) (text : Text) :
    ∀ pair ∈ keywordWords, pair.1 ∉ words (writeWords names text) := by
  intro keyword keyword_mem
  induction text using words_induct with
  | nil => simp [writeWords, mapRuns, runs, words]
  | other char rest other ih =>
      rwa [writeWords, mapRuns_cons copies_writeRun other, words_cons other]
  | word run rest word stops ih =>
      have stopped : (writeWords names rest).Stops isWordChar := stops_writeWords stops
      have split : writeWords names (run ++ rest) = writeRun names run ++ writeWords names rest :=
        mapRuns_word word stops
      rw [split]
      rcases writeRun_cases names run with ⟨pair, mem, _, written⟩ | ⟨others, written⟩
      · rw [written]
        rcases List.mem_append.mp mem with value | operator
        · have fresh : ∀ keyword ∈ keywordWords, ∀ pair ∈ values, keyword.1 ≠ pair.2 := by decide
          rw [words_word (lettered_values pair value).2 stopped, List.mem_cons, not_or]
          exact ⟨fresh keyword keyword_mem pair value, ih⟩
        · have signs : ∀ pair ∈ operators, pair.2.all (!isWordChar ·) = true := by decide
          rwa [words_append_of_other (by simpa using signs pair operator)]
      · have plain : keyword.1 ∉ words (run ++ writeWords names rest) := by
          rw [words_word word stopped, List.mem_cons, not_or]
          exact ⟨(others keyword keyword_mem).symm, ih⟩
        rw [written, markRun]
        split
        · rwa [List.cons_append, words_cons (by decide)]
        · exact plain

theorem length_markRun (names : Names) (run : Text) : run.length ≤ (markRun names run).length := by
  rw [markRun]
  split <;> simp

theorem length_respell_values (text : Text) : (respell values text).length = text.length := by
  have kept : (respell values text).countP (fun _ => true) = text.countP (fun _ => true) :=
    countP_respell (by decide) text
  rwa [List.countP_true] at kept

theorem length_writeRun_le (names : Names) (run : Text) :
    (writeRun names run).length ≤ (spellRun names run).length := by
  rw [spellRun, length_respell_values]
  rcases writeRun_cases names run with ⟨pair, mem, rfl, written⟩ | ⟨_, written⟩
  · have shorter : ∀ pair ∈ keywordWords, pair.2.length ≤ pair.1.length := by decide
    rw [written]
    exact (shorter pair mem).trans (length_markRun names pair.1)
  · rw [written]

theorem markRun_of_undeclared (undeclared : run ∉ names.declared) : markRun names run = run := by
  simp [markRun, Names.takesSigil, undeclared]

theorem markVariables_eq_self (absent : '$' ∉ markVariables names text) :
    markVariables names text = text := by
  have unmarked : ∀ run ∈ runs text, markRun names run = id run := by
    intro run mem
    rw [markRun]
    split
    · rename_i sigil
      refine absurd (List.mem_flatMap.mpr ⟨run, mem, ?_⟩) absent
      rw [markRun, if_pos sigil]
      exact List.mem_cons_self
    · rfl
  rw [markVariables, List.flatMap_congr unmarked, List.flatMap_id, runs, List.flatten_splitBy]

section Undeclared

variable (undeclared : ∀ pair ∈ keywordWords, pair.1 ∉ names.declared)

include undeclared

theorem spellRun_of_mem {pair : Text × Text} (mem : pair ∈ keywordWords) :
    spellRun names pair.1 = respell values pair.1 := by
  rw [spellRun, markRun_of_undeclared (undeclared pair mem)]

theorem spellRun_eq_writeRun_iff (run : Text) :
    spellRun names run = writeRun names run ↔ (∀ pair ∈ operators, run ≠ pair.1) ∧
      ((∃ pair ∈ values, run = pair.1) ∨ ∀ pair ∈ values, ¬List.IsInfix pair.1 run) := by
  rcases writeRun_cases names run with ⟨pair, mem, rfl, written⟩ | ⟨others, written⟩
  · rw [written, spellRun_of_mem undeclared mem]
    rcases List.mem_append.mp mem with value | operator
    · have spelled : ∀ pair ∈ values, respell values pair.1 = pair.2 ∧
          ∀ operator ∈ operators, pair.1 ≠ operator.1 := by decide
      obtain ⟨same, differs⟩ := spelled pair value
      exact iff_of_true same ⟨differs, .inl ⟨pair, value, rfl⟩⟩
    · have kept : ∀ pair ∈ operators, respell values pair.1 ≠ pair.2 := by decide
      exact iff_of_false (kept pair operator) fun both => both.1 pair operator rfl
  · rw [written, spellRun_eq_markRun_iff]
    constructor
    · intro absent
      exact ⟨fun pair mem => others pair (List.mem_append_right values mem), .inr absent⟩
    · rintro ⟨_, ⟨pair, mem, rfl⟩ | absent⟩
      · exact absurd rfl (others pair (List.mem_append_left operators mem))
      · exact absent

/-- An operator is written for itself only, before operators are respelled. -/
theorem mapRuns_eq_operator_iff {pair : Text × Text} (mem : pair ∈ operators) (item : Text) :
    mapRuns (spellRun names) item = pair.1 ↔ item = pair.1 := by
  have spelled : ∀ pair ∈ operators, (IsWord pair.1 ∧ respell values pair.1 = pair.1) ∧
      '$' ∉ pair.1 ∧ ∀ value ∈ values, pair.1.length < value.1.length := by decide
  obtain ⟨⟨word, same⟩, plain, shorter⟩ := spelled pair mem
  constructor
  · intro written
    rw [← respell_markVariables] at written
    have lengths := congrArg List.length written
    rw [length_respell_values] at lengths
    -- The values are too long to stand in what is respelled to an operator.
    rw [respell_eq_self] at written
    · rwa [markVariables_eq_self (written ▸ plain)] at written
    · intro value value_mem stands
      have bounded := stands.length_le
      have longer := shorter value value_mem
      omega
  · rintro rfl
    rw [mapRuns_single word, spellRun_of_mem undeclared (List.mem_append_right values mem), same]

theorem lookup_eq_writeWords_iff (item : Text) :
    (operators.lookup (mapRuns (spellRun names) item)).getD (mapRuns (spellRun names) item) =
      writeWords names item ↔ Legible item := by
  by_cases operator : ∃ pair ∈ operators, item = pair.1
  · refine iff_of_true ?_ (.inl operator)
    obtain ⟨pair, mem, rfl⟩ := operator
    have spelled : ∀ pair ∈ operators, IsWord pair.1 ∧
        operators.lookup pair.1 = some pair.2 ∧ keywordWords.lookup pair.1 = some pair.2 := by
      decide
    obtain ⟨word, found, whole⟩ := spelled pair mem
    rw [(mapRuns_eq_operator_iff undeclared mem pair.1).mpr rfl, found, writeWords,
      mapRuns_single word, writeRun, whole]
    rfl
  · have missing : operators.lookup (mapRuns (spellRun names) item) = none := by
      refine List.lookup_eq_none_iff.mpr fun pair mem => ?_
      have differs := mt (mapRuns_eq_operator_iff undeclared mem item).mp fun same =>
        operator ⟨pair, mem, same⟩
      simpa using differs
    rw [missing, Option.getD_none, Legible, or_iff_right operator]
    refine (Text.flatMap_eq_iff (length_writeRun_le names)).trans ?_
    exact forall₂_congr fun run _ => spellRun_eq_writeRun_iff undeclared run

end Undeclared

theorem not_mem_writeWords (absent : ' ' ∉ item) : ' ' ∉ writeWords names item := by
  intro mem
  obtain ⟨run, run_mem, mem⟩ := List.mem_flatMap.mp mem
  have blankless : ' ' ∉ run := fun mem => absent (by
    rw [← List.flatten_splitBy (fun left right => isWordChar left == isWordChar right) item]
    exact List.mem_flatten.mpr ⟨run, run_mem, mem⟩)
  rcases writeRun_cases names run with ⟨pair, pair_mem, _, written⟩ | ⟨_, written⟩
  · have spelled : ∀ pair ∈ keywordWords, ' ' ∉ pair.2 := by decide
    exact spelled pair pair_mem (written ▸ mem)
  · exact not_mem_markRun (by decide) blankless (written ▸ mem)

/-- No item is written as an operator. -/
theorem not_mem_map_writeWords {pair : Text × Text} (mem : pair ∈ operators) (items : List Text) :
    pair.1 ∉ items.map (writeWords names) := by
  intro written
  obtain ⟨item, _, same⟩ := List.mem_map.mp written
  have spelled : ∀ pair ∈ operators, words pair.1 = [pair.1] := by decide
  refine not_mem_words_writeWords names item pair (List.mem_append_right values mem) ?_
  rw [same, spelled pair mem]
  exact List.mem_singleton_self _

/-- Item by item, sigils and keywords are written as they should be exactly if the items are legible
and the operators stand parted. -/
theorem respellAll_eq_iff (undeclared : ∀ pair ∈ keywordWords, pair.1 ∉ names.declared)
    (items : List Text) :
    respellAll operators (items.map (mapRuns (spellRun names))) = items.map (writeWords names) ↔
      (∀ item ∈ items, Legible item) ∧ ∀ pair ∈ operators, Parted pair.1 items := by
  have parted_iff : ∀ pair ∈ operators,
      Parted pair.1 (items.map (mapRuns (spellRun names))) ↔ Parted pair.1 items :=
    fun pair mem => parted_map_iff (mapRuns_eq_operator_iff undeclared mem)
  have legible_iff (parted : ∀ pair ∈ operators, Parted pair.1 items) :
      respellAll operators (items.map (mapRuns (spellRun names))) =
        items.map (writeWords names) ↔ ∀ item ∈ items, Legible item := by
    rw [separate_operators.respellAll_of_parted fun pair mem =>
      (parted_iff pair mem).mpr (parted pair mem), List.map_map, List.map_inj_left]
    exact forall₂_congr fun item _ => lookup_eq_writeWords_iff undeclared item
  constructor
  · intro same
    have parted : ∀ pair ∈ operators, Parted pair.1 items := fun pair mem =>
      (parted_iff pair mem).mp (separate_operators.parted (fun other other_mem =>
        same ▸ not_mem_map_writeWords other_mem items) pair mem)
    exact ⟨(legible_iff parted).mp same, parted⟩
  · rintro ⟨legible, parted⟩
    exact (legible_iff parted).mpr legible

/-- Code is written with its keywords as whole words exactly if its operators are recognised and no
other part of it is taken for a value. -/
theorem expandCode_eq_writeWords_iff
    (undeclared : ∀ pair ∈ keywordWords, pair.1 ∉ names.declared) (text : Text) :
    expandCode names text = writeWords names text ↔
      (∀ item ∈ text.splitOn ' ', Legible item) ∧
        ∀ pair ∈ operators, Parted pair.1 (text.splitOn ' ') := by
  have filled := List.splitOn_ne_nil ' ' text
  have joined : Text.join [' '] (text.splitOn ' ') = text := List.intercalate_splitOn ' '
  have blankless : ∀ item ∈ text.splitOn ' ', ' ' ∉ item := fun _ => Text.not_mem_of_mem_splitOn
  generalize text.splitOn ' ' = items at filled joined blankless
  subst joined
  have mapped {write : Text → Text} : items.map write ≠ [] := mt List.map_eq_nil_iff.mp filled
  have spelled : ∀ item ∈ items.map (mapRuns (spellRun names)), ' ' ∉ item :=
    List.forall_mem_map.mpr fun item mem => not_mem_mapRuns_spellRun (blankless item mem)
  obtain ⟨respelled, plain⟩ := respell_spaced
    (by decide : ∀ pair ∈ operators, ' ' ∉ pair.1 ∧ ' ' ∉ pair.2) spelled
  have written : writeWords names (Text.join [' '] items) = _ :=
    Text.map_join filled (mapRuns_append_cons copies_writeRun (by decide))
  rw [written, expandCode, respellKeywords_eq, respell_markVariables,
    Text.map_join filled (mapRuns_append_cons copies_spellRun (by decide)), respelled,
    Text.join_inj (respellAll_ne_nil mapped) mapped plain, respellAll_eq_iff undeclared]
  exact List.forall_mem_map.mpr fun item mem => not_mem_writeWords (blankless item mem)

theorem countP_writeWords {counted : Char → Bool}
    (same : ∀ pair ∈ keywordWords, pair.2.countP counted = pair.1.countP counted)
    (sigil : counted '$' = false) (text : Text) :
    (writeWords names text).countP counted = text.countP counted := by
  refine countP_mapRuns (fun run => ?_) text
  rcases writeRun_cases names run with ⟨pair, mem, rfl, written⟩ | ⟨_, written⟩
  · rw [written, same pair mem]
  · rw [written, countP_markRun sigil]

/-- Nothing is rewritten in an expression that is written with its keywords as whole words. -/
theorem inert_of_expand_eq (unquoted : ∀ char ∈ text, isQuote char = false)
    (same : expand names text = .ok (writeWords names text)) : Inert text := by
  -- Rewriting takes dots away or adds a letter, and nothing that comes later makes up for it.
  have dots : (writeWords names text).count '.' = text.count '.' :=
    countP_writeWords (by decide) (by decide) text
  have kept : text.count '.' ≤ (rewrite text).count '.' := by
    have plain := same
    rw [expand_of_quoteless unquoted, Except.ok.injEq] at plain
    rw [← dots, ← plain]
    exact count_parts_le names (rewrite text)
  obtain ⟨callless, renamed⟩ := rewrite_of_count_le kept
  rw [expand_of_callless unquoted callless, Except.ok.injEq, renamed] at same
  have gained : (respell builtins text).countP isGained = text.countP isGained := calc
    (respell builtins text).countP isGained
      = (expandCode names (respell builtins text)).countP isGained := (countP_expandCode _).symm
    _ = (writeWords names text).countP isGained := by rw [same]
    _ = text.countP isGained := countP_writeWords (by decide) (by decide) text
  rw [respell_eq_self (gains_builtins.absent gained.le)] at renamed
  exact rewrite_eq_self_iff.mp renamed

end Writing

/-- In an expression without quotes, where no keyword is a variable, every keyword is written as a
whole word and everything else with sigils only exactly if the expression is regular.  What should
be written has no keyword among its words. -/
theorem expand_eq_writeWords_iff (names : Names) {text : Text}
    (unquoted : ∀ char ∈ text, isQuote char = false)
    (undeclared : ∀ pair ∈ keywordWords, pair.1 ∉ names.declared) :
    (∀ pair ∈ keywordWords, pair.1 ∉ words (writeWords names text)) ∧
      (expand names text = .ok (writeWords names text) ↔ Regular text) := by
  refine ⟨not_mem_words_writeWords names text, ?_⟩
  have code (inert : Inert text) : expand names text = .ok (expandCode names text) := by
    rw [expand_of_callless unquoted inert.toCallless, rewrite_eq_self_iff.mpr inert]
  constructor
  · intro same
    have inert := inert_of_expand_eq unquoted same
    rw [code inert, Except.ok.injEq, expandCode_eq_writeWords_iff undeclared] at same
    exact ⟨inert, same.1, same.2⟩
  · intro regular
    rw [code regular.inert, Except.ok.injEq, expandCode_eq_writeWords_iff undeclared]
    exact ⟨regular.legible, regular.parted⟩

/-- All keywords between blanks and parentheses, two operators in a row. -/
def mixedCondition : Text :=
  Text.join [' '] ["a and not".toList, "(b == None)".toList, "or (True != False)".toList]

theorem expand_eq_writeWords_iff_mixed :
    (∀ char ∈ mixedCondition, isQuote char = false) ∧
      (∀ pair ∈ keywordWords, pair.1 ∉ ["a".toList, "b".toList]) ∧
      expand ⟨["a".toList, "b".toList], []⟩ mixedCondition =
        .ok "$a && ! ($b == null) || (true != false)".toList ∧
      Regular mixedCondition := by
  have unquoted : ∀ char ∈ mixedCondition, isQuote char = false := by
    have all : mixedCondition.all (!isQuote ·) = true := by decide
    simpa using all
  have undeclared : ∀ pair ∈ keywordWords, pair.1 ∉ ["a".toList, "b".toList] := by decide
  have expanded : expand ⟨["a".toList, "b".toList], []⟩ mixedCondition =
      .ok "$a && ! ($b == null) || (true != false)".toList := by decide +kernel
  have written : writeWords ⟨["a".toList, "b".toList], []⟩ mixedCondition =
      "$a && ! ($b == null) || (true != false)".toList := by decide +kernel
  refine ⟨unquoted, undeclared, expanded, ?_⟩
  exact (expand_eq_writeWords_iff _ unquoted undeclared).2.mp (by rw [expanded, written])

/-- An operator at the start of an expression stays, and a value inside of a word is respelled. -/
theorem not_regular_leading :
    ¬Regular "not a".toList ∧ expand Names.empty "not a".toList = .ok "not a".toList ∧
      writeWords Names.empty "not a".toList = "! a".toList ∧
      "not".toList ∈ words "not a".toList ∧
      expand Names.empty "isTrue".toList = .ok "istrue".toList ∧
      writeWords Names.empty "isTrue".toList = "isTrue".toList := by
  refine ⟨fun regular => ?_, by decide +kernel, by decide +kernel, by decide +kernel,
    by decide +kernel, by decide +kernel⟩
  exact (regular.parted ("not".toList, "!".toList) (by decide)).starts (by decide +kernel)

end Expr
end Ephp
