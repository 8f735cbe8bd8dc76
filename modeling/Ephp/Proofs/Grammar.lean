import Ephp.Proofs.Reading

/-!
# The grammar of statements

The readers of statements are tried one after another, and several of them would read the same line.
For lines that are written by the rules of a small grammar the choice is the intended one: a name is
no keyword, and the words of a phrase have neither the marks nor the small words that separate the
parts of a statement.  Reading such a line gives back the statement it was written from.
-/

namespace Ephp
namespace Grammar

open Text (isBlank isIdentStart isIdentRest isInline isAlpha_iff isAlphanum_iff)

/-- Whether a character can stand in a word of a phrase. -/
def isMark (char : Char) : Bool :=
  char.isAlphanum || "_+*/<>.,!&-".toList.contains char

/-- Whether a character can stand in no phrase. -/
def isForeign (char : Char) : Bool :=
  !isMark char && char != ' '

/-- The words that separate the parts of a statement. -/
def reserved : List Text :=
  ["if".toList, "else".toList, "as".toList, "in".toList, "match".toList, "fn".toList,
    "input".toList, "range".toList]

/-- The words that cannot be names. -/
def keywords : List Text :=
  ["import".toList, "func".toList, "with".toList, "match".toList, "case".toList,
    "default".toList, "do".toList, "while".toList, "return".toList, "break".toList,
    "continue".toList, "pass".toList, "print".toList, "if".toList, "elif".toList, "else".toList,
    "for".toList, "switch".toList, "fn".toList, "input".toList]

/-- Whether a text is an identifier in lower case. -/
def isName : Text → Bool
  | [] => false
  | first :: rest =>
    first.isLower && rest.all fun char => char.isLower || char.isDigit || char == '_'

/-- Whether a text is an identifier in upper case. -/
def isConstantName : Text → Bool
  | [] => false
  | first :: rest =>
    (first.isUpper || first == '_') &&
      rest.all fun char => char.isUpper || char.isDigit || char == '_'

/-- A word of a phrase. -/
structure Word where
  text : Text
  filled : text ≠ []
  spelled : text.all isMark = true
  free : text ∉ reserved

/-- One or more words. -/
structure Phrase where
  first : Word
  others : List Word

/-- The name of a variable, a function or a type. -/
structure Name where
  text : Text
  spelled : isName text = true
  free : text ∉ keywords

/-- The name of a constant. -/
structure ConstantName where
  text : Text
  spelled : isConstantName text = true

namespace Phrase

/-- The texts of the words of a phrase. -/
def words (phrase : Phrase) : List Text :=
  (phrase.first :: phrase.others).map Word.text

/-- The words of a phrase with single blanks between them. -/
def text (phrase : Phrase) : Text :=
  Text.join [' '] phrase.words

end Phrase

/-- A statement by its parts. -/
inductive Sentence where
  | require (path : Phrase)
  | function (name : Name) (parameters : Phrase) (result : Name)
  | arrow (target : Name) (parameters body : Phrase)
  | closure (target : Name) (parameters : Phrase)
  | resource (acquired : Phrase) (handle : Name)
  | matchAssign (target subject : Name)
  | matchReturn (subject : Name)
  | arm (values result : Phrase)
  | defaultArm (result : Phrase)
  | input (target : Name) (prompt : Phrase)
  | choice (target : Name) (accepted condition rejected : Phrase)
  | doLoop
  /-- The header of a loop with its condition in front. -/
  | whileLoop (condition : Phrase)
  /-- The condition at the end of a do loop. -/
  | doEnd (condition : Phrase)
  | constant (name : ConstantName) (value : Phrase)
  | assign (target : Name) (value : Phrase)
  | returnValue (value : Phrase)
  | print (content : Phrase)
  | when (condition : Phrase)
  | elseWhen (condition : Phrase)
  | otherwise
  | countLoop (counter : Name) (bounds : Phrase)
  | eachLoop (element : Name) (collection : Phrase)
  | switch (subject : Phrase)
  | label (value : Phrase)
  | defaultLabel
  | call (callee : Name) (arguments : Phrase)

namespace Sentence

/-- The line of a statement. -/
def render : Sentence → Text
  | require path => "import \"".toList ++ path.text ++ ['"']
  | function name parameters result =>
    "func ".toList ++ name.text ++ ['('] ++ parameters.text ++ ") ".toList ++ result.text ++ [':']
  | arrow target parameters body =>
    target.text ++ " = fn (".toList ++ parameters.text ++ "): ".toList ++ body.text
  | closure target parameters =>
    target.text ++ " = fn (".toList ++ parameters.text ++ [')'] ++ [':']
  | resource acquired handle =>
    "with ".toList ++ acquired.text ++ " as ".toList ++ handle.text ++ [':']
  | matchAssign target subject => target.text ++ " = match ".toList ++ subject.text ++ [':']
  | matchReturn subject => "return match ".toList ++ subject.text ++ [':']
  | arm values result => "case ".toList ++ values.text ++ ": ".toList ++ result.text
  | defaultArm result => "default: ".toList ++ result.text
  | input target prompt => target.text ++ " = input(".toList ++ prompt.text ++ [')']
  | choice target accepted condition rejected =>
    target.text ++ " = ".toList ++ accepted.text ++ " if ".toList ++ condition.text ++
      " else ".toList ++ rejected.text
  | doLoop => "do:".toList
  | whileLoop condition => "while ".toList ++ condition.text ++ [':']
  | doEnd condition => "while ".toList ++ condition.text
  | constant name value => name.text ++ " = ".toList ++ value.text
  | assign target value => target.text ++ " = ".toList ++ value.text
  | returnValue value => "return ".toList ++ value.text
  | print content => "print(".toList ++ content.text ++ [')']
  | when condition => "if ".toList ++ condition.text ++ [':']
  | elseWhen condition => "elif ".toList ++ condition.text ++ [':']
  | otherwise => "else:".toList
  | countLoop counter bounds =>
    "for ".toList ++ counter.text ++ " in range(".toList ++ bounds.text ++ "):".toList
  | eachLoop element collection =>
    "for ".toList ++ element.text ++ " in ".toList ++ collection.text ++ [':']
  | switch subject => "switch ".toList ++ subject.text ++ [':']
  | label value => "case ".toList ++ value.text ++ [':']
  | defaultLabel => "default:".toList
  | call callee arguments => callee.text ++ ['('] ++ arguments.text ++ [')']

/-- The marks in the line of a statement. -/
def marks : Sentence → List Char
  | require _ => ['"']
  | function _ _ _ => ['(', ')', ':']
  | arrow _ _ _ => ['=', '(', ')', ':']
  | closure _ _ => ['=', '(', ')', ':']
  | resource _ _ => [':']
  | matchAssign _ _ => ['=', ':']
  | matchReturn _ => [':']
  | arm _ _ => [':']
  | defaultArm _ => [':']
  | input _ _ => ['=', '(', ')']
  | choice _ _ _ _ => ['=']
  | doLoop => [':']
  | whileLoop _ => [':']
  | doEnd _ => []
  | constant _ _ => ['=']
  | assign _ _ => ['=']
  | returnValue _ => []
  | print _ => ['(', ')']
  | when _ => [':']
  | elseWhen _ => [':']
  | otherwise => [':']
  | countLoop _ _ => ['(', ')', ':']
  | eachLoop _ _ => [':']
  | switch _ => [':']
  | label _ => [':']
  | defaultLabel => [':']
  | call _ _ => ['(', ')']

/-- The statement that a sentence means. -/
def statement : Sentence → Statement
  | require path => .require path.text
  | function name parameters result => .function name.text parameters.text result.text
  | arrow target parameters body => .arrow target.text parameters.text body.text
  | closure target parameters => .closure target.text parameters.text
  | resource acquired handle => .resource acquired.text handle.text
  | matchAssign target subject => .matchAssign target.text subject.text
  | matchReturn subject => .matchReturn subject.text
  | arm values result => .arm values.text result.text
  | defaultArm result => .defaultArm result.text
  | input target prompt => .input target.text prompt.text
  | choice target accepted condition rejected =>
    .choice target.text accepted.text condition.text rejected.text
  | doLoop => .doLoop
  | whileLoop condition => .whileLoop condition.text
  | doEnd condition => .whileLoop condition.text
  | constant name value => .constant name.text value.text
  | assign target value => .assign target.text value.text
  | returnValue value => .returnValue value.text
  | print content => .print content.text
  | when condition => .when condition.text
  | elseWhen condition => .elseWhen condition.text
  | otherwise => .otherwise
  | countLoop counter bounds => .countLoop counter.text bounds.text
  | eachLoop element collection => .eachLoop element.text collection.text
  | switch subject => .switch subject.text
  | label value => .label value.text
  | defaultLabel => .defaultLabel
  | call callee arguments => .call callee.text arguments.text

example : (eachLoop ⟨"row".toList, by decide, by decide⟩
    ⟨⟨"all".toList, by decide, by decide, by decide⟩,
      [⟨"rows".toList, by decide, by decide, by decide⟩]⟩).render =
        "for row in all rows:".toList := by
  decide

end Sentence

/-! ## Characters -/

theorem toNat_of_isMark {char : Char} (mark : isMark char = true) :
    0x20 < char.toNat ∧ char.toNat < 0x7F := by
  rcases (Bool.or_eq_true _ _).mp mark with letter | listed
  · have range := @Text.toNat_of_isIdentRest char (by simp [isIdentRest, letter])
    omega
  · have all : "_+*/<>.,!&-".toList.all (fun char => 0x20 < char.toNat && char.toNat < 0x7F) =
        true := by decide
    simpa using List.all_eq_true.mp all char (List.contains_iff_mem.mp listed)

theorem isBlank_of_isMark {char : Char} (mark : isMark char = true) : isBlank char = false := by
  have range := toNat_of_isMark mark
  simp only [isBlank, Bool.or_eq_false_iff, Bool.and_eq_false_iff, decide_eq_false_iff_not,
    beq_eq_false_iff_ne]
  omega

theorem isMark_of_isIdentRest {char : Char} (letter : isIdentRest char = true) :
    isMark char = true := by
  rcases (Bool.or_eq_true _ _).mp letter with letter | underscore
  · simp [isMark, letter]
  · obtain rfl : char = '_' := by simpa using underscore
    decide

theorem isWordChar_of_isIdentRest {char : Char} (letter : isIdentRest char = true) :
    Text.isWordChar char = true := by
  have range := Text.toNat_of_isIdentRest letter
  rw [Text.isWordChar, if_pos (by omega)]
  exact letter

/-! ## Marks -/

/-- A text of characters that can stand in phrases, and of some marks. -/
def Made (marks : List Char) (text : Text) : Prop :=
  ∀ char ∈ text, isForeign char = true → char ∈ marks

namespace Made

variable {marks : List Char} {text : Text}

theorem literal (checked : text.all (fun char => !isForeign char || marks.contains char) = true) :
    Made marks text := by
  intro char mem foreign
  simpa [foreign] using List.all_eq_true.mp checked char mem

theorem append {more : Text} (front : Made marks text) (back : Made marks more) :
    Made marks (text ++ more) :=
  List.forall_mem_append.mpr ⟨front, back⟩

/-- A text does not have the marks that it is not made of. -/
theorem lacks (made : Made marks text) (absent : List Char)
    (checked : absent.all (fun char => isForeign char && !marks.contains char) = true) :
    ∀ mark ∈ absent, mark ∉ text := by
  intro mark absent_mem mem
  have other := List.all_eq_true.mp checked mark absent_mem
  rw [Bool.and_eq_true] at other
  simp [made mark mem other.1] at other

end Made

/-! ## Names -/

/-- A text of identifier characters that is not empty. -/
structure IsIdentifier (text : Text) : Prop where
  start : Span.identifier.Spells text
  letters : ∀ char ∈ text, isIdentRest char = true

namespace IsIdentifier

variable {text : Text}

theorem of_spells (start : Span.identifier.Spells text) : IsIdentifier text := by
  refine ⟨start, ?_⟩
  obtain ⟨first, rest, rfl, started, all⟩ := start
  refine List.forall_mem_cons.mpr ⟨?_, all⟩
  simp only [isIdentStart, Bool.or_eq_true] at started
  simp only [isIdentRest, Bool.or_eq_true, isAlphanum_iff]
  grind

theorem word (identifier : IsIdentifier text) : Span.word.Spells text := by
  obtain ⟨first, rest, rfl, _, _⟩ := identifier.start
  have all := fun char mem => isWordChar_of_isIdentRest (identifier.letters char mem)
  exact ⟨first, rest, rfl, all first (by simp), fun char mem => all char (by simp [mem])⟩

theorem wordOrNothing (identifier : IsIdentifier text) : Span.wordOrNothing.Spells text :=
  fun char mem => isWordChar_of_isIdentRest (identifier.letters char mem)

theorem stops (identifier : IsIdentifier text) {rest : Text} : (text ++ rest).Stops isBlank := by
  obtain ⟨first, others, rfl, _, _⟩ := identifier.start
  exact isBlank_of_isMark (isMark_of_isIdentRest (identifier.letters first (by simp)))

theorem made (identifier : IsIdentifier text) (marks : List Char) : Made marks text := by
  intro char mem foreign
  simp [isForeign, isMark_of_isIdentRest (identifier.letters char mem)] at foreign

end IsIdentifier

theorem Name.identifier (name : Name) : IsIdentifier name.text := by
  obtain ⟨text, spelled, _⟩ := name
  cases text with
  | nil => simp [isName] at spelled
  | cons first rest =>
      simp only [isName, Bool.and_eq_true, List.all_eq_true, Bool.or_eq_true] at spelled
      refine .of_spells ⟨first, rest, rfl, ?_, fun char mem => ?_⟩
      · simp [isIdentStart, isAlpha_iff, spelled.1]
      · have := spelled.2 char mem
        simp only [isIdentRest, Bool.or_eq_true, isAlphanum_iff, isAlpha_iff]
        grind

theorem ConstantName.spells (name : ConstantName) : Span.constantName.Spells name.text := by
  obtain ⟨text, spelled⟩ := name
  cases text with
  | nil => simp [isConstantName] at spelled
  | cons first rest =>
      simp only [isConstantName, Bool.and_eq_true, List.all_eq_true] at spelled
      exact ⟨first, rest, rfl, spelled.1, spelled.2⟩

theorem ConstantName.identifier (name : ConstantName) : IsIdentifier name.text := by
  obtain ⟨first, rest, same, started, all⟩ := name.spells
  refine .of_spells ⟨first, rest, same, ?_, fun char mem => ?_⟩
  · simp only [Bool.or_eq_true] at started
    simp only [isIdentStart, Bool.or_eq_true, isAlpha_iff]
    grind
  · have := all char mem
    simp only [Bool.or_eq_true] at this
    simp only [isIdentRest, Bool.or_eq_true, isAlphanum_iff, isAlpha_iff]
    grind

/-- No keyword is in upper case. -/
theorem ConstantName.free (name : ConstantName) : name.text ∉ keywords := by
  intro mem
  have lower : keywords.all (fun keyword => !isConstantName keyword) = true := by decide
  have := List.all_eq_true.mp lower name.text mem
  simp [name.spelled] at this

/-! ## Phrases -/

/-- A blank between words is followed by one of them, which goes to the next blank. -/
theorem exists_word_of_join {words : List Text} {front rest : Text} (filled : words ≠ [])
    (unbroken : ∀ word ∈ words, ' ' ∉ word) (split : Text.join [' '] words = front ++ ' ' :: rest) :
    ∃ word ∈ words, ∃ more, rest = word ++ more ∧ more.Stops (!isBlank ·) := by
  have cut : words = front.splitOn ' ' ++ rest.splitOn ' ' := by
    rw [← List.splitOn_append_cons_self, ← split, Text.join,
      List.splitOn_intercalate _ unbroken filled]
  have joined : Text.join [' '] (rest.splitOn ' ') = rest := List.intercalate_splitOn ' '
  cases parts : rest.splitOn ' ' with
  | nil => exact absurd parts (List.splitOn_ne_nil _ _)
  | cons word others =>
      rw [parts] at joined
      refine ⟨word, by simp [cut, parts], ?_⟩
      cases others with
      | nil => exact ⟨[], by simpa using joined.symm, trivial⟩
      | cons next others =>
          refine ⟨' ' :: Text.join [' '] (next :: others), ?_, rfl⟩
          rw [← joined, Text.join_cons_cons, List.append_assoc]
          rfl

/-- A keyword between blanks, the first of which stands between words, is one of the words. -/
theorem mem_of_join {words : List Text} {front rest keyword tail : Text} {blank : Char}
    (filled : words ≠ []) (solid : ∀ word ∈ words, ∀ char ∈ word, isBlank char = false)
    (split : Text.join [' '] words = front ++ ' ' :: rest)
    (keyword_solid : keyword.all (!isBlank ·) = true) (is_blank : isBlank blank = true)
    {more : Text} (stops : more.Stops (!isBlank ·))
    (found : rest ++ more = keyword ++ blank :: tail) : keyword ∈ words := by
  have unbroken : ∀ word ∈ words, ' ' ∉ word := fun word mem blank_mem =>
    absurd (solid word mem ' ' blank_mem) (by decide)
  obtain ⟨word, mem, between, rfl, between_stops⟩ := exists_word_of_join filled unbroken split
  have followed : (between ++ more).Stops (!isBlank ·) := by
    cases between with
    | nil => exact stops
    | cons _ _ => exact between_stops
  have ended : Text.Stops (!isBlank ·) (blank :: tail) := by simpa [Text.Stops] using is_blank
  have first := Text.takeWhile_append_of_stops (by simpa using solid word mem) followed
  have second := Text.takeWhile_append_of_stops (List.all_eq_true.mp keyword_solid) ended
  rw [← List.append_assoc, found, second] at first
  rwa [first]

theorem mem_join {separator : Text} {texts : List Text} {char : Char}
    (mem : char ∈ Text.join separator texts) : char ∈ separator ∨ ∃ text ∈ texts, char ∈ text := by
  induction texts with
  | nil => simp at mem
  | cons first texts ih =>
      cases texts with
      | nil => exact .inr ⟨first, by simp, by simpa using mem⟩
      | cons second texts =>
          rw [Text.join_cons_cons, List.mem_append, List.mem_append] at mem
          rcases mem with (mem | mem) | mem
          · exact .inr ⟨first, by simp, mem⟩
          · exact .inl mem
          · exact (ih mem).imp_right fun ⟨text, text_mem, char_mem⟩ =>
              ⟨text, List.mem_cons_of_mem _ text_mem, char_mem⟩

namespace Phrase

variable (phrase : Phrase)

theorem exists_word {text : Text} (mem : text ∈ phrase.words) :
    ∃ word : Word, word.text = text := by
  obtain ⟨word, _, same⟩ := List.mem_map.mp mem
  exact ⟨word, same⟩

theorem solid : ∀ word ∈ phrase.words, ∀ char ∈ word, isBlank char = false := by
  intro text mem char char_mem
  obtain ⟨word, rfl⟩ := phrase.exists_word mem
  exact isBlank_of_isMark (List.all_eq_true.mp word.spelled char char_mem)

theorem mem_text {char : Char} (mem : char ∈ phrase.text) : char = ' ' ∨ isMark char = true := by
  rcases mem_join mem with blank | ⟨text, text_mem, char_mem⟩
  · exact .inl (by simpa using blank)
  · obtain ⟨word, rfl⟩ := phrase.exists_word text_mem
    exact .inr (List.all_eq_true.mp word.spelled char char_mem)

theorem made (marks : List Char) : Made marks phrase.text := by
  intro char mem foreign
  rcases phrase.mem_text mem with rfl | mark
  · simp [isForeign] at foreign
  · simp [isForeign, mark] at foreign

theorem not_mem {char : Char} (foreign : isForeign char = true) : char ∉ phrase.text := by
  intro mem
  cases phrase.made [] char mem foreign

theorem eq_of_isBlank {char : Char} (mem : char ∈ phrase.text) (blank : isBlank char = true) :
    char = ' ' :=
  (phrase.mem_text mem).resolve_right fun mark => by simp [isBlank_of_isMark mark] at blank

theorem exists_first : ∃ first rest, phrase.text = first :: rest ∧ isMark first = true := by
  obtain ⟨first, others⟩ := phrase
  obtain ⟨head, tail, split⟩ := List.exists_cons_of_ne_nil first.filled
  have mark : isMark head = true :=
    List.all_eq_true.mp first.spelled head (by simp [split])
  cases others with
  | nil => exact ⟨head, tail, by simp [text, words, split], mark⟩
  | cons second others =>
      refine ⟨head, tail ++ [' '] ++ Text.join [' '] ((second :: others).map Word.text), ?_, mark⟩
      simp [text, words, split]

theorem stops {rest : Text} : (phrase.text ++ rest).Stops isBlank := by
  obtain ⟨first, others, split, mark⟩ := phrase.exists_first
  rw [split]
  exact isBlank_of_isMark mark

theorem stops_text : Text.Stops isBlank phrase.text := by
  simpa using @stops phrase []

theorem spells_free (reach : Reach) : (Span.free reach isInline).Spells phrase.text := by
  intro char mem
  simp only [isInline, bne_iff_ne]
  rintro rfl
  exact phrase.not_mem rfl mem

theorem spells_headed (reach : Reach) :
    (Span.headed reach isInline isInline).Spells phrase.text := by
  obtain ⟨first, rest, split, _⟩ := phrase.exists_first
  have all : ∀ char ∈ phrase.text, isInline char = true := phrase.spells_free reach
  rw [split] at all ⊢
  exact ⟨first, rest, rfl, all first (by simp), fun char mem => all char (by simp [mem])⟩

theorem not_mem_words {keyword : Text} (separates : keyword ∈ reserved) :
    keyword ∉ phrase.words := by
  intro mem
  obtain ⟨word, rfl⟩ := phrase.exists_word mem
  exact word.free separates

/-- A phrase is read up to a reserved word, since it has no such word itself. -/
theorem reads_upTo {α : Type} {next : Pattern α} {kept : α} {keyword rest : Text}
    (separates : keyword ∈ reserved) (solid : keyword.all (!isBlank ·) = true)
    (tail : (Pattern.skip .gap <| .fixed keyword <| .skip .gap next).Reads (' ' :: rest) kept) :
    (Pattern.keep .least <| .skip .gap <| .fixed keyword <| .skip .gap next).Reads
      (phrase.text ++ ' ' :: rest) (phrase.text, kept) := by
  refine .of_cut? (Span.cut?_of_shortest rfl (phrase.spells_headed _) tail ?_)
  rintro back ⟨before, whole⟩ filled
  refine Option.eq_none_iff_forall_ne_some.mpr fun result matched => ?_
  obtain ⟨front, left, right, more, blanks, is_left, is_right, split⟩ :=
    Pattern.exists_of_match?_gaps matched
  obtain ⟨first, others, rfl⟩ := List.exists_cons_of_ne_nil filled
  have is_blank : isBlank first = true := by
    cases front with
    | nil => rwa [(List.cons.inj split).1]
    | cons char front =>
        rw [(List.cons.inj split).1]
        exact blanks char (by simp)
  obtain rfl : first = ' ' := phrase.eq_of_isBlank (by simp [← whole]) is_blank
  have unbroken : ∀ word ∈ phrase.words, ' ' ∉ word := fun word mem blank =>
    absurd (phrase.solid word mem ' ' blank) (by decide)
  have nonempty : phrase.words ≠ [] := by simp [words]
  obtain ⟨word, mem, between, rfl, _⟩ := exists_word_of_join nonempty unbroken whole.symm
  cases front with
  | nil =>
      have found := (List.cons.inj split).2
      exact phrase.not_mem_words separates
        (mem_of_join nonempty phrase.solid whole.symm solid is_right (by rfl) found)
  | cons char front =>
      -- A second blank would stand in front of a word.
      have found := (List.cons.inj split).2
      obtain ⟨source, rfl⟩ := phrase.exists_word mem
      obtain ⟨head, rest, head_eq⟩ := List.exists_cons_of_ne_nil source.filled
      have head_solid := phrase.solid _ mem head (by simp [head_eq])
      cases front with
      | nil => simp_all
      | cons next front => simp_all

end Phrase

/-! ## Lines that are no other statement -/

/-- An assignment of a phrase is no choice between two values. -/
theorem choiceForm_of_assignment {target : Text} (identifier : IsIdentifier target)
    (free : target ∉ keywords) (value : Phrase) :
    Statement.choiceForm (target ++ " = ".toList ++ value.text) = none := by
  refine Statement.form_eq_none fun result matched => ?_
  obtain ⟨rest, answer, ⟨before, split⟩, found⟩ :=
    Statement.leads_assignment (.keep (.refl _)) _ _ matched
  obtain ⟨front, left, right, more, _, is_left, is_right, rfl⟩ :=
    Pattern.exists_of_match?_gaps found
  have solid : ∀ word ∈ target :: ['='] :: value.words, ∀ char ∈ word, isBlank char = false :=
    List.forall_mem_cons.mpr ⟨fun char mem =>
      isBlank_of_isMark (isMark_of_isIdentRest (identifier.letters char mem)),
      List.forall_mem_cons.mpr ⟨List.forall_mem_singleton.mpr rfl, value.solid⟩⟩
  have joined : Text.join [' '] (target :: ['='] :: value.words) =
      (before ++ front) ++ left :: ("if".toList ++ right :: more) := by
    rw [List.append_assoc, split]
    simp [Phrase.text, Phrase.words]
  obtain rfl : left = ' ' := by
    have mem : left ∈ Text.join [' '] (target :: ['='] :: value.words) := by
      rw [joined]
      exact List.mem_append_right _ List.mem_cons_self
    rcases mem_join mem with blank | ⟨word, word_mem, char_mem⟩
    · exact List.mem_singleton.mp blank
    · simp [solid word word_mem left char_mem] at is_left
  have mem : "if".toList ∈ target :: ['='] :: value.words :=
    @mem_of_join _ _ _ _ _ _ (by simp) solid joined (by decide) is_right [] trivial
      (List.append_nil _)
  rcases List.mem_cons.mp mem with same | mem
  · rw [← same] at free
    exact free (by decide)
  · rcases List.mem_cons.mp mem with same | mem
    · exact absurd same (by decide)
    · exact value.not_mem_words (by decide) mem

theorem eq_nil_of_append_singleton {front before rest : Text} {mark : Char} (absent : mark ∉ front)
    (split : front ++ [mark] = before ++ mark :: rest) : rest = [] := by
  rcases List.eq_nil_or_concat rest with empty | ⟨others, last, rfl⟩
  · exact empty
  · rw [List.concat_eq_append, ← List.cons_append, ← List.append_assoc] at split
    have same := (List.append_inj' split rfl).1
    exact absurd (by simp [same]) absent

/-- What stands behind a final colon is no expression. -/
theorem form_of_final_colon {α : Type} {pattern : Pattern α} {build : α → Statement} {front : Text}
    (absent : ':' ∉ front)
    (leads : pattern.Leads (.fixed [':'] <| .skip .blanks <| .keep .most .ending)) :
    Statement.form pattern build (front ++ [':']) = none := by
  refine Statement.form_eq_none fun result matched => ?_
  obtain ⟨rest, answer, ⟨before, split⟩, found⟩ := leads _ _ matched
  obtain ⟨rest, rfl, tail⟩ := Pattern.match?_fixed_eq_some.mp found
  obtain rfl := eq_nil_of_append_singleton absent split.symm
  cases tail

theorem arrowForm_of_closure (target : Name) (parameters : Phrase) :
    Statement.arrowForm (Sentence.closure target parameters).render = none := by
  have made : Made ['=', '(', ')'] (target.text ++ " = fn (".toList ++ parameters.text ++ [')']) :=
    (((target.identifier.made _).append (.literal rfl)).append (parameters.made _)).append
      (.literal rfl)
  refine form_of_final_colon (made.lacks [':'] rfl ':' (List.mem_singleton_self _)) ?_
  exact Statement.leads_assignment (.fixed (.skip (.fixed (.keep (.fixed (.skip (.refl _)))))))

theorem armForm_of_label (value : Phrase) :
    Statement.armForm (Sentence.label value).render = none := by
  have made : Made [] ("case ".toList ++ value.text) := .append (.literal rfl) (value.made _)
  refine form_of_final_colon (made.lacks [':'] rfl ':' (List.mem_singleton_self _)) ?_
  exact .fixed (.skip (.keep (.refl _)))

/-! ## The readers that remain -/

open Statement

/-- The words that statements start with. -/
inductive Keyword where
  | importWord | funcWord | withWord | returnWord | caseWord | defaultWord | doWord | whileWord
  | breakWord | continueWord | passWord | printWord | ifWord | elifWord | elseWord | forWord
  | switchWord
deriving DecidableEq

namespace Keyword

/-- The spelling of a keyword. -/
def text : Keyword → Text
  | importWord => "import".toList
  | funcWord => "func".toList
  | withWord => "with".toList
  | returnWord => "return".toList
  | caseWord => "case".toList
  | defaultWord => "default".toList
  | doWord => "do".toList
  | whileWord => "while".toList
  | breakWord => "break".toList
  | continueWord => "continue".toList
  | passWord => "pass".toList
  | printWord => "print".toList
  | ifWord => "if".toList
  | elifWord => "elif".toList
  | elseWord => "else".toList
  | forWord => "for".toList
  | switchWord => "switch".toList

/-- Every keyword. -/
def all : List Keyword :=
  [importWord, funcWord, withWord, returnWord, caseWord, defaultWord, doWord, whileWord, breakWord,
    continueWord, passWord, printWord, ifWord, elifWord, elseWord, forWord, switchWord]

theorem mem_all (keyword : Keyword) : keyword ∈ all := by
  cases keyword <;> decide

theorem letters (keyword : Keyword) : keyword.text.all isIdentRest = true := by
  have checked : all.all (fun keyword => keyword.text.all isIdentRest) = true := by decide +kernel
  exact List.all_eq_true.mp checked keyword keyword.mem_all

theorem mem_keywords (keyword : Keyword) : keyword.text ∈ keywords := by
  have checked : all.all (fun keyword => keywords.contains keyword.text) = true := by
    decide +kernel
  exact List.contains_iff_mem.mp (List.all_eq_true.mp checked keyword keyword.mem_all)

theorem text_injective {first second : Keyword} (same : first.text = second.text) :
    first = second := by
  have checked : all.all (fun first => all.all fun second =>
      first.text != second.text || first == second) = true := by decide +kernel
  have either := List.all_eq_true.mp (List.all_eq_true.mp checked first first.mem_all) second
    second.mem_all
  simpa [same] using either

theorem takeWhile_append (keyword : Keyword) {rest : Text} (stops : rest.Stops isIdentRest) :
    (keyword.text ++ rest).takeWhile isIdentRest = keyword.text :=
  Text.takeWhile_append_of_stops (List.all_eq_true.mp keyword.letters) stops

theorem made (keyword : Keyword) (marks : List Char) : Made marks keyword.text := by
  intro char mem foreign
  have letter := List.all_eq_true.mp keyword.letters char mem
  simp [isForeign, isMark_of_isIdentRest letter] at foreign

variable {α : Type} {next : Pattern α}

theorem opens_gap (keyword : Keyword) :
    (Pattern.fixed keyword.text <| .skip .gap next).Opens keyword.text :=
  Pattern.opens_gap keyword.letters

theorem opens_ending (keyword : Keyword) :
    (Pattern.fixed keyword.text .ending).Opens keyword.text :=
  Pattern.opens_ending keyword.letters

theorem opens_mark (keyword : Keyword) (mark : Char) (word : Text)
    (stops : isIdentRest mark = false) :
    (Pattern.fixed (keyword.text ++ mark :: word) next).Opens keyword.text :=
  Pattern.opens_mark keyword.letters stops

end Keyword

/-- A reader of statements with what its lines have: the word in front, if it is a keyword, and
some of the marks. -/
structure Reader where
  keyword : Option Keyword
  marks : List Char
  read : Text → Option Statement
  opens : ∀ word ∈ keyword, ∀ line, line.takeWhile isIdentRest ≠ word.text → read line = none
  needs : ∀ mark ∈ marks, ∀ line, mark ∉ line → read line = none

namespace Reader

variable {α : Type} {pattern : Pattern α} {build : α → Statement}

/-- A reader of lines that start with a keyword. -/
def keyed (keyword : Keyword) (marks : List Char) (read : Text → Option Statement)
    (same : read = form pattern build) (opens : pattern.Opens keyword.text)
    (needed : marks.all pattern.marks.contains = true) : Reader where
  keyword := some keyword
  marks := marks
  read := read
  opens := by
    rintro _ ⟨⟩ line other
    rw [same]
    exact form_of_opens other opens
  needs := by
    intro mark mem line absent
    have used := List.contains_iff_mem.mp (List.all_eq_true.mp needed mark mem)
    rw [same]
    exact form_of_not_mem absent used

/-- A reader of lines that start with a name. -/
def named (marks : List Char) (read : Text → Option Statement) (same : read = form pattern build)
    (needed : marks.all pattern.marks.contains = true) : Reader where
  keyword := none
  marks := marks
  read := read
  opens := by simp
  needs := by
    intro mark mem line absent
    have used := List.contains_iff_mem.mp (List.all_eq_true.mp needed mark mem)
    rw [same]
    exact form_of_not_mem absent used

end Reader

open Keyword Reader

/-- The readers of statements in the order in which they are tried. -/
def readers : List Reader :=
  [keyed importWord [] requireForm rfl (opens_gap importWord) rfl,
    keyed funcWord ['('] functionForm rfl (opens_gap funcWord) rfl,
    named ['=', '(', ':'] arrowForm rfl rfl,
    named ['=', '(', ':'] closureForm rfl rfl,
    keyed withWord [] resourceForm rfl (opens_gap withWord) rfl,
    named ['=', ':'] matchAssignForm rfl rfl,
    keyed returnWord [':'] matchReturnForm rfl (opens_gap returnWord) rfl,
    keyed caseWord [':'] armForm rfl (opens_gap caseWord) rfl,
    keyed defaultWord [] defaultArmForm rfl (opens_mark defaultWord ':' [] rfl) rfl,
    named ['=', '('] inputForm rfl rfl,
    named ['='] choiceForm rfl rfl,
    keyed doWord [] (fixedForm "do:".toList .doLoop) rfl (opens_mark doWord ':' [] rfl) rfl,
    keyed whileWord [':'] (headerForm "while".toList .whileLoop) rfl (opens_gap whileWord) rfl,
    keyed whileWord [] (clauseForm "while".toList .whileLoop) rfl (opens_gap whileWord) rfl,
    named ['='] constantForm rfl rfl,
    named ['='] assignForm rfl rfl,
    keyed returnWord [] (clauseForm "return".toList .returnValue) rfl (opens_gap returnWord) rfl,
    keyed breakWord [] (fixedForm "break".toList .leave) rfl (opens_ending breakWord) rfl,
    keyed continueWord [] (fixedForm "continue".toList .proceed) rfl
      (opens_ending continueWord) rfl,
    keyed passWord [] (fixedForm "pass".toList .pass) rfl (opens_ending passWord) rfl,
    keyed printWord [] printForm rfl (opens_mark printWord '(' [] rfl) rfl,
    keyed ifWord [] (headerForm "if".toList .when) rfl (opens_gap ifWord) rfl,
    keyed elifWord [] (headerForm "elif".toList .elseWhen) rfl (opens_gap elifWord) rfl,
    keyed elseWord [] (fixedForm "else:".toList .otherwise) rfl
      (opens_mark elseWord ':' [] rfl) rfl,
    keyed forWord ['('] countLoopForm rfl (opens_gap forWord) rfl,
    keyed forWord [] eachLoopForm rfl (opens_gap forWord) rfl,
    keyed switchWord [] (headerForm "switch".toList .switch) rfl (opens_gap switchWord) rfl,
    keyed caseWord [] (headerForm "case".toList .label) rfl (opens_gap caseWord) rfl,
    keyed defaultWord [] (fixedForm "default:".toList .defaultLabel) rfl
      (opens_mark defaultWord ':' [] rfl) rfl,
    named ['('] callForm rfl rfl]

theorem readers_read : readers.map Reader.read = forms := rfl

/-- The readers that remain for a line that starts with `start`, a keyword or not, and has none of
the marks `absent`. -/
def candidates (start : Option Keyword) (absent : List Char) : List Reader :=
  readers.filter fun reader =>
    (reader.keyword.isNone || reader.keyword == start) && reader.marks.all (!absent.contains ·)

theorem findSome?_filter {α β : Type} {keep : α → Bool} {result : α → Option β} {items : List α}
    (dropped : ∀ item ∈ items, keep item = false → result item = none) :
    (items.filter keep).findSome? result = items.findSome? result := by
  induction items with
  | nil => rfl
  | cons first items ih =>
      have rest := ih fun item mem => dropped item (List.mem_cons_of_mem _ mem)
      cases kept : keep first with
      | true => rw [List.filter_cons_of_pos kept, List.findSome?_cons, List.findSome?_cons, rest]
      | false =>
          rw [List.filter_cons_of_neg (by simp [kept]), rest, List.findSome?_cons,
            dropped first List.mem_cons_self kept]

/-- A line that starts with no keyword but `start`. -/
def Starts (start : Option Keyword) (line : Text) : Prop :=
  ∀ keyword, start ≠ some keyword → line.takeWhile isIdentRest ≠ keyword.text

theorem Starts.keyword {line : Text} {keyword : Keyword}
    (same : line.takeWhile isIdentRest = keyword.text) : Starts (some keyword) line :=
  fun _ differs other => differs (congrArg some (Keyword.text_injective (same.symm.trans other)))

theorem Starts.name {name rest : Text} (identifier : IsIdentifier name) (free : name ∉ keywords)
    (stops : rest.Stops isIdentRest) : Starts none (name ++ rest) := by
  intro keyword _ same
  rw [Text.takeWhile_append_of_stops identifier.letters stops] at same
  exact free (same ▸ keyword.mem_keywords)

theorem read?_eq_candidates {line : Text} {start : Option Keyword} {absent : List Char}
    (starts : Starts start line) (foreign : ∀ mark ∈ absent, mark ∉ line) :
    read? line = ((candidates start absent).map Reader.read).findSome? fun read => read line := by
  rw [read?, ← readers_read, List.findSome?_map, List.findSome?_map, candidates]
  refine (findSome?_filter fun reader _ dropped => ?_).symm
  rw [Bool.and_eq_false_iff] at dropped
  rcases dropped with other | missing
  · cases key : reader.keyword with
    | none => simp [key] at other
    | some keyword =>
        refine reader.opens keyword key line (starts keyword fun same => ?_)
        simp [key, same] at other
  · obtain ⟨mark, needed, mem⟩ := List.all_eq_false.mp missing
    exact reader.needs mark needed line (foreign mark (by simpa using mem))

theorem read?_of_first (start : Option Keyword) {line : Text} {absent : List Char}
    {first : Text → Option Statement} {others : List (Text → Option Statement)}
    {statement : Statement} (starts : Starts start line) (foreign : ∀ mark ∈ absent, mark ∉ line)
    (here : first line = some statement)
    (remain : (candidates start absent).map Reader.read = first :: others) :
    read? line = some statement := by
  rw [read?_eq_candidates starts foreign, remain, List.findSome?_cons, here]

theorem read?_of_second (start : Option Keyword) {line : Text} {absent : List Char}
    {first second : Text → Option Statement} {others : List (Text → Option Statement)}
    {statement : Statement} (starts : Starts start line) (foreign : ∀ mark ∈ absent, mark ∉ line)
    (none : first line = none) (here : second line = some statement)
    (remain : (candidates start absent).map Reader.read = first :: second :: others) :
    read? line = some statement := by
  rw [read?_eq_candidates starts foreign, remain, List.findSome?_cons, none, List.findSome?_cons,
    here]

/-! ## Reading sentences -/

theorem headerForm_of_phrase (keyword : Text) (build : Text → Statement) (phrase : Phrase) :
    headerForm keyword build (keyword ++ ' ' :: (phrase.text ++ [':'])) =
      some (build phrase.text) :=
  form_of_reads (phrase.text, ())
    (.fixed rfl (.gap phrase.stops (.toWord [':'] rfl (phrase.spells_headed _))))

theorem clauseForm_of_phrase (keyword : Text) (build : Text → Statement) (phrase : Phrase) :
    clauseForm keyword build (keyword ++ ' ' :: phrase.text) = some (build phrase.text) :=
  form_of_reads (phrase.text, ())
    (.fixed rfl (.gap phrase.stops_text (.toEnd rfl (phrase.spells_headed _))))

/-- A header is read by the first of the readers that remain for its keyword. -/
theorem read?_of_header (keyword : Keyword) (build : Text → Statement) (phrase : Phrase)
    {others : List (Text → Option Statement)}
    (remain : (candidates (some keyword) ['=']).map Reader.read =
      headerForm keyword.text build :: others) :
    read? (keyword.text ++ ' ' :: (phrase.text ++ [':'])) = some (build phrase.text) := by
  have starts : Starts (some keyword) (keyword.text ++ ' ' :: (phrase.text ++ [':'])) :=
    .keyword (keyword.takeWhile_append rfl)
  have made : Made [':'] (keyword.text ++ ([' '] ++ (phrase.text ++ [':']))) :=
    (keyword.made _).append (.append (.literal rfl) ((phrase.made _).append (.literal rfl)))
  exact read?_of_first (some keyword) starts (made.lacks ['='] rfl)
    (headerForm_of_phrase _ _ phrase) remain

/-- A clause is read by the first of the readers that remain for its keyword. -/
theorem read?_of_clause (keyword : Keyword) (build : Text → Statement) (phrase : Phrase)
    {others : List (Text → Option Statement)}
    (remain : (candidates (some keyword) ['=', ':']).map Reader.read =
      clauseForm keyword.text build :: others) :
    read? (keyword.text ++ ' ' :: phrase.text) = some (build phrase.text) := by
  have starts : Starts (some keyword) (keyword.text ++ ' ' :: phrase.text) :=
    .keyword (keyword.takeWhile_append rfl)
  have made : Made [] (keyword.text ++ ([' '] ++ phrase.text)) :=
    (keyword.made _).append (.append (.literal rfl) (phrase.made _))
  exact read?_of_first (some keyword) starts (made.lacks ['=', ':'] rfl)
    (clauseForm_of_phrase _ _ phrase) remain

theorem reads_assignment {α : Type} {span : Span} {value : Pattern α} {kept : α}
    {target rest : Text} (longest : span.reach = .longest) (spelled : span.Spells target)
    (ends : span.admits ' ' = false) (stops : rest.Stops isBlank) (tail : value.Reads rest kept) :
    (assignment span value).Reads (target ++ (" = ".toList ++ rest)) (target, kept) :=
  .keep longest spelled ends (.blank rfl (.fixed rfl (.blank stops tail)))

theorem reads_storedFunction {α : Type} {body : Pattern α} {kept : α} {rest : Text} (target : Name)
    (parameters : Phrase) (tail : body.Reads rest kept) :
    (storedFunction body).Reads
      (target.text ++ (" = fn (".toList ++ (parameters.text ++ ("):".toList ++ rest))))
      (target.text, parameters.text, kept) := by
  refine reads_assignment rfl target.identifier.word rfl rfl (.fixed rfl (.blank rfl ?_))
  refine .fixed rfl (.upTo rfl (parameters.spells_headed _) ?_ ?_)
  · exact parameters.not_mem rfl
  · exact .fixed rfl (.noBlank rfl (.fixed rfl tail))

theorem reads_matchSubject (subject : Name) :
    matchSubject.Reads ("match ".toList ++ (subject.text ++ [':'])) (subject.text, ()) := by
  refine .fixed rfl (.gap subject.identifier.stops (.keep rfl subject.identifier.word rfl ?_))
  exact .noBlank rfl (.fixed rfl rfl)

theorem reads_loopOver {α : Type} {range : Pattern α} {kept : α} {rest : Text} (element : Name)
    (stops : rest.Stops isBlank) (tail : range.Reads rest kept) :
    (loopOver range).Reads ("for ".toList ++ (element.text ++ (" in ".toList ++ rest)))
      (element.text, kept) := by
  refine .fixed rfl (.gap element.identifier.stops (.keep rfl element.identifier.word rfl ?_))
  exact .gap rfl (.fixed rfl (.gap stops tail))

/-- A name in lower case is no name of a constant. -/
theorem Name.constantForm_append (name : Name) (rest : Text) :
    constantForm (name.text ++ rest) = none := by
  obtain ⟨text, spelled, _⟩ := name
  cases text with
  | nil => simp [isName] at spelled
  | cons first others =>
      have lower : first.isLower = true := by
        simp only [isName, Bool.and_eq_true] at spelled
        exact spelled.1
      have upper : (first.isUpper || first == '_') = false := by
        refine Bool.or_eq_false_iff.mpr ⟨?_, ?_⟩
        · rw [← Bool.not_eq_true, Text.isUpper_iff]
          rw [Text.isLower_iff] at lower
          omega
        · refine beq_eq_false_iff_ne.mpr fun same => ?_
          rw [same] at lower
          exact absurd lower (by decide)
      refine form_eq_none fun result matched => ?_
      simp only [assignment, Pattern.match?, Span.constantName, Span.cut?, List.cons_append,
        upper] at matched
      simp at matched

/-- The readers that remain for an assignment of a value without parentheses and colons. -/
theorem read?_of_value {name value : Text} (identifier : IsIdentifier name)
    (free : name ∉ keywords) (made : Made ['='] value) :
    read? (name ++ (" = ".toList ++ value)) =
      [choiceForm, constantForm, assignForm].findSome? fun read =>
        read (name ++ (" = ".toList ++ value)) := by
  have made : Made ['='] (name ++ (" = ".toList ++ value)) :=
    (identifier.made _).append (.append (.literal rfl) made)
  have remain : (candidates none ['(', ':']).map Reader.read =
      [choiceForm, constantForm, assignForm] := rfl
  rw [← remain]
  exact read?_eq_candidates (.name identifier free rfl) (made.lacks ['(', ':'] rfl)

namespace Sentence

theorem made_render (sentence : Sentence) : Made sentence.marks sentence.render := by
  cases sentence with
  | require path => exact .append (.append (.literal rfl) (path.made _)) (.literal rfl)
  | function name parameters result =>
      exact .append (.append (.append (.append (.append (.append (.literal rfl)
        (name.identifier.made _)) (.literal rfl)) (parameters.made _)) (.literal rfl))
          (result.identifier.made _)) (.literal rfl)
  | arrow target parameters body =>
      exact .append (.append (.append (.append (target.identifier.made _) (.literal rfl))
        (parameters.made _)) (.literal rfl)) (body.made _)
  | closure target parameters =>
      exact .append (.append (.append (.append (target.identifier.made _) (.literal rfl))
        (parameters.made _)) (.literal rfl)) (.literal rfl)
  | resource acquired handle =>
      exact .append (.append (.append (.append (.literal rfl) (acquired.made _)) (.literal rfl))
        (handle.identifier.made _)) (.literal rfl)
  | matchAssign target subject =>
      exact .append (.append (.append (target.identifier.made _) (.literal rfl))
        (subject.identifier.made _)) (.literal rfl)
  | matchReturn subject =>
      exact .append (.append (.literal rfl) (subject.identifier.made _)) (.literal rfl)
  | arm values result =>
      exact .append (.append (.append (.literal rfl) (values.made _)) (.literal rfl))
        (result.made _)
  | defaultArm result => exact .append (.literal rfl) (result.made _)
  | input target prompt =>
      exact .append (.append (.append (target.identifier.made _) (.literal rfl)) (prompt.made _))
        (.literal rfl)
  | choice target accepted condition rejected =>
      exact .append (.append (.append (.append (.append (.append (target.identifier.made _)
        (.literal rfl)) (accepted.made _)) (.literal rfl)) (condition.made _)) (.literal rfl))
          (rejected.made _)
  | doLoop => exact .literal rfl
  | whileLoop condition => exact .append (.append (.literal rfl) (condition.made _)) (.literal rfl)
  | doEnd condition => exact .append (.literal rfl) (condition.made _)
  | constant name value =>
      exact .append (.append (name.identifier.made _) (.literal rfl)) (value.made _)
  | assign target value =>
      exact .append (.append (target.identifier.made _) (.literal rfl)) (value.made _)
  | returnValue value => exact .append (.literal rfl) (value.made _)
  | print content => exact .append (.append (.literal rfl) (content.made _)) (.literal rfl)
  | when condition => exact .append (.append (.literal rfl) (condition.made _)) (.literal rfl)
  | elseWhen condition => exact .append (.append (.literal rfl) (condition.made _)) (.literal rfl)
  | otherwise => exact .literal rfl
  | countLoop counter bounds =>
      exact .append (.append (.append (.append (.literal rfl) (counter.identifier.made _))
        (.literal rfl)) (bounds.made _)) (.literal rfl)
  | eachLoop element collection =>
      exact .append (.append (.append (.append (.literal rfl) (element.identifier.made _))
        (.literal rfl)) (collection.made _)) (.literal rfl)
  | switch subject => exact .append (.append (.literal rfl) (subject.made _)) (.literal rfl)
  | label value => exact .append (.append (.literal rfl) (value.made _)) (.literal rfl)
  | defaultLabel => exact .literal rfl
  | call callee arguments =>
      exact .append (.append (.append (callee.identifier.made _) (.literal rfl))
        (arguments.made _)) (.literal rfl)

theorem read?_require (path : Phrase) :
    read? (require path).render = some (require path).statement := by
  have here : requireForm (require path).render = some (.require path.text) :=
    form_of_reads (path.text, ())
      (.fixed rfl (.gap rfl (.fixed rfl (.toWord ['"'] rfl (path.spells_headed _)))))
  exact read?_of_first (some importWord) (.keyword rfl)
    ((require path).made_render.lacks ['='] rfl) here rfl

theorem read?_function (name : Name) (parameters : Phrase) (result : Name) :
    read? (function name parameters result).render =
      some (function name parameters result).statement := by
  have here : functionForm (function name parameters result).render =
      some (.function name.text parameters.text result.text) := by
    unfold render
    simp only [List.append_assoc]
    refine form_of_reads (name.text, parameters.text, result.text, ()) ?_
    refine .fixed rfl (.gap name.identifier.stops ?_)
    refine .keep rfl name.identifier.word rfl (.noBlank rfl (.fixed rfl ?_))
    refine .upTo rfl (parameters.spells_headed _) ?_ (.fixed rfl ?_)
    · exact parameters.not_mem rfl
    · refine .blank result.identifier.stops (.keep rfl result.identifier.wordOrNothing rfl ?_)
      exact .noBlank rfl (.fixed rfl .ending)
  exact read?_of_first (some funcWord) (.keyword rfl)
    ((function name parameters result).made_render.lacks ['='] rfl) here rfl

theorem read?_arrow (target : Name) (parameters body : Phrase) :
    read? (arrow target parameters body).render =
      some (arrow target parameters body).statement := by
  unfold render
  simp only [List.append_assoc]
  have here : arrowForm (target.text ++
      (" = fn (".toList ++ (parameters.text ++ ("): ".toList ++ body.text)))) =
        some (.arrow target.text parameters.text body.text) := by
    refine form_of_reads (target.text, parameters.text, body.text, ()) ?_
    refine reads_storedFunction target parameters (.blank body.stops_text ?_)
    exact .toEnd rfl (body.spells_headed _)
  exact read?_of_first none (.name target.identifier target.free rfl) (List.forall_mem_nil _)
    here rfl

theorem read?_closure (target : Name) (parameters : Phrase) :
    read? (closure target parameters).render = some (closure target parameters).statement := by
  have arrow := arrowForm_of_closure target parameters
  unfold render at arrow ⊢
  simp only [List.append_assoc] at arrow ⊢
  have here : closureForm (target.text ++
      (" = fn (".toList ++ (parameters.text ++ ([')'] ++ [':'])))) =
        some (.closure target.text parameters.text) :=
    form_of_reads (target.text, parameters.text, ())
      (reads_storedFunction target parameters .ending)
  exact read?_of_second none (.name target.identifier target.free rfl) (List.forall_mem_nil _)
    arrow here rfl

theorem read?_resource (acquired : Phrase) (handle : Name) :
    read? (resource acquired handle).render = some (resource acquired handle).statement := by
  have here : resourceForm (resource acquired handle).render =
      some (.resource acquired.text handle.text) := by
    unfold render
    simp only [List.append_assoc]
    refine form_of_reads (acquired.text, handle.text, ()) (.fixed rfl (.gap acquired.stops ?_))
    refine acquired.reads_upTo (by decide) (by decide) (.gap rfl (.fixed rfl ?_))
    refine .gap handle.identifier.stops (.keep rfl handle.identifier.word rfl ?_)
    exact .noBlank rfl (.fixed rfl .ending)
  exact read?_of_first (some withWord) (.keyword rfl)
    ((resource acquired handle).made_render.lacks ['='] rfl) here rfl

theorem read?_matchAssign (target subject : Name) :
    read? (matchAssign target subject).render = some (matchAssign target subject).statement := by
  have made := (matchAssign target subject).made_render
  unfold render at made ⊢
  simp only [List.append_assoc] at made ⊢
  have here : matchAssignForm (target.text ++ (" = match ".toList ++ (subject.text ++ [':']))) =
      some (.matchAssign target.text subject.text) :=
    form_of_reads (target.text, subject.text, ())
      (reads_assignment rfl target.identifier.word rfl rfl (reads_matchSubject subject))
  exact read?_of_first none (.name target.identifier target.free rfl)
    (made.lacks ['('] rfl) here rfl

theorem read?_matchReturn (subject : Name) :
    read? (matchReturn subject).render = some (matchReturn subject).statement := by
  have here : matchReturnForm (matchReturn subject).render = some (.matchReturn subject.text) :=
    form_of_reads (subject.text, ()) (.fixed rfl (.gap rfl (reads_matchSubject subject)))
  exact read?_of_first (some returnWord) (.keyword rfl)
    ((matchReturn subject).made_render.lacks ['='] rfl) here rfl

theorem read?_arm (values result : Phrase) :
    read? (arm values result).render = some (arm values result).statement := by
  have here : armForm (arm values result).render = some (.arm values.text result.text) := by
    unfold render
    simp only [List.append_assoc]
    refine form_of_reads (values.text, result.text, ()) (.fixed rfl (.gap values.stops ?_))
    refine .upTo rfl (values.spells_headed _) (values.not_mem rfl) ?_
    exact .fixed rfl (.blank result.stops_text (.toEnd rfl (result.spells_headed _)))
  exact read?_of_first (some caseWord) (.keyword rfl)
    ((arm values result).made_render.lacks ['='] rfl) here rfl

theorem read?_defaultArm (result : Phrase) :
    read? (defaultArm result).render = some (defaultArm result).statement := by
  have here : defaultArmForm (defaultArm result).render = some (.defaultArm result.text) :=
    form_of_reads (result.text, ())
      (.fixed rfl (.blank result.stops_text (.toEnd rfl (result.spells_headed _))))
  exact read?_of_first (some defaultWord) (.keyword rfl)
    ((defaultArm result).made_render.lacks ['='] rfl) here rfl

theorem read?_input (target : Name) (prompt : Phrase) :
    read? (input target prompt).render = some (input target prompt).statement := by
  have made := (input target prompt).made_render
  unfold render at made ⊢
  simp only [List.append_assoc] at made ⊢
  have here : inputForm (target.text ++ (" = input(".toList ++ (prompt.text ++ [')']))) =
      some (.input target.text prompt.text) :=
    form_of_reads (target.text, prompt.text, ())
      (reads_assignment rfl target.identifier.start rfl rfl
        (.fixed rfl (.noBlank rfl (.fixed rfl (.toWord [')'] rfl (prompt.spells_free _))))))
  exact read?_of_first none (.name target.identifier target.free rfl)
    (made.lacks [':'] rfl) here rfl

theorem read?_choice (target : Name) (accepted condition rejected : Phrase) :
    read? (choice target accepted condition rejected).render =
      some (choice target accepted condition rejected).statement := by
  unfold render
  simp only [List.append_assoc]
  have here : choiceForm (target.text ++ (" = ".toList ++ (accepted.text ++ (" if ".toList ++
      (condition.text ++ (" else ".toList ++ rejected.text)))))) =
        some (.choice target.text accepted.text condition.text rejected.text) := by
    refine form_of_reads (target.text, accepted.text, condition.text, rejected.text, ()) ?_
    refine reads_assignment rfl target.identifier.start rfl accepted.stops ?_
    refine accepted.reads_upTo (by decide) (by decide) (.gap rfl (.fixed rfl ?_))
    refine .gap condition.stops (condition.reads_upTo (by decide) (by decide) ?_)
    exact .gap rfl (.fixed rfl (.gap rejected.stops_text (.toEnd rfl (rejected.spells_headed _))))
  have made : Made ['='] (accepted.text ++ (" if ".toList ++ (condition.text ++
      (" else ".toList ++ rejected.text)))) :=
    (accepted.made _).append (.append (.literal rfl) ((condition.made _).append
      (.append (.literal rfl) (rejected.made _))))
  rw [read?_of_value target.identifier target.free made, List.findSome?_cons, here]
  rfl

theorem read?_doLoop : read? doLoop.render = some doLoop.statement := by
  have here : fixedForm "do:".toList .doLoop doLoop.render = some .doLoop := by decide
  exact read?_of_first (some doWord) (.keyword rfl) (doLoop.made_render.lacks ['='] rfl) here rfl

theorem read?_whileLoop (condition : Phrase) :
    read? (whileLoop condition).render = some (whileLoop condition).statement :=
  read?_of_header whileWord .whileLoop condition rfl

theorem read?_doEnd (condition : Phrase) :
    read? (doEnd condition).render = some (doEnd condition).statement :=
  read?_of_clause whileWord .whileLoop condition rfl

theorem read?_constant (name : ConstantName) (value : Phrase) :
    read? (constant name value).render = some (constant name value).statement := by
  have choice := choiceForm_of_assignment name.identifier name.free value
  unfold render
  simp only [List.append_assoc] at choice ⊢
  have here : constantForm (name.text ++ (" = ".toList ++ value.text)) =
      some (.constant name.text value.text) :=
    form_of_reads (name.text, value.text, ())
      (reads_assignment rfl name.spells rfl value.stops_text (.toEnd rfl (value.spells_headed _)))
  rw [read?_of_value name.identifier name.free (value.made _), List.findSome?_cons, choice,
    List.findSome?_cons, here]
  rfl

theorem read?_assign (target : Name) (value : Phrase) :
    read? (assign target value).render = some (assign target value).statement := by
  have choice := choiceForm_of_assignment target.identifier target.free value
  unfold render
  simp only [List.append_assoc] at choice ⊢
  have constant : constantForm (target.text ++ (" = ".toList ++ value.text)) = none :=
    target.constantForm_append _
  have here : assignForm (target.text ++ (" = ".toList ++ value.text)) =
      some (.assign target.text value.text) :=
    form_of_reads (target.text, value.text, ())
      (reads_assignment rfl target.identifier.start rfl value.stops_text
        (.toEnd rfl (value.spells_headed _)))
  rw [read?_of_value target.identifier target.free (value.made _), List.findSome?_cons, choice,
    List.findSome?_cons, constant, List.findSome?_cons, here]
  rfl

theorem read?_returnValue (value : Phrase) :
    read? (returnValue value).render = some (returnValue value).statement :=
  read?_of_clause returnWord .returnValue value rfl

theorem read?_print (content : Phrase) :
    read? (print content).render = some (print content).statement := by
  have here : printForm (print content).render = some (.print content.text) := by
    unfold render
    simp only [List.append_assoc]
    exact form_of_reads (content.text, ())
      (.fixed rfl (.toWord [')'] rfl (content.spells_headed _)))
  exact read?_of_first (some printWord) (.keyword rfl)
    ((print content).made_render.lacks ['='] rfl) here rfl

theorem read?_when (condition : Phrase) :
    read? (when condition).render = some (when condition).statement :=
  read?_of_header ifWord .when condition rfl

theorem read?_elseWhen (condition : Phrase) :
    read? (elseWhen condition).render = some (elseWhen condition).statement :=
  read?_of_header elifWord .elseWhen condition rfl

theorem read?_otherwise : read? otherwise.render = some otherwise.statement := by
  have here : fixedForm "else:".toList .otherwise otherwise.render = some .otherwise := by decide
  exact read?_of_first (some elseWord) (.keyword rfl) (otherwise.made_render.lacks ['='] rfl)
    here rfl

theorem read?_countLoop (counter : Name) (bounds : Phrase) :
    read? (countLoop counter bounds).render = some (countLoop counter bounds).statement := by
  have here : countLoopForm (countLoop counter bounds).render =
      some (.countLoop counter.text bounds.text) := by
    unfold render
    simp only [List.append_assoc]
    refine form_of_reads (counter.text, bounds.text, ()) (reads_loopOver counter rfl ?_)
    refine .fixed rfl (.upTo rfl (bounds.spells_free _) ?_ (.fixed rfl .ending))
    exact bounds.not_mem rfl
  exact read?_of_first (some forWord) (.keyword rfl)
    ((countLoop counter bounds).made_render.lacks ['='] rfl) here rfl

theorem read?_eachLoop (element : Name) (collection : Phrase) :
    read? (eachLoop element collection).render = some (eachLoop element collection).statement := by
  have here : eachLoopForm (eachLoop element collection).render =
      some (.eachLoop element.text collection.text) := by
    unfold render
    simp only [List.append_assoc]
    refine form_of_reads (element.text, collection.text, ())
      (reads_loopOver element collection.stops ?_)
    exact .toWord [':'] rfl (collection.spells_headed _)
  exact read?_of_first (some forWord) (.keyword rfl)
    ((eachLoop element collection).made_render.lacks ['=', '('] rfl) here rfl

theorem read?_switch (subject : Phrase) :
    read? (switch subject).render = some (switch subject).statement :=
  read?_of_header switchWord .switch subject rfl

theorem read?_label (value : Phrase) :
    read? (label value).render = some (label value).statement := by
  have here : headerForm "case".toList .label (label value).render = some (.label value.text) :=
    headerForm_of_phrase _ _ value
  exact read?_of_second (some caseWord) (.keyword rfl) ((label value).made_render.lacks ['='] rfl)
    (armForm_of_label value) here rfl

theorem read?_defaultLabel : read? defaultLabel.render = some defaultLabel.statement := by
  have bare : defaultArmForm defaultLabel.render = none := by decide
  have here : fixedForm "default:".toList .defaultLabel defaultLabel.render =
      some .defaultLabel := by decide
  exact read?_of_second (some defaultWord) (.keyword rfl)
    (defaultLabel.made_render.lacks ['='] rfl) bare here rfl

theorem read?_call (callee : Name) (arguments : Phrase) :
    read? (call callee arguments).render = some (call callee arguments).statement := by
  have made := (call callee arguments).made_render
  unfold render at made ⊢
  simp only [List.append_assoc] at made ⊢
  have here : callForm (callee.text ++ (['('] ++ (arguments.text ++ [')']))) =
      some (.call callee.text arguments.text) :=
    form_of_reads (callee.text, arguments.text, ())
      (.keep rfl callee.identifier.word rfl
        (.fixed rfl (.toWord [')'] rfl (arguments.spells_free _))))
  exact read?_of_first none (.name callee.identifier callee.free rfl)
    (made.lacks ['='] rfl) here rfl

/-- Reading the line of a sentence gives the statement that it means. -/
theorem read_render (sentence : Sentence) :
    read? sentence.render = some sentence.statement := by
  cases sentence with
  | require path => exact read?_require path
  | function name parameters result => exact read?_function name parameters result
  | arrow target parameters body => exact read?_arrow target parameters body
  | closure target parameters => exact read?_closure target parameters
  | resource acquired handle => exact read?_resource acquired handle
  | matchAssign target subject => exact read?_matchAssign target subject
  | matchReturn subject => exact read?_matchReturn subject
  | arm values result => exact read?_arm values result
  | defaultArm result => exact read?_defaultArm result
  | input target prompt => exact read?_input target prompt
  | choice target accepted condition rejected =>
      exact read?_choice target accepted condition rejected
  | doLoop => exact read?_doLoop
  | whileLoop condition => exact read?_whileLoop condition
  | doEnd condition => exact read?_doEnd condition
  | constant name value => exact read?_constant name value
  | assign target value => exact read?_assign target value
  | returnValue value => exact read?_returnValue value
  | print content => exact read?_print content
  | when condition => exact read?_when condition
  | elseWhen condition => exact read?_elseWhen condition
  | otherwise => exact read?_otherwise
  | countLoop counter bounds => exact read?_countLoop counter bounds
  | eachLoop element collection => exact read?_eachLoop element collection
  | switch subject => exact read?_switch subject
  | label value => exact read?_label value
  | defaultLabel => exact read?_defaultLabel
  | call callee arguments => exact read?_call callee arguments

end Sentence

end Grammar
end Ephp
