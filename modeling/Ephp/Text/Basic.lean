/-!
# Texts

A text is a list of characters, so that every operation on it is a recursion on the list.  This
file has the operations that need nothing but the characters themselves: removing characters at
the ends, removing a leading word, and indenting.
-/

namespace Ephp

/-- A text, as the list of its characters. -/
abbrev Text := List Char

namespace Text

/-- Remove the characters satisfying `drops` from the end of a text. -/
def trimEnd (drops : Char → Bool) (text : Text) : Text :=
  (text.reverse.dropWhile drops).reverse

/-- Remove the characters satisfying `drops` from both ends of a text. -/
def trim (drops : Char → Bool) (text : Text) : Text :=
  trimEnd drops (text.dropWhile drops)

/-- What follows `word` at the start of a text, if the text starts with it. -/
def after? : Text → Text → Option Text
  | [], text => some text
  | _ :: _, [] => none
  | head :: word, first :: rest => if head = first then after? word rest else none

/-- Whether a text ends with `word`. -/
def endsWith (text word : Text) : Bool :=
  word.isSuffixOf text

/-- The blanks that indent a line by `indent` columns; a negative indent has none. -/
def indentation (indent : Int) : Text :=
  List.replicate indent.toNat ' '

/-- The number of bytes of a text in its encoding. -/
def byteSize (text : Text) : Nat :=
  text.foldr (fun char size => char.utf8Size + size) 0

/-- Write texts one after another with `separator` between neighbours. -/
def join (separator : Text) (texts : List Text) : Text :=
  separator.intercalate texts

@[simp]
theorem join_nil (separator : Text) : join separator [] = [] := rfl

@[simp]
theorem join_singleton (separator text : Text) : join separator [text] = text := by
  simp [join]

@[simp]
theorem join_cons_cons (separator first second : Text) (texts : List Text) :
    join separator (first :: second :: texts) =
      first ++ separator ++ join separator (second :: texts) := by
  simp [join]

/-- Whether a character is printable ASCII and no brace. -/
def isPlain (char : Char) : Bool :=
  ' ' ≤ char && char ≤ '~' && char != '{' && char != '}'

/-- A plain word has no character that is not plain. -/
theorem count_eq_zero_of_plain {word : Text} {mark : Char} (plain : word.all isPlain = true)
    (special : isPlain mark = false) : word.count mark = 0 := by
  refine List.count_eq_zero.mpr fun mem => ?_
  have := List.all_eq_true.mp plain mark mem
  simp [special] at this

/-- A text is found after a word exactly when the word stands in front of it. -/
theorem after?_eq_some_iff {word text rest : Text} :
    after? word text = some rest ↔ text = word ++ rest := by
  induction word generalizing text with
  | nil => simp [after?]
  | cons head word ih =>
    cases text with
    | nil => simp [after?]
    | cons first tail =>
      by_cases same : head = first
      · simp [after?, same, ih]
      · simp [after?, same, Ne.symm same]

/-- Trimming the end leaves a part of the text. -/
theorem trimEnd_sublist (drops : Char → Bool) (text : Text) :
    List.Sublist (trimEnd drops text) text := by
  have reversed : List.Sublist (text.reverse.dropWhile drops) text.reverse :=
    List.dropWhile_sublist drops
  simpa [trimEnd] using reversed.reverse

/-- Trimming leaves a part of the text. -/
theorem trim_sublist (drops : Char → Bool) (text : Text) :
    List.Sublist (trim drops text) text :=
  (trimEnd_sublist drops _).trans (List.dropWhile_sublist drops)

end Text
end Ephp
