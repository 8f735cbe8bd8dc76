import Ephp.Pattern.Replace

/-!
# Calls

Method calls on a word become calls of functions, and three built-in functions have other names
in the output.
-/

namespace Ephp
namespace Expr

/-- A call of the method `method` on a word with at least one character of arguments. -/
def methodCall (method : Text) : Pattern (Text × Text × Unit) :=
  .keep .word <| .fixed ('.' :: method) <| .skip .blanks <| .fixed ['('] <|
    .keep (.headed .longest (· != ')') (· != ')')) <| .fixed [')'] .stop

/-- A call of the method `method` on a word without arguments. -/
def bareMethodCall (method : Text) : Pattern (Text × Unit) :=
  .keep .word <| .fixed ('.' :: method) <| .skip .blanks <| .fixed ['(', ')'] .stop

/-- Splitting a text is a call with the separator first. -/
def convertSplit (text : Text) : Text :=
  (methodCall "split".toList).replace
    (fun (subject, arguments, _) =>
      "explode(".toList ++ arguments ++ ", ".toList ++ subject ++ [')'])
    text

/-- Stripping a text is a call. -/
def convertStrip (text : Text) : Text :=
  (bareMethodCall "strip".toList).replace
    (fun (subject, _) => "trim(".toList ++ subject ++ [')']) text

/-- Appending to a list is an assignment to its next element. -/
def convertAppend (text : Text) : Text :=
  (methodCall "append".toList).replace
    (fun (subject, arguments, _) => subject ++ "[] = ".toList ++ arguments) text

/-- The built-in functions whose names differ, each up to its opening parenthesis. -/
def builtins : List (Text × Text) :=
  [("len(".toList, "count(".toList), ("open(".toList, "fopen(".toList),
    ("int(".toList, "intval(".toList)]

/-- Replace every first word of the list by its second, one pair after the other. -/
def respell (spellings : List (Text × Text)) (text : Text) : Text :=
  spellings.foldl (fun text (old, new) => Text.replace old new text) text

/-- Convert the calls of an expression. -/
def convertCalls (text : Text) : Text :=
  respell builtins (convertAppend (convertStrip (convertSplit text)))

/-- Respelling with words that have no `mark` adds no `mark`. -/
theorem count_respell_le {mark : Char} {spellings : List (Text × Text)}
    (free : ∀ pair ∈ spellings, pair.2.count mark = 0) (text : Text) :
    (respell spellings text).count mark ≤ text.count mark := by
  induction spellings generalizing text with
  | nil => exact Nat.le_refl _
  | cons pair spellings ih =>
    have first := Text.count_replace_le pair.1 (free pair (by simp)) text
    exact Nat.le_trans (ih (fun other mem => free other (by simp [mem])) _) first

/-- Converting the calls of an expression adds plain characters only. -/
theorem count_convertCalls_le {mark : Char} (special : Text.isPlain mark = false) (text : Text) :
    (convertCalls text).count mark ≤ text.count mark := by
  have written {word : Text} (plain : word.all Text.isPlain = true) : word.count mark = 0 :=
    Text.count_eq_zero_of_plain plain special
  have closing : [')'].count mark = 0 := written (by decide)
  have split_le : (convertSplit text).count mark ≤ text.count mark :=
    Pattern.count_replace_le mark _ _ (by
      rintro ⟨subject, arguments, _⟩
      have opening : "explode(".toList.count mark = 0 := written (by decide)
      have comma : ", ".toList.count mark = 0 := written (by decide)
      simp only [List.count_append, methodCall, Pattern.fields, List.flatten_cons,
        List.flatten_nil, List.count_nil]
      omega) text
  have strip_le (text : Text) : (convertStrip text).count mark ≤ text.count mark :=
    Pattern.count_replace_le mark _ _ (by
      rintro ⟨subject, _⟩
      have opening : "trim(".toList.count mark = 0 := written (by decide)
      simp only [List.count_append, bareMethodCall, Pattern.fields, List.flatten_cons,
        List.flatten_nil, List.count_nil]
      omega) text
  have append_le (text : Text) : (convertAppend text).count mark ≤ text.count mark :=
    Pattern.count_replace_le mark _ _ (by
      rintro ⟨subject, arguments, _⟩
      have target : "[] = ".toList.count mark = 0 := written (by decide)
      simp only [List.count_append, methodCall, Pattern.fields, List.flatten_cons,
        List.flatten_nil, List.count_nil]
      omega) text
  have respell_le (text : Text) : (respell builtins text).count mark ≤ text.count mark := by
    refine count_respell_le (fun pair mem => written ?_) text
    revert pair
    decide
  exact Nat.le_trans (respell_le _)
    (Nat.le_trans (append_le _) (Nat.le_trans (strip_le _) split_le))

end Expr
end Ephp
