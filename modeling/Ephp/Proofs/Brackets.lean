import Ephp.Proofs.Fixtures

/-!
# Brackets around a text

A bracket is no part of a word, of a keyword or of a call up to its opening parenthesis, and a call
is over with its closing parenthesis.  So a bracket in front of a text or behind it does not change
how the text is expanded: the result stands between the brackets that the text stands between.
-/

namespace Ephp

/-! ## Readers and what stands behind a text -/

/-- A reader that answers what it has read and what is left, and that leaves a `mark` behind the
text where it is. -/
def Blind {α : Type} (mark : Char) (read : Text → Option (α × Text)) : Prop :=
  ∀ text, read (text ++ [mark]) = (read text).map (Prod.map id (· ++ [mark]))

namespace Blind

variable {α : Type} {mark : Char} {read : Text → Option (α × Text)}

/-- A reader that reads nothing from nothing reads nothing from the mark alone. -/
theorem eq_none (blind : Blind mark read) (nothing : read [] = none) : read [mark] = none := by
  have alone := blind []
  rwa [nothing] at alone

end Blind

namespace Text

variable {mark : Char}

theorem after?_concat {word : Text} (absent : mark ∉ word) (text : Text) :
    after? word (text ++ [mark]) = (after? word text).map (· ++ [mark]) := by
  induction word generalizing text with
  | nil => rfl
  | cons head word ih =>
      obtain ⟨other, absent⟩ := not_or.mp (mt List.mem_cons.mpr absent)
      cases text with
      | nil => simp [after?, Ne.symm other]
      | cons first rest =>
          rw [List.cons_append, after?, after?]
          split
          · exact ih absent rest
          · rfl

/-- A substitution by a blind rule copies the mark behind a text. -/
theorem substitute_concat {rule : Text → Option (Text × Text)} (consumes : Consumes rule)
    (blind : Blind mark rule) (text : Text) :
    substitute rule (text ++ [mark]) = substitute rule text ++ [mark] := by
  have nothing : rule [] = none := by
    cases found : rule [] with
    | none => rfl
    | some answer =>
        obtain ⟨front, filled, split⟩ := consumes _ _ _ found
        exact absurd (List.append_eq_nil_iff.mp split.symm).1 filled
  induction text using substitute_induct consumes with
  | nil => exact substitute_of_eq_none (blind.eq_none nothing)
  | applied front written behind found same ih =>
      have later : rule (front ++ (behind ++ [mark])) = some (written, behind ++ [mark]) := by
        rw [← List.append_assoc, blind, found]
        rfl
      obtain ⟨_, filled, split⟩ := consumes _ _ _ later
      obtain rfl := List.append_cancel_right split
      obtain ⟨first, others, rfl⟩ := List.exists_cons_of_ne_nil filled
      rw [List.cons_append] at later
      rw [same, List.append_assoc, List.append_assoc, ← ih, List.cons_append]
      exact substitute_of_eq_some later
  | copied char rest idle same ih =>
      have later : rule (char :: (rest ++ [mark])) = none := by
        rw [← List.cons_append, blind, idle]
        rfl
      rw [same, List.cons_append, substitute_of_eq_none later, ih, List.cons_append]

end Text

namespace Span

variable {α : Type} {mark : Char} {next : Text → Option (α × Text)}

theorem blind_cutLongest (admits : Char → Bool) (blind : Blind mark next)
    (nothing : next [] = none) (text : Text) :
    cutLongest admits next (text ++ [mark]) =
      (cutLongest admits next text).map (Prod.map id (Prod.map id (· ++ [mark]))) := by
  induction text with
  | nil => simp [cutLongest, nothing, blind.eq_none nothing]
  | cons char rest ih =>
      have shorter := blind (char :: rest)
      rw [List.cons_append] at shorter
      rw [List.cons_append, cutLongest, cutLongest, ih, shorter]
      cases admits char with
      | false => cases next (char :: rest) <;> rfl
      | true =>
          cases cutLongest admits next rest with
          | none => cases next (char :: rest) <;> rfl
          | some found => rfl

end Span

namespace Pattern

variable {α : Type} {mark : Char} {next : Pattern α}

theorem blind_stop : Blind mark stop.match? :=
  fun _ => rfl

theorem blind_fixed {word : Text} (absent : mark ∉ word) (blind : Blind mark next.match?) :
    Blind mark (fixed word next).match? := by
  intro text
  rw [match?, Text.after?_concat absent, match?]
  cases Text.after? word text with
  | none => rfl
  | some rest => exact blind rest

theorem blind_skip {admits : Char → Bool} (blind : Blind mark next.match?)
    (nothing : next.match? [] = none) :
    Blind mark (skip (.free .longest admits) next).match? := by
  intro text
  rw [match?, match?, Span.cut?, Span.cut?, Span.cutRun,
    Span.blind_cutLongest admits blind nothing]
  cases Span.cutLongest admits next.match? text <;> rfl

theorem blind_keep {starts admits : Char → Bool} (blind : Blind mark next.match?)
    (nothing : next.match? [] = none) :
    Blind mark (keep (.headed .longest starts admits) next).match? := by
  intro text
  cases text with
  | nil => simp [match?, Span.cut?, Span.cutRun, Span.cutLongest, nothing]
  | cons char rest =>
      rw [List.cons_append, match?, match?, Span.cut?, Span.cut?, Span.cutRun,
        Span.blind_cutLongest admits blind nothing]
      cases starts char with
      | false => rfl
      | true => cases Span.cutLongest admits next.match? rest <;> rfl

theorem blind_rule {pattern : Pattern α} (write : α → Text) (blind : Blind mark pattern.match?) :
    Blind mark (pattern.rule write) := by
  intro text
  rw [rule, blind, rule]
  cases pattern.match? text <;> rfl

end Pattern

/-! ## Expanding between brackets -/

namespace Expr

variable {names : Names}

section Calls

variable {mark : Char} {method : Text}

theorem consumes_bareMethodCall (write : Text × Unit → Text) :
    Text.Consumes ((bareMethodCall method).rule write) := by
  intro text written behind applied
  obtain ⟨_, _, split, _⟩ := exists_of_rule_bareMethodCall applied
  exact ⟨_, callText_ne_nil, split⟩

variable (dotted : mark ∉ '.' :: method) (opening : mark ≠ '(') (closing : mark ≠ ')')
include dotted opening closing

theorem blind_methodCall : Blind mark (methodCall method).match? := by
  refine Pattern.blind_keep (Pattern.blind_fixed dotted ?_) rfl
  refine Pattern.blind_skip (Pattern.blind_fixed (by simpa using opening) ?_) rfl
  refine Pattern.blind_keep (Pattern.blind_fixed (by simpa using closing) ?_) rfl
  exact Pattern.blind_stop

theorem blind_bareMethodCall : Blind mark (bareMethodCall method).match? := by
  refine Pattern.blind_keep (Pattern.blind_fixed dotted ?_) rfl
  refine Pattern.blind_skip (Pattern.blind_fixed (by simp [opening, closing]) ?_) rfl
  exact Pattern.blind_stop

end Calls

/-- A call does not reach over a closing bracket that nothing follows. -/
theorem convertCalls_concat (text : Text) :
    convertCalls (text ++ [']']) = convertCalls text ++ [']'] := by
  have split : convertSplit (text ++ [']']) = convertSplit text ++ [']'] :=
    Text.substitute_concat (consumes_methodCall _ _)
      (Pattern.blind_rule _ (blind_methodCall (by decide) (by decide) (by decide))) text
  have strip (text : Text) : convertStrip (text ++ [']']) = convertStrip text ++ [']'] :=
    Text.substitute_concat (consumes_bareMethodCall _)
      (Pattern.blind_rule _ (blind_bareMethodCall (by decide) (by decide) (by decide))) text
  have append (text : Text) : convertAppend (text ++ [']']) = convertAppend text ++ [']'] :=
    Text.substitute_concat (consumes_methodCall _ _)
      (Pattern.blind_rule _ (blind_methodCall (by decide) (by decide) (by decide))) text
  rw [convertCalls, split, strip, append, respell_append_cons (by decide), respell_nil,
    convertCalls]

theorem expandCode_cons (text : Text) :
    expandCode names ('[' :: text) = '[' :: expandCode names text := by
  rw [expandCode, markVariables_cons (by decide), respellKeywords, respell_mark (by decide)]
  rfl

theorem expandCode_concat (text : Text) :
    expandCode names (text ++ [']']) = expandCode names text ++ [']'] := by
  rw [expandCode, markVariables_append_cons (by decide), respellKeywords,
    respell_append_cons (by decide)]
  rfl

theorem flatMap_consCode_bracket (parts : List Part) :
    (Part.consCode '[' parts).flatMap (expandPart names) =
      '[' :: parts.flatMap (expandPart names) := by
  cases parts with
  | nil => exact congrArg (· ++ []) (@expandCode_cons names [])
  | cons part parts =>
      cases part with
      | code text =>
          rw [Part.consCode, List.flatMap_cons, List.flatMap_cons, ← List.cons_append]
          exact congrArg (· ++ _) (expandCode_cons text)
      | literal text => exact congrArg (· ++ _) (@expandCode_cons names [])

theorem flatMap_parts_concat (text : Text) :
    (parts (text ++ [']'])).flatMap (expandPart names) =
      (parts text).flatMap (expandPart names) ++ [']'] := by
  induction text using parts_induct with
  | ending text plain =>
      have plain_concat : ∀ char ∈ text ++ [']'], isQuote char = false := by
        intro char mem
        rcases List.mem_append.mp mem with mem | mem
        · exact plain char mem
        · rw [List.mem_singleton.mp mem]
          rfl
      rw [parts_of_quoteless plain, parts_of_quoteless plain_concat, flatMap_ofCode rfl,
        flatMap_ofCode rfl]
      exact expandCode_concat text
  | unclosed code quote rest plain quoted absent =>
      have absent_concat : quote ∉ rest ++ [']'] := by
        rcases eq_of_isQuote quoted with rfl | rfl <;> simpa using absent
      rw [parts, parts, List.append_assoc, List.cons_append,
        partsFrom_unclosed plain quoted absent, partsFrom_unclosed plain quoted absent_concat,
        flatMap_ofCode rfl, flatMap_ofCode rfl, ← List.cons_append, ← List.append_assoc]
      exact expandCode_concat _
  | closed code quote body rest plain quoted absent ih =>
      rw [parts] at ih
      rw [parts, parts, List.append_assoc code, List.append_assoc _ rest,
        partsFrom_code_literal plain quoted absent, partsFrom_code_literal plain quoted absent,
        List.flatMap_append, List.flatMap_cons, ih, List.flatMap_append, List.flatMap_cons,
        List.append_assoc, List.append_assoc]
      rfl

/-- An opening bracket in front of a text stays there. -/
theorem expandPlain_cons (text : Text) :
    expandPlain names ('[' :: text) = '[' :: expandPlain names text := by
  have dots : Text.replace "..".toList ['.'] ('[' :: text) =
      '[' :: Text.replace "..".toList ['.'] text :=
    Text.replace_append_cons (by decide) (by decide) [] text
  rw [expandPlain, dots, parts, partsFrom, if_neg (by decide), flatMap_consCode_bracket]
  rfl

/-- A closing bracket behind a text stays there. -/
theorem expandPlain_concat (text : Text) :
    expandPlain names (text ++ [']']) = expandPlain names text ++ [']'] := by
  have dots : Text.replace "..".toList ['.'] (text ++ [']']) =
      Text.replace "..".toList ['.'] text ++ [']'] :=
    Text.replace_append_cons (by decide) (by decide) text []
  rw [expandPlain, dots, flatMap_parts_concat, expandPlain]

end Expr

end Ephp
