import Ephp.Proofs.Callables
import Ephp.Proofs.Collections

/-!
# Parameters of named and of stored functions

A named function reads the type of a parameter up to the last blank, spells it for the output, and
reads a default value behind an equals sign.  A function that is stored in a variable reads a type
up to the first blank and takes everything behind it for the name.  So both write the same
parameters and introduce the same names exactly if no parameter has a default value, and every type
is without blanks and equals signs and is spelled alike in the output.
-/

namespace Ephp

/-! ## Splitting at a mark -/

namespace Text

variable {mark : Char} {text front back : Text}

theorem splitFirst?_of_not_mem (absent : mark ∉ text) : splitFirst? mark text = none := by
  refine Option.eq_none_iff_forall_ne_some.mpr fun pair found => absent ?_
  rw [splitFirst?_eq_some (show _ = some (pair.1, pair.2) from found)]
  simp

theorem splitLast?_eq_none_iff : splitLast? mark text = none ↔ mark ∉ text := by
  induction text with
  | nil => simp [splitLast?]
  | cons char text ih =>
      rw [splitLast?, List.mem_cons, not_or, ← ih]
      cases splitLast? mark text with
      | some pair => simp
      | none => simp [eq_comm]

theorem splitLast?_append (absent : mark ∉ back) (front : Text) :
    splitLast? mark (front ++ mark :: back) = some (front, back) := by
  induction front with
  | nil => rw [List.nil_append, splitLast?, splitLast?_eq_none_iff.mpr absent, if_pos rfl]
  | cons char front ih => rw [List.cons_append, splitLast?, ih]

theorem not_mem_of_splitLast? (found : splitLast? mark text = some (front, back)) :
    mark ∉ back := by
  induction text generalizing front with
  | nil => cases found
  | cons char text ih =>
      rw [splitLast?] at found
      cases split : splitLast? mark text with
      | some pair =>
          rw [split] at found
          cases found
          exact ih split
      | none =>
          rw [split] at found
          simp only [Option.ite_none_right_eq_some, Option.some.injEq, Prod.mk.injEq] at found
          rw [← found.2.2]
          exact splitLast?_eq_none_iff.mp split

end Text

namespace Parameter

open Ephp.Expr (IsWord Single)

/-! ## Parameters of named functions -/

/-- The name of a parameter of a named function has no blank. -/
theorem not_mem_name_ofText (text : Text) : ' ' ∉ (ofText text).name := by
  have declarator (text : Text) : ' ' ∉ (ofDeclarator text).name := by
    unfold ofDeclarator
    split
    · rename_i type name found
      exact Text.not_mem_of_splitLast? found
    · rename_i none
      exact not_mem_spellList (by decide) (Text.splitLast?_eq_none_iff.mp none)
  unfold ofText
  split
  · exact declarator _
  · exact declarator _

/-- An equals sign in a type without blanks is written with a blank in front of it. -/
theorem not_mem_of_write {names : Names} {type name : Text} (unspaced : ' ' ∉ type)
    (same : (ofText (type ++ ' ' :: name)).write names = .ok (type ++ " $".toList ++ name)) :
    '=' ∉ type := by
  intro mem
  obtain ⟨front, back, rfl, absent⟩ := List.eq_append_cons_of_mem mem
  have unspaced_front : ' ' ∉ Text.strip front := fun inside =>
    unspaced (List.mem_append_left _ ((Text.strip_isInfix front).subset inside))
  have read : ofText (front ++ '=' :: back ++ ' ' :: name) =
      ⟨none, spellList (Text.strip front), some (Text.strip (back ++ ' ' :: name))⟩ := by
    rw [List.append_assoc, List.cons_append, ofText, Text.splitFirst?_append absent]
    simp only [ofDeclarator, Text.splitLast?_eq_none_iff.mpr unspaced_front]
  rw [read] at same
  simp only [write, Except.bind_eq_ok, Except.pure_eq_ok] at same
  obtain ⟨value, _, whole⟩ := same
  have free : '=' ∉ '$' :: (spellList (Text.strip front) ++ [' ']) := by
    have spelled : '=' ∉ spellList (Text.strip front) := not_mem_spellList (by decide) fun inside =>
      absent ((Text.strip_isInfix front).subset inside)
    simp [spelled]
  have cut : front = '$' :: (spellList (Text.strip front) ++ [' ']) := by
    refine (@Text.eq_of_first '=' front (back ++ " $".toList ++ name) _ (' ' :: value) absent free
      ?_).1
    simpa using whole.symm
  refine unspaced (List.mem_append_left _ ?_)
  rw [cut]
  simp

/-! ## Parameters of the source -/

/-- A type or a default value: neither empty nor with blanks around it, and without commas and
closing parentheses. -/
structure Part (text : Text) : Prop extends Single text where
  filled : text ≠ []
  stripped : text.strip = text

/-- A parameter as it is given, with its type and its default value, if it has them. -/
structure Source where
  type : Option Text
  name : Text
  default : Option Text
  typed : ∀ part ∈ type, Part part
  word : IsWord name
  valued : ∀ part ∈ default, Part part

namespace Source

/-- What stands behind the name of a parameter. -/
def tail (source : Source) : Text :=
  source.default.elim [] (" = ".toList ++ ·)

/-- The text of a parameter. -/
def text (source : Source) : Text :=
  source.type.elim [] (· ++ [' ']) ++ (source.name ++ source.tail)

/-- What a parameter has to be for both kinds of functions to read it alike. -/
structure Plain (source : Source) : Prop where
  bare : source.default = none
  untyped : source.type = none → source.name ≠ "list".toList
  typed : ∀ type ∈ source.type,
    ' ' ∉ type ∧ '=' ∉ type ∧ type ≠ "str".toList ∧ type ≠ "list".toList

/-- A parameter with the type and the name that are given, and without a default value. -/
def declared (source : Source) : Parameter :=
  ⟨source.type, source.name, none⟩

/-- The text that is written for a parameter without a default value. -/
def written (source : Source) : Text :=
  source.type.elim [] (· ++ [' ']) ++ '$' :: source.name

theorem write_declared (source : Source) (names : Names) :
    source.declared.write names = .ok source.written := by
  obtain ⟨type, name, default, typed, word, valued⟩ := source
  cases type with
  | none => rfl
  | some type =>
      change Except.ok (type ++ " $".toList ++ name) = .ok (type ++ [' '] ++ '$' :: name)
      rw [List.append_assoc, List.append_assoc]
      rfl

theorem text_of_untyped {source : Source} (untyped : source.type = none) :
    source.text = source.name ++ source.tail := by
  rw [text, untyped]
  rfl

theorem text_of_typed {source : Source} {type : Text} (typed : source.type = some type) :
    source.text = type ++ ' ' :: (source.name ++ source.tail) := by
  rw [text, typed]
  exact List.append_assoc type [' '] _

theorem text_ne_nil (source : Source) : source.text ≠ [] := by
  simp [text, source.word.filled]

theorem not_mem_name (source : Source) {mark : Char} (other : Text.isWordChar mark = false) :
    mark ∉ source.name :=
  source.word.not_mem other

theorem single (source : Source) : Single source.text := by
  have free {mark : Char} (letter : Text.isWordChar mark = false) (equals : mark ∉ " = ".toList)
      (typed : ∀ part ∈ source.type, mark ∉ part) (valued : ∀ part ∈ source.default, mark ∉ part) :
      mark ∉ source.text := by
    have behind : mark ∉ source.tail := by
      unfold tail
      cases given : source.default with
      | none => exact List.not_mem_nil
      | some value => exact fun mem => (List.mem_append.mp mem).elim equals (valued value given)
    have named : mark ∉ source.name ++ source.tail := fun mem =>
      (List.mem_append.mp mem).elim (source.not_mem_name letter) behind
    cases given : source.type with
    | none => rwa [text_of_untyped given]
    | some type =>
        rw [text_of_typed given, List.mem_append, List.mem_cons]
        rintro (front | rfl | back)
        · exact typed type given front
        · exact equals (by decide)
        · exact named back
  exact ⟨free rfl (by decide) (fun part mem => (source.typed part mem).comma)
      fun part mem => (source.valued part mem).comma,
    free rfl (by decide) (fun part mem => (source.typed part mem).closing)
      fun part mem => (source.valued part mem).closing⟩

/-! ## Parameters that are read alike -/

section Plain

variable {source : Source} (plain : source.Plain)
include plain

theorem tail_of_plain : source.tail = [] := by
  rw [tail, plain.bare]
  rfl

theorem ofText_of_plain : ofText source.text = source.declared := by
  have blank := source.not_mem_name (by rfl : Text.isWordChar ' ' = false)
  have equals := source.not_mem_name (by rfl : Text.isWordChar '=' = false)
  cases given : source.type with
  | none =>
      have text_eq : source.text = source.name := by
        rw [text_of_untyped given, tail_of_plain plain, List.append_nil]
      rw [text_eq, ofText, Text.splitFirst?_of_not_mem equals, declared, given]
      simp only [ofDeclarator, Text.splitLast?_eq_none_iff.mpr blank, spellList,
        if_neg (plain.untyped given)]
  | some type =>
      obtain ⟨_, unequal, string, list⟩ := plain.typed type given
      have text_eq : source.text = type ++ ' ' :: source.name := by
        rw [text_of_typed given, tail_of_plain plain, List.append_nil]
      have absent : '=' ∉ type ++ ' ' :: source.name := by
        simp [unequal, equals]
      rw [text_eq, ofText, Text.splitFirst?_of_not_mem absent, declared, given]
      simp only [ofDeclarator, Text.splitLast?_append blank, spellList, spellResult,
        if_neg string, if_neg list]

theorem ofStoredText_of_plain : ofStoredText source.text = source.declared := by
  have blank := source.not_mem_name (by rfl : Text.isWordChar ' ' = false)
  cases given : source.type with
  | none =>
      rw [text_of_untyped given, tail_of_plain plain, List.append_nil, ofStoredText,
        Text.splitFirst?_of_not_mem blank, declared, given]
  | some type =>
      rw [text_of_typed given, tail_of_plain plain, List.append_nil, ofStoredText,
        Text.splitFirst?_append (plain.typed type given).1, declared, given]

end Plain

/-- If a stored function reads a name without a blank, there is no default value, and no blank in
the type. -/
theorem bare_of_ofStoredText {source : Source}
    (solid : ' ' ∉ (ofStoredText source.text).name) :
    source.default = none ∧ ∀ type ∈ source.type, ' ' ∉ type := by
  have blank := source.not_mem_name (by rfl : Text.isWordChar ' ' = false)
  have bare (absent : ' ' ∉ source.tail) : source.default = none := by
    cases given : source.default with
    | none => rfl
    | some value =>
        refine absurd ?_ absent
        rw [tail, given]
        exact List.mem_cons_self
  cases given : source.type with
  | none =>
      refine ⟨?_, nofun⟩
      cases valued : source.default with
      | none => rfl
      | some value =>
          have text_eq : source.text = source.name ++ ' ' :: ("= ".toList ++ value) := by
            rw [text_of_untyped given, tail, valued]
            rfl
          rw [text_eq, ofStoredText, Text.splitFirst?_append blank] at solid
          exact absurd (List.mem_append_left value (by decide : ' ' ∈ "= ".toList)) solid
  | some type =>
      rw [text_of_typed given] at solid
      by_cases spaced : ' ' ∈ type
      · obtain ⟨before, after, rfl, absent⟩ := List.eq_append_cons_of_mem spaced
        rw [List.append_assoc, List.cons_append, ofStoredText,
          Text.splitFirst?_append absent] at solid
        exact absurd (List.mem_append_right after List.mem_cons_self) solid
      · rw [ofStoredText, Text.splitFirst?_append spaced] at solid
        refine ⟨bare fun mem => solid (List.mem_append_right _ mem), ?_⟩
        intro other same
        cases same
        exact spaced

/-- If a parameter without a default value and without a blank in its type is written alike, it is
plain. -/
theorem plain_of_write {source : Source} {names : Names} (bare : source.default = none)
    (unspaced : ∀ type ∈ source.type, ' ' ∉ type)
    (same : (ofText source.text).write names = (ofStoredText source.text).write names) :
    source.Plain := by
  have blank := source.not_mem_name (by rfl : Text.isWordChar ' ' = false)
  have equals := source.not_mem_name (by rfl : Text.isWordChar '=' = false)
  have ended : source.tail = [] := by
    rw [tail, bare]
    rfl
  cases given : source.type with
  | none =>
      rw [text_of_untyped given, ended, List.append_nil, ofText, ofStoredText,
        Text.splitFirst?_of_not_mem equals, Text.splitFirst?_of_not_mem blank] at same
      simp only [ofDeclarator, Text.splitLast?_eq_none_iff.mpr blank] at same
      have spelled : '$' :: spellList source.name = '$' :: source.name := Except.ok.inj same
      refine ⟨bare, fun _ list => ?_, by simp [given]⟩
      rw [list] at spelled
      exact absurd spelled (by decide)
  | some type =>
      have unbroken := unspaced type given
      rw [text_of_typed given, ended, List.append_nil, ofStoredText,
        Text.splitFirst?_append unbroken] at same
      have unequal := not_mem_of_write unbroken same
      have absent : '=' ∉ type ++ ' ' :: source.name := by
        simp [unequal, equals]
      rw [ofText, Text.splitFirst?_of_not_mem absent] at same
      simp only [ofDeclarator, Text.splitLast?_append blank] at same
      have spelled : spellList (spellResult type) = type := by
        have whole : spellList (spellResult type) ++ " $".toList ++ source.name =
          type ++ " $".toList ++ source.name := Except.ok.inj same
        exact List.append_cancel_right (List.append_cancel_right whole)
      refine ⟨bare, by simp [given], ?_⟩
      rintro other member
      obtain rfl : type = other := Option.some.inj (given.symm.trans member)
      refine ⟨unbroken, unequal, ?_, ?_⟩
      · rintro rfl
        exact absurd spelled (by decide)
      · rintro rfl
        exact absurd spelled (by decide)

/-- A text that is a parameter but for the blanks around it can be given as one. -/
theorem given_of_strip {source : Source} {part : Text} (spelled : part.strip = source.text) :
    Given part := by
  have absent {mark : Char} (solid : Text.isBlank mark = false) (missing : mark ∉ source.text) :
      mark ∉ part := by
    rw [← List.count_eq_zero, ← Text.count_strip solid, spelled]
    exact List.count_eq_zero.mpr missing
  exact ⟨⟨absent (by decide) source.single.comma, absent (by decide) source.single.closing⟩,
    spelled ▸ source.text_ne_nil⟩

/-! ## Lists of parameters -/

section Listed

variable {sources : List Source} {parts : List Text} {text : Text} (listed : Listed parts text)
  (spelled : parts.map Text.strip = sources.map Source.text)
include spelled

theorem given_of_spelled : ∀ part ∈ parts, Given part := by
  intro part mem
  have stripped : part.strip ∈ sources.map Source.text := spelled ▸ List.mem_map_of_mem mem
  obtain ⟨source, _, same⟩ := List.mem_map.mp stripped
  exact given_of_strip same.symm

include listed

theorem listOfText_of_spelled : listOfText text = sources.map (ofText ·.text) := by
  have split := congrArg (List.map ofText) spelled
  rw [List.map_map, List.map_map] at split
  rw [listOfText_of_listed listed (given_of_spelled spelled)]
  exact split

theorem listOfStoredText_of_spelled :
    listOfStoredText text = sources.map (ofStoredText ·.text) := by
  have split := congrArg (List.map ofStoredText) spelled
  rw [List.map_map, List.map_map] at split
  rw [listOfStoredText_of_listed listed (given_of_spelled spelled)]
  exact split

theorem parameters_of_plain (plain : ∀ source ∈ sources, source.Plain) (callable : Callable) :
    callable.parameters text = sources.map declared := by
  have stored : listOfStoredText text = sources.map declared :=
    (listOfStoredText_of_spelled listed spelled).trans
      (List.map_congr_left fun source mem => ofStoredText_of_plain (plain source mem))
  cases callable with
  | named name result =>
      exact (listOfText_of_spelled listed spelled).trans
        (List.map_congr_left fun source mem => ofText_of_plain (plain source mem))
  | arrow target body => exact stored
  | closure target => exact stored

end Listed

theorem mapM_declared (sources : List Source) (names : Names) :
    (sources.map declared).mapM (write names) = .ok (sources.map written) := by
  rw [Except.mapM_eq_ok_iff, List.map_map, List.map_map]
  exact List.map_congr_left fun source _ => source.write_declared names

end Source

end Parameter

/-! ## Agreement -/

namespace Callable

open Parameter (Source)

/-- The expression of a function that has only one. -/
def results : Callable → List Text
  | named _ _ => []
  | arrow _ body => [(Text.after? "return ".toList body).getD body]
  | closure _ => []

theorem expressions_statement (callable : Callable) (text : Text) :
    (callable.statement text).expressions =
      (callable.parameters text).flatMap (·.default.toList) ++ callable.results := by
  cases callable with
  | named name result => exact (List.append_nil _).symm
  | arrow target body => rfl
  | closure target => exact (List.append_nil _).symm

/-- Functions of all kinds with the text of parameters `text` are performed in the state `state`,
write `list` for their parameters and introduce the names `added`, apart from the variable that they
are stored in. -/
def Agree (text : Text) (indent : Int) (state : State) (list : Text) (added : List Text) : Prop :=
  ∀ callable : Callable, callable.Formed → (∀ value ∈ callable.results, ¬Expr.Hollow value) →
    ∃ body after, (callable.statement text).perform indent state = .ok () after ∧
      after.lines = state.lines ++ [Text.indentation indent ++ callable.header list body] ∧
      ∀ word, word ∈ after.names.declared ↔
        word ∈ state.names.declared ∨ word ∈ added ∨ callable.target? = some word

/-- The list of the parameters is found in the header of a function with a block. -/
theorem list_eq_of_header {callable : Callable} (block : callable.results = [])
    {list body other value : Text}
    (same : callable.header list body = callable.header other value) : list = other := by
  cases callable with
  | named name result =>
      have front := List.append_cancel_right (List.append_cancel_right same)
      exact List.append_cancel_left (List.append_cancel_right front)
  | arrow target body => cases block
  | closure target =>
      have cut := List.append_cancel_right (List.append_cancel_right same)
      exact List.append_cancel_left cut

/-- What a function with a block writes for its parameters and which names it introduces, if
functions of all kinds agree. -/
theorem Agree.block {text list : Text} {indent : Int} {state : State} {added : List Text}
    (agree : Agree text indent state list added) (callable : Callable) (formed : callable.Formed)
    (block : callable.results = []) :
    ∃ written, (callable.parameters text).mapM (Parameter.write state.names) = .ok written ∧
      Text.join ", ".toList written = list ∧
      ∀ word, word ∈ state.names.declared ∨ word ∈ (callable.parameters text).map Parameter.name ∨
          callable.target? = some word ↔
        word ∈ state.names.declared ∨ word ∈ added ∨ callable.target? = some word := by
  obtain ⟨body, after, done, lines, declared⟩ := agree callable formed (by simp [block])
  obtain ⟨written, value, performed⟩ := performed_of_ok done
  refine ⟨written, performed.parameters, ?_, fun word =>
    (performed.declared word).symm.trans (declared word)⟩
  have same := List.append_cancel_left (performed.lines.symm.trans lines)
  exact list_eq_of_header block (List.append_cancel_left (List.cons.inj same).1)

section Listed

variable {sources : List Source} {parts : List Text} {text list : Text} {added : List Text}
  (listed : Parameter.Listed parts text)
  (spelled : parts.map Text.strip = sources.map Source.text) {indent : Int} {state : State}
include listed spelled

theorem agree_of_plain (plain : ∀ source ∈ sources, source.Plain) :
    Agree text indent state (Text.join ", ".toList (sources.map Source.written))
      (sources.map Source.name) := by
  intro callable _ solid
  have parameters := Source.parameters_of_plain listed spelled plain callable
  have performs : ∃ after, (callable.statement text).perform indent state = .ok () after := by
    refine (callable.performs_iff text indent state).mpr ?_
    rw [expressions_statement, parameters]
    intro expression mem
    rcases List.mem_append.mp mem with default | result
    · obtain ⟨_, declared, valued⟩ := List.mem_flatMap.mp default
      obtain ⟨source, _, rfl⟩ := List.mem_map.mp declared
      exact absurd valued List.not_mem_nil
    · exact solid expression result
  obtain ⟨after, done⟩ := performs
  obtain ⟨written, body, performed⟩ := performed_of_ok done
  have wrote := performed.parameters
  rw [parameters, Source.mapM_declared] at wrote
  have declared := performed.declared
  rw [parameters, List.map_map] at declared
  exact ⟨body, after, done, Except.ok.inj wrote ▸ performed.lines, declared⟩

/-- No name of a stored parameter has a blank, since no name of a parameter of a named function has
one. -/
theorem Agree.not_mem_name (solid : ∀ word ∈ state.names.declared, ' ' ∉ word)
    (agree : Agree text indent state list added) {source : Source} (mem : source ∈ sources) :
    ' ' ∉ (Parameter.ofStoredText source.text).name := by
  have letter : Expr.IsWord ['f'] := by decide
  obtain ⟨_, _, _, named⟩ := agree.block (.named ['f'] ['f']) ⟨letter, letter⟩ rfl
  obtain ⟨_, _, _, stored⟩ := agree.block (.closure ['f']) letter rfl
  simp only [parameters, Source.listOfText_of_spelled listed spelled, List.map_map,
    Function.comp_def] at named
  simp only [parameters, Source.listOfStoredText_of_spelled listed spelled, List.map_map,
    Function.comp_def] at stored
  intro blank
  rcases (stored _).mp (.inr (.inl (List.mem_map_of_mem mem))) with old | new | target
  · exact solid _ old blank
  · rcases (named _).mpr (.inr (.inl new)) with old | given | ⟨⟨⟩⟩
    · exact solid _ old blank
    · obtain ⟨other, _, same⟩ := List.mem_map.mp given
      exact Parameter.not_mem_name_ofText other.text (same ▸ blank)
  · rw [← Option.some.inj target] at blank
    exact absurd blank (by decide)

/-- Every parameter is written alike, since no comma is written for a stored parameter. -/
theorem Agree.write_eq (agree : Agree text indent state list added) {source : Source}
    (mem : source ∈ sources) :
    (Parameter.ofText source.text).write state.names =
      (Parameter.ofStoredText source.text).write state.names := by
  have letter : Expr.IsWord ['f'] := by decide
  obtain ⟨named, named_each, named_list, _⟩ :=
    agree.block (.named ['f'] ['f']) ⟨letter, letter⟩ rfl
  obtain ⟨stored, stored_each, stored_list, _⟩ := agree.block (.closure ['f']) letter rfl
  simp only [parameters, Source.listOfText_of_spelled listed spelled] at named_each
  simp only [parameters, Source.listOfStoredText_of_spelled listed spelled] at stored_each
  have free : ∀ part ∈ stored, ',' ∉ part := by
    intro part part_mem
    obtain ⟨parameter, given, wrote⟩ := Except.exists_of_mem_mapM stored_each part part_mem
    obtain ⟨other, _, rfl⟩ := List.mem_map.mp given
    exact (Parameter.lone_ofStoredText other.single).comma_write wrote
  rw [Except.mapM_eq_ok_iff, List.map_map] at named_each stored_each
  have sizes : named.length = stored.length := by
    have named_length := congrArg List.length named_each
    have stored_length := congrArg List.length stored_each
    rw [List.length_map, List.length_map] at named_length stored_length
    exact named_length.symm.trans stored_length
  obtain rfl := Text.join_inj_of_not_mem sizes free (named_list.trans stored_list.symm)
  exact List.map_inj_left.mp (named_each.trans stored_each.symm) source mem

theorem plain_of_agree (solid : ∀ word ∈ state.names.declared, ' ' ∉ word)
    (agree : Agree text indent state list added) : ∀ source ∈ sources, source.Plain := by
  intro source mem
  obtain ⟨bare, unspaced⟩ :=
    Source.bare_of_ofStoredText (agree.not_mem_name listed spelled solid mem)
  exact Source.plain_of_write bare unspaced (agree.write_eq listed spelled mem)

end Listed

/-- Functions of all kinds write the same list for their parameters and introduce the same names, if
no parameter has a default value and every type is one that is copied.  Where no name with a blank
has been introduced before, they do so only then. -/
theorem parameters_agree_iff {sources : List Source} {parts : List Text} {text : Text}
    (listed : Parameter.Listed parts text)
    (spelled : parts.map Text.strip = sources.map Source.text) (indent : Int) (state : State) :
    ((∀ source ∈ sources, source.Plain) →
        Agree text indent state (Text.join ", ".toList (sources.map Source.written))
          (sources.map Source.name)) ∧
      ((∀ word ∈ state.names.declared, ' ' ∉ word) →
        (∃ list added, Agree text indent state list added) → ∀ source ∈ sources, source.Plain) := by
  refine ⟨agree_of_plain listed spelled, ?_⟩
  rintro solid ⟨list, added, agree⟩
  exact plain_of_agree listed spelled solid agree

theorem parameters_agree_iff_mixed :
    Agree "int a, b".toList 0 State.initial "int $a, $b".toList ["a".toList, "b".toList] ∧
      ¬∃ list added, Agree "str s".toList 0 State.initial list added := by
  have none : ∀ part ∈ (none : Option Text), Parameter.Part part := nofun
  constructor
  · have integer : ∀ part ∈ some "int".toList, Parameter.Part part := by
      rintro _ ⟨⟩
      exact ⟨⟨by decide, by decide⟩, by decide, by decide⟩
    refine (@parameters_agree_iff
      [⟨_, "a".toList, _, integer, by decide, none⟩, ⟨_, "b".toList, _, none, by decide, none⟩]
      ["int a".toList, " b".toList] _ rfl rfl 0 State.initial).1 (List.forall_mem_cons.mpr ⟨?_,
        List.forall_mem_singleton.mpr ⟨rfl, fun _ => (by decide : "b".toList ≠ _), nofun⟩⟩)
    refine ⟨rfl, nofun, ?_⟩
    rintro _ ⟨⟩
    decide
  · have string : ∀ part ∈ some "str".toList, Parameter.Part part := by
      rintro _ ⟨⟩
      exact ⟨⟨by decide, by decide⟩, by decide, by decide⟩
    intro agree
    have plain := (@parameters_agree_iff [⟨_, "s".toList, _, string, by decide, none⟩]
      ["str s".toList] _ rfl rfl 0 State.initial).2 (by decide) agree _ List.mem_cons_self
    exact absurd rfl (plain.typed _ rfl).2.2.1

/-- Only a named function introduces the name of a parameter with a default value, so the parameter
is a constant in the expression of a stored one. -/
theorem not_agree_valued :
    (∃ after, ((named ['f'] "int".toList).statement "int a = 1".toList).perform 0
        State.initial = .ok () after ∧
      after.lines = ["function f(int $a = 1): int \x7b".toList] ∧
      after.names.declared = ["a".toList]) ∧
    ∃ after, ((arrow ['f'] ['a']).statement "int a = 1".toList).perform 0
        State.initial = .ok () after ∧
      after.lines = ["$f = fn(int $a = 1) => a;".toList] ∧
      after.names.declared = ["f".toList, "a = 1".toList] := by
  have reaches {callable : Callable} {lines declared : List Text}
      (passes : ((callable.statement "int a = 1".toList).perform 0).passes (fun _ after =>
        decide (after.lines = lines ∧ after.names.declared = declared)) State.initial = true) :
      ∃ after, (callable.statement "int a = 1".toList).perform 0 State.initial = .ok () after ∧
        after.lines = lines ∧ after.names.declared = declared := by
    obtain ⟨_, after, done, reached⟩ := Conversion.passes_iff.mp passes
    exact ⟨after, done, of_decide_eq_true reached⟩
  exact ⟨reaches (by decide +kernel), reaches (by decide +kernel)⟩

end Callable

end Ephp
