import Ephp.Proofs.Items
import Ephp.Proofs.Labels
import Mathlib.Data.List.TakeWhile

/-!
# Headers of functions

A function is named, or it is stored in a variable, with one expression or with a block.  Whatever
its parameters are, its header is read as such and is written with one parameter for each that is
given, unless a default value cannot be written.  Only where nothing at all stands between the
parentheses the header is not read, since the text of the parameters has at least one character.
-/

namespace Ephp

/-! ## Expressions without commas -/

namespace Expr

/-- A text without commas and closing parentheses. -/
structure Single (text : Text) : Prop where
  comma : ',' ∉ text
  closing : ')' ∉ text

namespace Single

variable {text : Text}

theorem of_subset {part : Text} (single : Single text) (inside : part ⊆ text) : Single part :=
  ⟨fun mem => single.comma (inside mem), fun mem => single.closing (inside mem)⟩

theorem strip (single : Single text) : Single text.strip :=
  single.of_subset (Text.strip_isInfix text).subset

/-- Every method call has a closing parenthesis. -/
theorem callless (single : Single text) : Callless text := by
  have none (method : Text) (bare : Bool) : ¬Calls method bare text := by
    rintro ⟨front, char, blanks, arguments, back, rfl, _⟩
    exact single.closing (by simp)
  exact ⟨none _ _, none _ _, none _ _⟩

theorem convertCalls (single : Single text) : Single (convertCalls text) := by
  have absent {mark : Char} (missing : mark ∉ text)
      (free : ∀ pair ∈ builtins, pair.2.count mark = 0) : mark ∉ Expr.convertCalls text := by
    rw [convertCalls_of_callless single.callless]
    exact not_mem_respell free missing
  exact ⟨absent single.comma (by decide), absent single.closing (by decide)⟩

theorem comma_expandPart (names : Names) {part : Part} (single : Single part.text) :
    ',' ∉ expandPart names part := by
  cases part with
  | literal text => exact single.comma
  | code text =>
      refine not_mem_respell (fun pair mem => ?_)
        (mt (mem_markVariables (by decide : ',' ≠ '$')).mp single.comma)
      revert pair
      decide

theorem comma_expandPlain (names : Names) (single : Single text) :
    ',' ∉ expandPlain names text := by
  have dotted : Single (Text.replace "..".toList ['.'] text) := by
    refine ⟨fun mem => ?_, fun mem => ?_⟩
    · exact single.comma ((Text.mem_replace (by decide) mem).resolve_left (by decide))
    · exact single.closing ((Text.mem_replace (by decide) mem).resolve_left (by decide))
  intro mem
  obtain ⟨part, part_mem, inside⟩ := List.mem_flatMap.mp mem
  refine comma_expandPart names (dotted.of_subset fun char piece => ?_) inside
  rw [← flatMap_partsFrom none (Text.replace "..".toList ['.'] text)]
  exact List.mem_flatMap.mpr ⟨part, part_mem, piece⟩

theorem comma_quote (single : Single text) : ',' ∉ Format.quote text := by
  intro mem
  rcases List.mem_append.mp mem with front | last
  · rcases List.mem_append.mp front with first | inside
    · exact absurd first (by decide)
    · exact single.comma ((Text.mem_replace (by decide) inside).resolve_left (by decide))
  · exact absurd last (by decide)

/-- Expanding an expression adds a comma only where a method is called. -/
theorem comma_expand {names : Names} {result : Text} (single : Single text)
    (done : expand names text = .ok result) : ',' ∉ result := by
  -- A placeholder has fewer opening braces than the expression around it.
  induction size : text.count '{' using Nat.strongRecOn generalizing text result with
  | ind size ih =>
      have called := single.convertCalls
      cases found : Format.body? (Expr.convertCalls text) with
      | none =>
          rw [expand_of_body? found] at done
          cases done
          exact called.comma_expandPlain names
      | some body =>
          obtain ⟨written, each, _, rfl⟩ := exists_of_expand_format found done
          intro mem
          rcases Grammar.mem_join mem with separator | ⟨part, part_mem, inside⟩
          · exact absurd separator (by decide)
          · obtain ⟨segment, segment_mem, expanded⟩ :=
              Except.exists_of_mem_mapM (Except.mapM_eq_ok_iff.mpr each) part part_mem
            have piece : Single segment.text := (called.of_subset
              (Format.subset_of_body? found)).of_subset (Format.subset_of_mem_segments segment_mem)
            cases segment with
            | literal literal =>
                cases expanded
                exact piece.comma_quote inside
            | placeholder inner =>
                have smaller := count_placeholder_lt found segment_mem
                exact ih _ (size ▸ smaller) piece.strip expanded rfl inside

end Single

end Expr

namespace Parameter

open Ephp.Expr (Single)

/-- The parts of a parameter have no commas, and its default value has no closing parentheses. -/
structure Lone (parameter : Parameter) : Prop where
  type : ∀ type ∈ parameter.type, ',' ∉ type
  name : ',' ∉ parameter.name
  default : ∀ value ∈ parameter.default, Single value

theorem not_mem_spellList {mark : Char} {type : Text} (other : mark ∉ "array".toList)
    (absent : mark ∉ type) : mark ∉ spellList type := by
  unfold spellList
  split
  · exact other
  · exact absent

theorem comma_spellResult {type : Text} (absent : ',' ∉ type) : ',' ∉ spellResult type := by
  unfold spellResult
  split
  · decide
  · exact absent

theorem lone_ofDeclarator {text : Text} (single : Single text) : (ofDeclarator text).Lone := by
  unfold ofDeclarator
  split
  · rename_i type name found
    have split := Text.splitLast?_eq_some found
    have front : ',' ∉ type := fun mem => single.comma (by simp [split, mem])
    refine ⟨?_, fun mem => single.comma (by simp [split, mem]), by simp⟩
    intro spelled mem
    cases mem
    exact not_mem_spellList (by decide) (comma_spellResult front)
  · exact ⟨by simp, not_mem_spellList (by decide) single.comma, by simp⟩

theorem lone_ofText {text : Text} (single : Single text) : (ofText text).Lone := by
  unfold ofText
  split
  · rename_i declarator value found
    have split := Text.splitFirst?_eq_some found
    have front : Single declarator := single.of_subset (by simp [split])
    have back : Single value := single.of_subset (by simp [split])
    have lone := lone_ofDeclarator front.strip
    refine ⟨lone.type, lone.name, ?_⟩
    intro default mem
    cases mem
    exact back.strip
  · exact lone_ofDeclarator single

theorem lone_ofStoredText {text : Text} (single : Single text) : (ofStoredText text).Lone := by
  unfold ofStoredText
  split
  · rename_i type name found
    have split := Text.splitFirst?_eq_some found
    refine ⟨?_, fun mem => single.comma (by simp [split, mem]), by simp⟩
    intro written mem
    cases mem
    exact fun mem => single.comma (by simp [split, mem])
  · exact ⟨by simp, single.comma, by simp⟩

/-- A parameter of such parts is written without a comma. -/
theorem Lone.comma_write {names : Names} {parameter : Parameter} {written : Text}
    (lone : parameter.Lone) (done : parameter.write names = .ok written) : ',' ∉ written := by
  unfold write at done
  extract_lets typed at done
  have typed_free : ',' ∉ typed := by
    unfold typed
    cases found : parameter.type with
    | none => simp [lone.name]
    | some type => simp [lone.name, lone.type type found]
  cases found : parameter.default with
  | none =>
      simp only [found, Except.pure_eq_ok] at done
      rwa [← done]
  | some value =>
      simp only [found, Except.bind_eq_ok, Except.pure_eq_ok] at done
      obtain ⟨expanded, expansion, rfl⟩ := done
      simp [typed_free, (lone.default value found).comma_expand expansion]

end Parameter

/-! ## Lists of parameters -/

/-- Only a blank text has nothing left without its blanks. -/
theorem Text.strip_eq_nil_iff {text : Text} :
    text.strip = [] ↔ ∀ char ∈ text, isBlank char = true := by
  rw [strip, trim, trimEnd, List.reverse_eq_nil_iff, List.dropWhile_eq_nil_iff]
  simp only [List.mem_reverse]
  constructor
  · intro blank char mem
    rw [← @List.takeWhile_append_dropWhile _ isBlank text] at mem
    rcases List.mem_append.mp mem with front | back
    · exact List.mem_takeWhile_imp front
    · exact blank char back
  · intro blank char mem
    exact blank char ((List.dropWhile_suffix _).subset mem)

namespace Parameter

open Ephp.Expr (Single)

/-- The text between the parentheses of a header with the given parameters: commas separate them,
and where there are none it is blank. -/
def Listed (sources : List Text) (text : Text) : Prop :=
  if sources = [] then text.strip = [] else text = Text.join [','] sources

instance (sources : List Text) (text : Text) : Decidable (Listed sources text) :=
  inferInstanceAs
    (Decidable (if sources = [] then text.strip = [] else text = Text.join [','] sources))

/-- A parameter that can be given: it is not blank and has no commas and closing parentheses. -/
structure Given (source : Text) : Prop extends Single source where
  filled : source.strip ≠ []

variable {sources : List Text} {text : Text} (listed : Listed sources text)
  (given : ∀ source ∈ sources, Given source)
include listed given

theorem strip_ne_nil_of_listed (some : sources ≠ []) : text.strip ≠ [] := by
  obtain ⟨source, others, rfl⟩ := List.exists_cons_of_ne_nil some
  rw [Listed, if_neg some] at listed
  refine fun blank => (given source List.mem_cons_self).filled (Text.strip_eq_nil_iff.mpr ?_)
  intro char mem
  refine Text.strip_eq_nil_iff.mp blank char ?_
  rw [listed]
  exact Text.mem_join_of_mem List.mem_cons_self mem

theorem items_of_listed (some : sources ≠ []) : text.items = sources.map Text.strip := by
  rw [Listed, if_neg some] at listed
  rw [listed, Text.items, Text.join,
    List.splitOn_intercalate ',' (fun source mem => (given source mem).comma) some]

theorem closing_of_listed : ')' ∉ text := by
  by_cases none : sources = []
  · subst none
    exact fun mem => absurd (Text.strip_eq_nil_iff.mp listed ')' mem) (by decide)
  · rw [Listed, if_neg none] at listed
    rw [listed]
    intro mem
    rcases Grammar.mem_join mem with comma | ⟨source, source_mem, inside⟩
    · exact absurd comma (by decide)
    · exact (given source source_mem).closing inside

theorem listOfText_of_listed :
    listOfText text = sources.map fun source => ofText source.strip := by
  by_cases none : sources = []
  · subst none
    have blank : text.strip = [] := listed
    have absent : ',' ∉ text := fun mem =>
      absurd (Text.strip_eq_nil_iff.mp blank ',' mem) (by decide)
    rw [listOfText, Text.items, List.splitOn_eq_singleton absent, List.map_singleton, blank]
    rfl
  · have kept : ∀ item ∈ sources.map Text.strip, (!item.isEmpty) = true := by
      intro item mem
      obtain ⟨source, source_mem, rfl⟩ := List.mem_map.mp mem
      simpa using (given source source_mem).filled
    rw [listOfText, items_of_listed listed given none, List.filter_eq_self.mpr kept, List.map_map]
    rfl

theorem listOfStoredText_of_listed :
    listOfStoredText text = sources.map fun source => ofStoredText source.strip := by
  by_cases none : sources = []
  · subst none
    have blank : text.strip = [] := listed
    rw [listOfStoredText, blank]
    rfl
  · have filled := strip_ne_nil_of_listed listed given none
    rw [listOfStoredText, if_neg (by simpa using filled), items_of_listed listed given none,
      List.map_map]
    rfl

end Parameter

/-! ## Reading a header -/

/-- Where a mark stands only once, a text is cut at it in one way only. -/
theorem Text.eq_of_only {mark : Char} {front back before after : Text} (absent : mark ∉ front)
    (missing : mark ∉ back) (same : front ++ mark :: back = before ++ mark :: after) :
    back = after := by
  have counted := congrArg (List.count mark) same
  rw [List.count_append, List.count_append, List.count_cons_self, List.count_cons_self,
    List.count_eq_zero.mpr absent, List.count_eq_zero.mpr missing] at counted
  have first : mark ∉ before := List.count_eq_zero.mp (by omega)
  exact (eq_of_first absent first same).2

/-- A function without its parameters. -/
inductive Callable where
  /-- A function with a name and a type of its results. -/
  | named (name result : Text)
  /-- A function of one expression that is stored in a variable. -/
  | arrow (target body : Text)
  /-- A function with a block that is stored in a variable. -/
  | closure (target : Text)

namespace Callable

open Ephp.Expr (IsWord Single)
open Statement Pattern

/-- The header of a function with a text of parameters. -/
def line (parameters : Text) : Callable → Text
  | named name result =>
    "func ".toList ++ (name ++ '(' :: (parameters ++ (") ".toList ++ (result ++ [':']))))
  | arrow target body => target ++ (" = fn (".toList ++ (parameters ++ ("): ".toList ++ body)))
  | closure target => target ++ (" = fn (".toList ++ (parameters ++ "):".toList))

/-- The statement that the header of a function is. -/
def statement (parameters : Text) : Callable → Statement
  | named name result => .function name parameters result
  | arrow target body => .arrow target parameters body
  | closure target => .closure target parameters

/-- Names are words, and an expression does not start with a blank. -/
def Formed : Callable → Prop
  | named name result => IsWord name ∧ IsWord result
  | arrow target body => IsWord target ∧ body ≠ [] ∧ body.Stops Text.isBlank
  | closure target => IsWord target

theorem stops_of_isWord {word rest : Text} (letters : IsWord word) :
    (word ++ rest).Stops Text.isBlank := by
  obtain ⟨first, others, rfl⟩ := List.exists_cons_of_ne_nil letters.filled
  exact Text.isBlank_of_isWordChar (letters.letters first List.mem_cons_self)

/-- Behind a keyword and a gap an assignment to a word goes on with its equals sign. -/
theorem fits_of_keyword {α : Type} {next : Pattern α} {keyword target rest : Text}
    (letters : ∀ char ∈ keyword, Text.isWordChar char = true) (word : IsWord target)
    (fits : (fixed keyword <| skip .gap next).Fits (target ++ (" = ".toList ++ rest))) :
    next.Fits ('=' :: ' ' :: rest) := by
  obtain ⟨_, split, _, behind, rfl, ⟨first, blanks, rfl, blank, all⟩, fits⟩ := fits
  have stops : Text.Stops Text.isWordChar (first :: blanks ++ behind) := by
    refine Bool.eq_false_iff.mpr fun letter => ?_
    rw [Text.isBlank_of_isWordChar letter] at blank
    cases blank
  have same := congrArg (List.takeWhile Text.isWordChar) split
  rw [Text.takeWhile_append_of_stops word.letters (by rfl),
    Text.takeWhile_append_of_stops letters stops] at same
  rw [same, List.append_cancel_left_eq] at split
  have inside := (List.cons.inj split).2
  cases blanks with
  | nil =>
      rw [show behind = '=' :: ' ' :: rest from inside.symm] at fits
      exact fits
  | cons second blanks =>
      have visible := all second List.mem_cons_self
      rw [← (List.cons.inj inside).1] at visible
      cases visible

section Stored

variable {target text : Text} (word : IsWord target) (rest : Text)
include word

theorem requireForm_of_stored : requireForm (target ++ (" = fn (".toList ++ rest)) = none := by
  refine form_of_not_fits fun fits => ?_
  have behind := @fits_of_keyword _ _ _ _ ("fn (".toList ++ rest)
    (List.all_eq_true.mp (by decide : "import".toList.all _ = true)) word fits
  obtain ⟨_, split, _⟩ := behind
  exact absurd (List.cons.inj split).1 (by decide)

theorem functionForm_of_stored : functionForm (target ++ (" = fn (".toList ++ rest)) = none := by
  refine form_of_not_fits fun fits => ?_
  have behind := @fits_of_keyword _ _ _ _ ("fn (".toList ++ rest)
    (List.all_eq_true.mp (by decide : "func".toList.all _ = true)) word fits
  obtain ⟨_, _, split, ⟨first, others, rfl, letter, _⟩, _⟩ := behind
  rw [← (List.cons.inj split).1] at letter
  cases letter

variable (filled : text ≠ []) (unbroken : text.isUnbroken = true) (closing : ')' ∉ text)
include filled unbroken closing

theorem reads_storedFunction {α : Type} {body : Pattern α} {kept : α}
    (tail : body.Reads rest kept) :
    (storedFunction body).Reads (target ++ (" = fn (".toList ++ (text ++ ("):".toList ++ rest))))
      (target, text, kept) := by
  refine Grammar.reads_assignment rfl word.spells rfl rfl (.fixed rfl (.blank rfl (.fixed rfl ?_)))
  exact .upTo rfl (spells_of_isUnbroken _ filled unbroken) closing
    (.fixed rfl (.noBlank rfl (.fixed rfl tail)))

omit rest filled unbroken in
/-- Nothing follows the colon behind the only closing parenthesis of the header of a block. -/
theorem arrowForm_of_closure :
    arrowForm (target ++ (" = fn (".toList ++ (text ++ "):".toList))) = none := by
  have leads : (storedFunction <| skip .blanks <| keep .most ending).Leads
      (fixed [')'] <| skip .blanks <| fixed [':'] <| skip .blanks <| keep .most ending) :=
    leads_assignment (.fixed (.skip (.fixed (.keep (.refl _)))))
  refine form_eq_none fun result matched => ?_
  obtain ⟨_, answer, ⟨before, split⟩, found⟩ := leads _ _ matched
  obtain ⟨tail, rfl, found⟩ := match?_fixed_eq_some.mp found
  have only : ')' ∉ target ++ (" = fn (".toList ++ text) := by
    simp [closing, word.not_mem (by rfl : Text.isWordChar ')' = false)]
  have last : [':'] = tail := by
    refine @Text.eq_of_only ')' _ _ before _ only (by decide) ?_
    rw [List.append_assoc, List.append_assoc]
    exact split.symm
  subst last
  cases found

omit rest in
theorem read?_closure :
    read? (target ++ (" = fn (".toList ++ (text ++ "):".toList))) =
      some (.closure target text) := by
  have here : closureForm (target ++ (" = fn (".toList ++ (text ++ "):".toList))) =
      some (.closure target text) :=
    form_of_reads (target, text, ()) (reads_storedFunction word [] filled unbroken closing .ending)
  rw [read?, forms, List.findSome?_cons, requireForm_of_stored word, List.findSome?_cons,
    functionForm_of_stored word, List.findSome?_cons, arrowForm_of_closure word closing,
    List.findSome?_cons, here]

omit rest in
theorem read?_arrow {body : Text} (given : body ≠ []) (solid : body.Stops Text.isBlank)
    (whole : body.isUnbroken = true) :
    read? (target ++ (" = fn (".toList ++ (text ++ ("): ".toList ++ body)))) =
      some (.arrow target text body) := by
  have here : arrowForm (target ++ (" = fn (".toList ++ (text ++ ("): ".toList ++ body)))) =
      some (.arrow target text body) :=
    form_of_reads (target, text, body, ()) (reads_storedFunction word (' ' :: body) filled unbroken
      closing (.blank solid (.toEnd rfl (spells_of_isUnbroken _ given whole))))
  rw [read?, forms, List.findSome?_cons, requireForm_of_stored word, List.findSome?_cons,
    functionForm_of_stored word, List.findSome?_cons, here]

end Stored

theorem read?_named {name result text : Text} (word : IsWord name) (type : IsWord result)
    (filled : text ≠ []) (unbroken : text.isUnbroken = true) (closing : ')' ∉ text) :
    read? ((named name result).line text) = some (.function name text result) := by
  have tail : (skip .blanks <| keep .wordOrNothing <| skip .blanks <| fixed [':'] ending).Reads
      (' ' :: (result ++ [':'])) (result, ()) :=
    .blank (stops_of_isWord type) (.keep rfl type.letters rfl (.noBlank rfl (.fixed rfl .ending)))
  have inner : (keep .least <| fixed [')'] <| skip .blanks <| keep .wordOrNothing <|
      skip .blanks <| fixed [':'] ending).Reads (text ++ (") ".toList ++ (result ++ [':'])))
        (text, result, ()) :=
    .upTo rfl (spells_of_isUnbroken _ filled unbroken) closing (.fixed rfl tail)
  have stops : (name ++ '(' :: (text ++ (") ".toList ++ (result ++ [':'])))).Stops Text.isBlank :=
    stops_of_isWord word
  have here : functionForm ((named name result).line text) = some (.function name text result) :=
    form_of_reads (name, text, result, ()) (.fixed rfl (.gap stops
      (.keep rfl word.spells rfl (.noBlank rfl (.fixed rfl inner)))))
  exact @Grammar.read?_of_first (some .funcWord) _ [] _ _ _ (.keyword rfl) (by simp) here rfl

/-- With something between the parentheses a header is read as what it is. -/
theorem read?_line {callable : Callable} (formed : callable.Formed) {text : Text}
    (filled : text ≠ []) (closing : ')' ∉ text)
    (unbroken : (callable.line text).isUnbroken = true) :
    read? (callable.line text) = some (callable.statement text) := by
  have parts {front back : Text} (whole : (front ++ back).isUnbroken = true) :=
    Text.isUnbroken_append.mp whole
  cases callable with
  | named name result =>
      have inner := (parts (Text.isUnbroken_cons.mp (parts (parts unbroken).2).2).2).1
      exact read?_named formed.1 formed.2 filled inner closing
  | arrow target body =>
      have inner := parts (parts (parts unbroken).2).2
      exact read?_arrow formed.1 filled inner.1 closing formed.2.1 formed.2.2 (parts inner.2).2
  | closure target =>
      exact read?_closure formed filled (parts (parts (parts unbroken).2).2).1 closing

end Callable

namespace Statement

open Pattern

/-- The text of the parameters of a function. -/
def parameters? : Statement → Option Text
  | .function _ parameters _ => some parameters
  | .arrow _ parameters _ => some parameters
  | .closure _ parameters => some parameters
  | _ => none

/-- The text of the parameters of a function that is read is not empty. -/
theorem parameters_ne_nil_of_read? {body text : Text} {statement : Statement}
    (found : read? body = some statement) (given : statement.parameters? = some text) :
    text ≠ [] := by
  have headed {span : Reach} : ¬(Span.headed span Text.isInline Text.isInline).Spells [] := by
    rintro ⟨_, _, ⟨⟩, _⟩
  obtain ⟨reader, mem, found⟩ := List.exists_of_findSome?_eq_some found
  simp only [forms, List.mem_cons, List.not_mem_nil, or_false] at mem
  rcases mem with rfl | rfl | rfl | rfl | rfl | rfl | rfl | rfl | rfl | rfl | rfl | rfl | rfl |
    rfl | rfl | rfl | rfl | rfl | rfl | rfl | rfl | rfl | rfl | rfl | rfl | rfl | rfl | rfl | rfl |
    rfl
  case inr.inl =>
    obtain ⟨⟨name, parameters, result, _⟩, _, matched, rfl⟩ := form_eq_some found
    cases given
    obtain ⟨_, _, matched⟩ := match?_fixed_eq_some.mp matched
    obtain ⟨_, _, _, _, matched⟩ := exists_of_match?_skip matched
    obtain ⟨_, _, _, matched⟩ := exists_of_match?_keep matched
    obtain ⟨_, _, _, _, matched⟩ := exists_of_match?_skip matched
    obtain ⟨_, _, matched⟩ := match?_fixed_eq_some.mp matched
    obtain ⟨_, _, spelled, _⟩ := exists_of_match?_keep matched
    exact fun empty => headed (empty ▸ spelled)
  case inr.inr.inl =>
    obtain ⟨⟨target, parameters, result, _⟩, _, matched, rfl⟩ := form_eq_some found
    cases given
    exact fields_ne_nil_of_match? matched trivial text
      (by simp [storedFunction, assignment, Pattern.fields])
  case inr.inr.inr.inl =>
    obtain ⟨⟨target, parameters, _⟩, _, matched, rfl⟩ := form_eq_some found
    cases given
    exact fields_ne_nil_of_match? matched trivial text
      (by simp [storedFunction, assignment, Pattern.fields])
  all_goals
    obtain ⟨_, _, _, rfl⟩ := form_eq_some found
    cases given

end Statement

namespace Callable

open Statement

theorem parameters?_statement (callable : Callable) (text : Text) :
    (callable.statement text).parameters? = some text := by
  cases callable <;> rfl

/-- A header is neither blank nor a comment. -/
theorem isRemark_of_line {callable : Callable} (formed : callable.Formed) {line text : Text}
    (spelled : line.strip = callable.line text) : line.isRemark = false := by
  have word {target rest : Text} (letters : Expr.IsWord target)
      (split : line.strip = target ++ rest) : line.isRemark = false := by
    obtain ⟨first, others, rfl⟩ := List.exists_cons_of_ne_nil letters.filled
    have letter := letters.letters first List.mem_cons_self
    rw [Text.isRemark, split]
    refine beq_eq_false_iff_ne.mpr ?_
    rintro rfl
    cases letter
  cases callable with
  | named name result =>
      rw [Text.isRemark, spelled]
      rfl
  | arrow target body => exact word formed.1 spelled
  | closure target => exact word formed spelled

/-! ## Performing a header -/

/-- The parameters of a function. -/
def parameters (text : Text) : Callable → List Parameter
  | named _ _ => Parameter.listOfText text
  | arrow _ _ => Parameter.listOfStoredText text
  | closure _ => Parameter.listOfStoredText text

/-- A parameter of a function. -/
def parameter (source : Text) : Callable → Parameter
  | named _ _ => .ofText source.strip
  | arrow _ _ => .ofStoredText source.strip
  | closure _ => .ofStoredText source.strip

/-- The variable that a function is stored in. -/
def target? : Callable → Option Text
  | named _ _ => none
  | arrow target _ => some target
  | closure target => some target

/-- The line that is written for a function with the written parameters `list` and, if it has one,
the written expression `body`. -/
def header (list body : Text) : Callable → Text
  | named name result =>
    "function ".toList ++ name ++ ['('] ++ list ++ "): ".toList ++ Parameter.spellResult result ++
      " \x7b".toList
  | arrow target _ => '$' :: target ++ " = fn(".toList ++ list ++ ") => ".toList ++ body ++ [';']
  | closure target => '$' :: target ++ " = function(".toList ++ list ++ [')'] ++ " \x7b".toList

/-- What performing the header of a function leaves behind. -/
structure Performed (callable : Callable) (text : Text) (indent : Int) (before after : State)
    (written : List Text) (body : Text) : Prop where
  parameters : (callable.parameters text).mapM (Parameter.write before.names) = .ok written
  lines : after.lines = before.lines ++
    [Text.indentation indent ++ callable.header (Text.join ", ".toList written) body]
  declared : ∀ word, word ∈ after.names.declared ↔ word ∈ before.names.declared ∨
    word ∈ (callable.parameters text).map Parameter.name ∨ callable.target? = some word

theorem mem_foldl_declare {names : Names} {words : List Text} {word : Text} :
    word ∈ (words.foldl Names.declare names).declared ↔ word ∈ names.declared ∨ word ∈ words := by
  induction words generalizing names with
  | nil => simp
  | cons first words ih =>
      rw [List.foldl_cons, ih, Names.declare, List.mem_insert_iff, List.mem_cons]
      tauto

theorem mem_declare_foldl {names : Names} {words : List Text} {target word : Text} :
    word ∈ ((words.foldl Names.declare names).declare target).declared ↔
      word ∈ names.declared ∨ word ∈ words ∨ some target = some word := by
  rw [Names.declare, List.mem_insert_iff, mem_foldl_declare, Option.some.injEq, eq_comm]
  tauto

theorem performed_of_ok {callable : Callable} {text : Text} {indent : Int} {before after : State}
    (done : (callable.statement text).perform indent before = .ok () after) :
    ∃ written body, Performed callable text indent before after written body := by
  have split {parameters : List Parameter} {list : Text}
      (wrote : Parameter.writeList before.names parameters = .ok list) :
      ∃ written, parameters.mapM (Parameter.write before.names) = .ok written ∧
        Text.join ", ".toList written = list := by
    simpa only [Parameter.writeList, Except.bind_eq_ok, Except.pure_eq_ok] using wrote
  cases callable with
  | named name result =>
      simp only [statement, perform, Conversion.openBlock, Conversion.declareAll,
        Conversion.bind_eq_ok, Conversion.withNames_eq_ok, Conversion.modify_eq_ok,
        foldl_declare] at done
      obtain ⟨_, _, ⟨wrote, rfl⟩, _, _, rfl, rfl⟩ := done
      obtain ⟨written, each, rfl⟩ := split wrote
      refine ⟨written, [], each, rfl, fun word => ?_⟩
      refine mem_foldl_declare.trans (or_congr_right (iff_of_eq ?_))
      simp [parameters, target?]
  | arrow target body =>
      simp only [statement, perform, Conversion.emit, Conversion.declare, Conversion.declareAll,
        Conversion.bind_eq_ok, Conversion.withNames_eq_ok, Conversion.expand_eq_ok,
        Conversion.modify_eq_ok, foldl_declare] at done
      obtain ⟨_, _, ⟨wrote, rfl⟩, _, _, rfl, value, _, ⟨_, rfl⟩, _, _, rfl, rfl⟩ := done
      obtain ⟨written, each, rfl⟩ := split wrote
      exact ⟨written, value, each, rfl, fun word => mem_declare_foldl⟩
  | closure target =>
      simp only [statement, perform, Conversion.openBlock, Conversion.declare,
        Conversion.declareAll, Conversion.bind_eq_ok, Conversion.withNames_eq_ok,
        Conversion.modify_eq_ok, foldl_declare] at done
      obtain ⟨_, _, ⟨wrote, rfl⟩, _, _, rfl, _, _, rfl, rfl⟩ := done
      obtain ⟨written, each, rfl⟩ := split wrote
      exact ⟨written, [], each, rfl, fun word => mem_declare_foldl⟩

/-- The parameters of a function are those that are given, one by one. -/
theorem parameters_of_listed (callable : Callable) {sources : List Text} {text : Text}
    (listed : Parameter.Listed sources text) (given : ∀ source ∈ sources, Parameter.Given source) :
    callable.parameters text = sources.map callable.parameter := by
  cases callable with
  | named name result => exact Parameter.listOfText_of_listed listed given
  | arrow target body => exact Parameter.listOfStoredText_of_listed listed given
  | closure target => exact Parameter.listOfStoredText_of_listed listed given

theorem lone_parameter (callable : Callable) {source : Text} (given : Parameter.Given source) :
    (callable.parameter source).Lone := by
  cases callable with
  | named name result => exact Parameter.lone_ofText given.toSingle.strip
  | arrow target body => exact Parameter.lone_ofStoredText given.toSingle.strip
  | closure target => exact Parameter.lone_ofStoredText given.toSingle.strip

/-- Each parameter is written on its own, without a comma. -/
theorem forall₂_of_written (callable : Callable) {names : Names} {sources written : List Text}
    (given : ∀ source ∈ sources, Parameter.Given source)
    (each : (sources.map callable.parameter).mapM (Parameter.write names) = .ok written) :
    List.Forall₂ (fun source part =>
      (callable.parameter source).write names = .ok part ∧ ',' ∉ part) sources written := by
  have pointwise : List.Forall₂ (fun source part =>
      (callable.parameter source).write names = .ok part) sources written := by
    have same := Except.mapM_eq_ok_iff.mp each
    rw [← List.forall₂_eq_eq_eq, List.forall₂_map_left_iff, List.forall₂_map_left_iff,
      List.forall₂_map_right_iff] at same
    exact same
  refine ((List.forall₂_and_left sources written).mpr ⟨given, pointwise⟩).imp ?_
  rintro source part ⟨one, wrote⟩
  exact ⟨wrote, (callable.lone_parameter one).comma_write wrote⟩

/-- The header of a function is performed unless one of its expressions is hollow. -/
theorem performs_iff (callable : Callable) (text : Text) (indent : Int) (state : State) :
    (∃ after, (callable.statement text).perform indent state = .ok () after) ↔
      ∀ expression ∈ (callable.statement text).expressions, ¬Expr.Hollow expression := by
  have other : ∀ condition, callable.statement text ≠ .whileLoop condition := by
    cases callable <;> exact fun _ => nofun
  have needs := Conversion.Needs.perform indent other state
  constructor
  · rintro ⟨after, done⟩ expression mem hollow
    obtain ⟨_, failed⟩ := (needs .emptyFormat).mpr ⟨rfl, expression, mem, hollow⟩
    cases done.symm.trans failed
  · intro whole
    cases result : (callable.statement text).perform indent state with
    | ok _ after => exact ⟨after, rfl⟩
    | error fault after =>
        obtain ⟨_, expression, mem, hollow⟩ := (needs fault).mp ⟨after, result⟩
        exact absurd hollow (whole expression mem)

end Callable

namespace Conversion

open Statement

theorem applies_statement (callable : Callable) (text : Text) (state : State) :
    (callable.statement text).applies state = true := by
  cases callable <;> rfl

/-- The header of a function is read as such and is written with one parameter for each that is
given, exactly if something stands between its parentheses, be it a blank, and none of its
expressions is hollow. -/
theorem function_header_iff (callable : Callable) (formed : callable.Formed) {line text : Text}
    {sources : List Text} (state : State) (unbroken : line.isUnbroken = true)
    (spelled : line.strip = callable.line text) (listed : Parameter.Listed sources text)
    (given : ∀ source ∈ sources, Parameter.Given source) :
    (read? line.strip = some (callable.statement text) ∧
        ∃ written body after, convertLine line state = .ok () after ∧
          after.lines = (state.dedent line.indentOf).lines ++ [Text.indentation line.indentOf ++
            callable.header (Text.join ", ".toList written) body] ∧
          List.Forall₂ (fun source part =>
            (callable.parameter source).write state.names = .ok part ∧ ',' ∉ part)
              sources written) ↔
      text ≠ [] ∧ ∀ expression ∈ (callable.statement text).expressions,
        ¬Expr.Hollow expression := by
  have whole : (callable.line text).isUnbroken = true :=
    spelled ▸ Text.isUnbroken_of_isInfix (Text.strip_isInfix line) unbroken
  have performs (found : read? line.strip = some (callable.statement text)) :
      convertLine line state =
        (callable.statement text).perform line.indentOf (state.dedent line.indentOf) := by
    rw [convertLine_of_isRemark_eq_false (Callable.isRemark_of_line formed spelled)]
    exact convertBody_of_applies found (applies_statement callable text _)
  constructor
  · rintro ⟨found, _, _, after, done, _, _⟩
    rw [performs found] at done
    exact ⟨parameters_ne_nil_of_read? found (callable.parameters?_statement text),
      (callable.performs_iff text _ _).mp ⟨after, done⟩⟩
  · rintro ⟨filled, solid⟩
    have closing := Parameter.closing_of_listed listed given
    have found : read? line.strip = some (callable.statement text) :=
      spelled ▸ Callable.read?_line formed filled closing whole
    obtain ⟨after, done⟩ := (callable.performs_iff text line.indentOf
      (state.dedent line.indentOf)).mpr solid
    obtain ⟨written, body, performed⟩ := Callable.performed_of_ok done
    have each := performed.parameters
    rw [callable.parameters_of_listed listed given, State.dedent_names] at each
    exact ⟨found, written, body, after, (performs found).trans done, performed.lines,
      callable.forall₂_of_written given each⟩

theorem function_header_iff_typed :
    (∃ written body after, convertLine "func f(list a, b = 2 ) int:".toList State.initial =
        .ok () after ∧
      after.lines = [(Callable.named "f".toList "int".toList).header
        (Text.join ", ".toList written) body] ∧ written.length = 2) ∧
    ∃ written body after, convertLine "  g = fn ( ): h(x)".toList State.initial = .ok () after ∧
      after.lines = ["  ".toList ++ (Callable.arrow "g".toList "h(x)".toList).header
        (Text.join ", ".toList written) body] ∧ written = [] := by
  have solid (callable : Callable) (text : Text)
      (returns : ((callable.statement text).perform 0).returns State.initial = true) :
      ∀ expression ∈ (callable.statement text).expressions, ¬Expr.Hollow expression := by
    obtain ⟨_, after, done⟩ := returns_iff.mp returns
    exact (callable.performs_iff text 0 State.initial).mp ⟨after, done⟩
  constructor
  · have given : ∀ source ∈ ["list a".toList, " b = 2 ".toList], Parameter.Given source :=
      List.forall_mem_cons.mpr ⟨⟨⟨by decide, by decide⟩, by decide⟩,
        List.forall_mem_singleton.mpr ⟨⟨by decide, by decide⟩, by decide⟩⟩
    obtain ⟨_, written, body, after, done, lines, each⟩ := (function_header_iff
      (.named "f".toList "int".toList) ⟨by decide, by decide⟩ State.initial (by decide)
      (by decide : Text.strip "func f(list a, b = 2 ) int:".toList =
        (Callable.named "f".toList "int".toList).line "list a, b = 2 ".toList)
      (by decide) given).mpr ⟨by decide, solid _ _ (by decide +kernel)⟩
    exact ⟨written, body, after, done, lines, each.length_eq.symm⟩
  · obtain ⟨_, written, body, after, done, lines, each⟩ := (@function_header_iff
      (.arrow "g".toList "h(x)".toList) ⟨by decide, by decide, rfl⟩ "  g = fn ( ): h(x)".toList
      [' '] [] State.initial (by decide) (by decide) (by decide)
      (fun _ none => absurd none List.not_mem_nil)).mpr ⟨by decide, solid _ _ (by decide +kernel)⟩
    exact ⟨written, body, after, done, lines, List.forall₂_nil_left_iff.mp each⟩

/-- With nothing between the parentheses a named function is an unknown block, and a function that
is stored in a variable is an assigned value. -/
theorem not_header_bare :
    (∃ after, convertLine "func f() int:".toList State.initial = .ok () after ∧
      after.lines = ["func f() int \x7b".toList] ∧ after.blocks = [.unnamed]) ∧
    ∃ after, convertLine "f = fn (): 1".toList State.initial = .ok () after ∧
      after.lines = ["$f = fn (): 1;".toList] := by
  constructor
  · obtain ⟨_, after, done, reached⟩ := passes_iff.mp
      (by decide +kernel : (convertLine "func f() int:".toList).passes (fun _ after =>
        decide (after.lines = ["func f() int \x7b".toList] ∧ after.blocks = [.unnamed]))
          State.initial = true)
    exact ⟨after, done, of_decide_eq_true reached⟩
  · obtain ⟨_, after, done, reached⟩ := passes_iff.mp
      (by decide +kernel : (convertLine "f = fn (): 1".toList).passes (fun _ after =>
        decide (after.lines = ["$f = fn (): 1;".toList])) State.initial = true)
    exact ⟨after, done, of_decide_eq_true reached⟩

end Conversion

end Ephp
