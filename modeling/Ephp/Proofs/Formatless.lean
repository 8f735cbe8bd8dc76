import Ephp.Proofs.Outcome

/-!
# Sources without format texts

Only format texts make an expansion fail.  Converting the calls of an expression cannot make it a
format text, and so the expressions of a source without format texts can all be expanded.
-/

namespace Ephp

theorem Except.exists_mapM {ε α β : Type} {action : α → Except ε β} {items : List α}
    (each : ∀ item ∈ items, ∃ answer, action item = .ok answer) :
    ∃ answers, items.mapM action = .ok answers := by
  induction items with
  | nil => exact ⟨[], rfl⟩
  | cons item items ih =>
      obtain ⟨first, each⟩ := List.forall_mem_cons.mp each
      obtain ⟨answer, one⟩ := first
      obtain ⟨answers, others⟩ := ih each
      refine ⟨answer :: answers, ?_⟩
      rw [List.mapM_cons, one, others]
      rfl

namespace Text

/-- No quoted text is marked as a format text. -/
def Formatless (text : Text) : Prop :=
  ¬List.IsInfix "f\"".toList text ∧ ¬List.IsInfix "f'".toList text

instance (text : Text) : Decidable (Formatless text) :=
  inferInstanceAs (Decidable (_ ∧ _))

theorem Formatless.of_isInfix {text piece : Text} (formatless : Formatless text)
    (stands : List.IsInfix piece text) : Formatless piece :=
  ⟨fun found => formatless.1 (found.trans stands), fun found => formatless.2 (found.trans stands)⟩

theorem Formatless.body?_eq_none {text : Text} (formatless : Formatless text) :
    Format.body? text = none := by
  unfold Format.body?
  split
  · exact absurd (List.prefix_append ['f', '"'] _).isInfix formatless.1
  · exact absurd (List.prefix_append ['f', '\''] _).isInfix formatless.2
  · rfl

/-- A substitution applies its rule to the front of a text or copies the first character. -/
theorem substitute_cons (rule : Text → Option (Text × Text)) (char : Char) (rest : Text) :
    (∃ written behind more, rule (char :: rest) = some (written, behind) ∧
      substitute rule (char :: rest) = written ++ more) ∨
        substitute rule (char :: rest) = char :: substitute rule rest := by
  rw [substitute, substituteAfter]
  split
  · rename_i written behind applied
    split
    · exact .inl ⟨written, behind, _, applied, rfl⟩
    · exact .inr rfl
  · exact .inr rfl

/-- A substitution whose rule applies nowhere changes nothing. -/
theorem substitute_eq_self {rule : Text → Option (Text × Text)} {text : Text}
    (idle : ∀ rest, List.IsSuffix rest text → rule rest = none) : substitute rule text = text := by
  induction text with
  | nil => rfl
  | cons char rest ih =>
      rcases substitute_cons rule char rest with ⟨_, _, _, applied, _⟩ | same
      · simp [idle _ (List.suffix_refl _)] at applied
      · rw [same, ih fun behind stands => idle behind (stands.trans (List.suffix_cons char rest))]

end Text

namespace Format

open Ephp.Expr (isQuote)

theorem body?_cons_cons (first second : Char) (rest : Text) (plain : isQuote second = false) :
    body? (first :: second :: rest) = none := by
  unfold body?
  split
  · simp_all [isQuote]
  · simp_all [isQuote]
  · rfl

/-- A substitution that writes no quotes in front makes no format text. -/
theorem body?_substitute {rule : Text → Option (Text × Text)}
    (plain : ∀ text written behind, rule text = some (written, behind) →
      ∃ first second rest, written = first :: second :: rest ∧ isQuote first = false ∧
        isQuote second = false)
    {text : Text} (before : body? text = none) : body? (Text.substitute rule text) = none := by
  cases text with
  | nil => rfl
  | cons first text =>
      rcases Text.substitute_cons rule first text with ⟨_, _, more, applied, same⟩ | same
      · obtain ⟨_, second, rest, rfl, _, quoteless⟩ := plain _ _ _ applied
        rw [same]
        exact body?_cons_cons _ second _ quoteless
      · rw [same]
        cases text with
        | nil => simp [Text.substitute, Text.substituteAfter, body?]
        | cons second text =>
            rcases Text.substitute_cons rule second text with ⟨_, _, more, applied, same⟩ | same
            · obtain ⟨next, _, rest, rfl, quoteless, _⟩ := plain _ _ _ applied
              rw [same]
              exact body?_cons_cons first next _ quoteless
            · rw [same]
              by_cases quoteless : isQuote second = false
              · exact body?_cons_cons first second _ quoteless
              · revert before
                unfold body?
                split <;> simp_all

end Format

namespace Expr

theorem isQuote_of_isWordChar {char : Char} (word : Text.isWordChar char = true) :
    isQuote char = false := by
  simp only [isQuote, Bool.or_eq_false_iff, beq_eq_false_iff_ne]
  constructor
  · rintro rfl
    exact absurd word (by decide)
  · rintro rfl
    exact absurd word (by decide)

theorem body?_convertCalls {text : Text} (plain : Format.body? text = none) :
    Format.body? (convertCalls text) = none := by
  have respelled (old : Text) {first second : Char} {rest text : Text}
      (first_plain : isQuote first = false) (second_plain : isQuote second = false)
      (before : Format.body? text = none) :
      Format.body? (Text.replace old (first :: second :: rest) text) = none := by
    refine Format.body?_substitute (fun _ written _ applied => ?_) before
    simp only [Option.map_eq_some_iff, Prod.mk.injEq] at applied
    obtain ⟨_, _, rfl, _⟩ := applied
    exact ⟨first, second, rest, rfl, first_plain, second_plain⟩
  have split : Format.body? (convertSplit text) = none := by
    refine Format.body?_substitute (fun _ written _ applied => ?_) plain
    simp only [Pattern.rule, Option.map_eq_some_iff, Prod.mk.injEq] at applied
    obtain ⟨_, _, rfl, _⟩ := applied
    exact ⟨'e', 'x', _, rfl, rfl, rfl⟩
  have stripped : Format.body? (convertStrip (convertSplit text)) = none := by
    refine Format.body?_substitute (fun _ written _ applied => ?_) split
    simp only [Pattern.rule, Option.map_eq_some_iff, Prod.mk.injEq] at applied
    obtain ⟨_, _, rfl, _⟩ := applied
    exact ⟨'t', 'r', _, rfl, rfl, rfl⟩
  have appended : Format.body? (convertAppend (convertStrip (convertSplit text))) = none := by
    refine Format.body?_substitute (fun _ written _ applied => ?_) stripped
    simp only [Pattern.rule, methodCall, Pattern.match?, Option.map_eq_some_iff, Prod.mk.injEq]
      at applied
    obtain ⟨_, ⟨⟨subject, _⟩, cut, rfl⟩, rfl, _⟩ := applied
    obtain ⟨first, rest, rfl, first_word, rest_word⟩ := Span.headed_of_cut? cut
    cases rest with
    | nil => exact ⟨first, '[', _, rfl, isQuote_of_isWordChar first_word, rfl⟩
    | cons second rest =>
        exact ⟨first, second, _, rfl, isQuote_of_isWordChar first_word,
          isQuote_of_isWordChar (rest_word second (by simp))⟩
  exact respelled _ rfl rfl (respelled _ rfl rfl (respelled _ rfl rfl appended))

/-- An expression that is no format text can be expanded. -/
theorem exists_expand {text : Text} (plain : Format.body? text = none) (names : Names) :
    ∃ written, expand names text = .ok written := by
  rw [expand_eq, body?_convertCalls plain]
  exact ⟨_, rfl⟩

theorem exists_expandValue {text : Text} (formatless : text.Formatless) (names : Names) :
    ∃ written, expandValue names text = .ok written := by
  have piece {part : Text} (stands : List.IsInfix part text) :
      ∃ written, expand names part = .ok written :=
    exists_expand (formatless.of_isInfix stands).body?_eq_none names
  have stripped := Text.strip_isInfix text
  unfold expandValue expandStripped
  cases list : enclosed? '[' ']' text.strip with
  | some inner =>
      obtain ⟨elements, each⟩ := Except.exists_mapM fun item mem => piece
        ((Text.infix_of_mem_items mem).trans ((enclosed?_isInfix list).trans stripped))
      refine ⟨['['] ++ Text.join ", ".toList elements ++ [']'], ?_⟩
      simp only [expandList, Except.bind_eq_ok, Except.pure_eq_ok]
      exact ⟨elements, each, rfl⟩
  | none =>
      cases dictionary : enclosed? '{' '}' text.strip with
      | some inner =>
          obtain ⟨entries, each⟩ : ∃ entries,
              (inner.items.filterMap (Text.splitFirst? ':')).mapM (expandEntry names) =
                .ok entries := by
            refine Except.exists_mapM fun entry mem => ?_
            obtain ⟨item, item_mem, cut⟩ := List.mem_filterMap.mp mem
            have value : List.IsInfix entry.2 item :=
              ⟨entry.1 ++ [':'], [], by simp [Text.splitFirst?_eq_some cut]⟩
            obtain ⟨written, expanded⟩ := piece ((Text.strip_isInfix entry.2).trans (value.trans
              ((Text.infix_of_mem_items item_mem).trans ((enclosed?_isInfix dictionary).trans
                stripped))))
            refine ⟨['\''] ++ unquoted entry.1 ++ "' => ".toList ++ written, ?_⟩
            simp only [expandEntry, Except.bind_eq_ok, Except.pure_eq_ok]
            exact ⟨written, expanded, rfl⟩
          refine ⟨['['] ++ Text.join ", ".toList entries ++ [']'], ?_⟩
          simp only [expandDictionary, Except.bind_eq_ok, Except.pure_eq_ok]
          exact ⟨entries, each, rfl⟩
      | none =>
          simp only
          split
          · exact ⟨_, rfl⟩
          · exact piece stripped

end Expr

namespace Parameter

theorem exists_writeList {text : Text} (formatless : text.Formatless) {parameters : List Parameter}
    (taken : ∀ parameter ∈ parameters, TakenFrom text parameter) (names : Names) :
    ∃ written, writeList names parameters = .ok written := by
  obtain ⟨texts, each⟩ : ∃ texts, parameters.mapM (write names) = .ok texts := by
    refine Except.exists_mapM fun parameter mem => ?_
    unfold write
    cases default_eq : parameter.default with
    | none => exact ⟨_, rfl⟩
    | some value =>
        have stands := (taken parameter mem).default value default_eq
        obtain ⟨written, expanded⟩ :=
          Expr.exists_expand (formatless.of_isInfix stands).body?_eq_none names
        simp only [Except.bind_eq_ok, Except.pure_eq_ok]
        exact ⟨_, written, expanded, rfl⟩
  refine ⟨Text.join ", ".toList texts, ?_⟩
  simp only [writeList, Except.bind_eq_ok, Except.pure_eq_ok]
  exact ⟨texts, each, rfl⟩

end Parameter
end Ephp
