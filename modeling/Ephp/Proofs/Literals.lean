import Ephp.Proofs.Formatless
import Ephp.Proofs.Reading

/-!
# Closed literals

A quote opens a literal unless a literal is open already, and the next quote of the same kind closes
it.  Where no literal is open, an expression goes on with code up to the next quote.  If this quote
has a partner, a closed literal follows, and otherwise all that is left is code.  The parts of an
expression are exactly these.
-/

namespace Ephp
namespace Expr

/-- The quote of the literal that is open behind a further character. -/
def passQuote : Option Char → Char → Option Char
  | none, char => if isQuote char then some char else none
  | some quote, char => if char = quote then none else some quote

/-- The quote of the literal that is open behind a text. -/
def openQuote (text : Text) : Option Char :=
  text.foldl passQuote none

/-- The text `literal` is a closed literal where it stands behind `front`. -/
def IsLiteral (front literal : Text) : Prop :=
  openQuote front = none ∧ ∃ quote body, isQuote quote = true ∧ quote ∉ body ∧
    literal = quote :: body ++ [quote]

/-- The place between two parts of an expression lies outside of all closed literals. -/
def Outside (before after : Text) : Prop :=
  ∀ front literal back, before ++ after = front ++ literal ++ back → IsLiteral front literal →
    before.length ≤ front.length ∨ (front ++ literal).length ≤ before.length

/-! ## Open quotes -/

section OpenQuote

variable {text more : Text} {quote : Char}

theorem openQuote_append (text more : Text) :
    openQuote (text ++ more) = more.foldl passQuote (openQuote text) :=
  List.foldl_append

theorem openQuote_append_code (closed : openQuote text = none)
    (code : ∀ char ∈ more, isQuote char = false) : openQuote (text ++ more) = none := by
  rw [openQuote_append, closed]
  induction more with
  | nil => rfl
  | cons char more ih =>
      obtain ⟨first, code⟩ := List.forall_mem_cons.mp code
      rw [List.foldl_cons, passQuote, if_neg (by simp [first]), ih code]

/-- A literal is open behind a quote until the quote comes again. -/
theorem openQuote_append_quote (closed : openQuote text = none) (quoted : isQuote quote = true)
    (absent : quote ∉ more) : openQuote (text ++ quote :: more) = some quote := by
  rw [openQuote_append, closed, List.foldl_cons, passQuote, if_pos quoted]
  induction more with
  | nil => rfl
  | cons char more ih =>
      obtain ⟨other, absent⟩ := not_or.mp (mt List.mem_cons.mpr absent)
      rw [List.foldl_cons, passQuote, if_neg (Ne.symm other), ih absent]

theorem IsLiteral.openQuote_eq_none {front literal : Text} (closed : IsLiteral front literal) :
    openQuote (front ++ literal) = none := by
  obtain ⟨before, quote, body, quoted, absent, rfl⟩ := closed
  have inner := openQuote_append_quote before quoted absent
  rw [← List.append_assoc, openQuote_append, inner, List.foldl_cons, passQuote, if_pos rfl]
  rfl

/-- A place lies outside of all closed literals if the literal that is open there, if any, is not
closed behind it. -/
theorem outside_of_openQuote {before after : Text}
    (unclosed : ∀ quote ∈ openQuote before, quote ∉ after) : Outside before after := by
  rintro front literal back split ⟨closed, quote, body, quoted, absent, rfl⟩
  by_contra inside
  obtain ⟨begun, unended⟩ := not_or.mp inside
  obtain ⟨inner, rfl⟩ : List.IsPrefix front before :=
    List.prefix_of_prefix_length_le ⟨_, List.append_assoc _ _ _ ▸ split.symm⟩
      (List.prefix_append before after) (by omega)
  obtain ⟨rest, ended⟩ : List.IsPrefix (front ++ inner) (front ++ (quote :: body ++ [quote])) :=
    List.prefix_of_prefix_length_le (List.prefix_append _ after) ⟨back, split.symm⟩ (by omega)
  rw [← ended, List.append_assoc (front ++ inner)] at split
  rw [List.append_assoc, List.append_cancel_left_eq] at ended
  obtain rfl := List.append_cancel_left split
  -- The place is behind the opening quote and in front of the closing one.
  cases inner with
  | nil => simp at begun
  | cons first inner =>
      rw [List.cons_append, List.cons_append] at ended
      obtain ⟨rfl, ended⟩ := List.cons.inj ended
      rcases List.eq_nil_or_concat rest with rfl | ⟨others, last, rfl⟩
      · have lengths := congrArg List.length ended
        simp at lengths unended
        omega
      · rw [List.concat_eq_append, ← List.append_assoc] at ended
        obtain ⟨rfl, last_eq⟩ := List.append_inj' ended rfl
        obtain rfl : last = first := by simpa using last_eq
        have opened := openQuote_append_quote closed quoted
          fun mem => absent (List.mem_append_left others mem)
        exact unclosed last opened (by simp)

end OpenQuote

/-! ## Code and literals -/

section Parts

variable {code body : Text} {quote : Char}

/-- A stretch of code as the parts of an expression; nothing is no part. -/
def Part.ofCode (code : Text) : List Part :=
  if code = [] then [] else [.code code]

/-- Code in front of a literal, or in front of nothing, is a part of its own. -/
theorem partsFrom_code (plain : ∀ char ∈ code, isQuote char = false) {rest : Text}
    (ends : ∀ text, (partsFrom none rest).head? ≠ some (.code text)) :
    partsFrom none (code ++ rest) = Part.ofCode code ++ partsFrom none rest := by
  induction code with
  | nil => rfl
  | cons char code ih =>
      obtain ⟨first, plain⟩ := List.forall_mem_cons.mp plain
      rw [List.cons_append, partsFrom, if_neg (by simp [first]), ih plain]
      cases code with
      | cons second code => rfl
      | nil =>
          rw [Part.ofCode, if_pos rfl, List.nil_append]
          cases parts_eq : partsFrom none rest with
          | nil => rfl
          | cons part parts =>
              cases part with
              | code text => exact absurd (by rw [parts_eq]; rfl) (ends text)
              | literal text => rfl

/-- A quote without a partner, and all around it, is code. -/
theorem partsFrom_unclosed (plain : ∀ char ∈ code, isQuote char = false)
    (quoted : isQuote quote = true) {rest : Text} (absent : quote ∉ rest) :
    partsFrom none (code ++ quote :: rest) = Part.ofCode (code ++ quote :: rest) := by
  induction code with
  | nil => simp [partsFrom, quoted, absent, Part.ofCode]
  | cons char code ih =>
      obtain ⟨first, plain⟩ := List.forall_mem_cons.mp plain
      rw [List.cons_append, partsFrom, if_neg (by simp [first]), ih plain]
      simp [Part.ofCode, Part.consCode]

theorem partsFrom_inside (absent : quote ∉ body) (rest : Text) :
    partsFrom (some quote) (body ++ quote :: rest) =
      .literal (body ++ [quote]) :: partsFrom none rest := by
  induction body with
  | nil => simp [partsFrom]
  | cons char body ih =>
      obtain ⟨other, absent⟩ := not_or.mp (mt List.mem_cons.mpr absent)
      rw [List.cons_append, partsFrom, if_neg (Ne.symm other), ih absent]
      rfl

theorem partsFrom_literal (quoted : isQuote quote = true) (absent : quote ∉ body) (rest : Text) :
    partsFrom none ((quote :: body ++ [quote]) ++ rest) =
      .literal (quote :: body ++ [quote]) :: partsFrom none rest := by
  have split : (quote :: body ++ [quote]) ++ rest = quote :: (body ++ quote :: rest) := by simp
  rw [split, partsFrom, if_pos quoted, if_pos (by simp), partsFrom_inside absent]
  rfl

theorem partsFrom_code_literal (plain : ∀ char ∈ code, isQuote char = false)
    (quoted : isQuote quote = true) (absent : quote ∉ body) (rest : Text) :
    partsFrom none (code ++ ((quote :: body ++ [quote]) ++ rest)) =
      Part.ofCode code ++ .literal (quote :: body ++ [quote]) :: partsFrom none rest := by
  have behind := partsFrom_literal quoted absent rest
  rw [partsFrom_code plain (by rw [behind]; simp), behind]

/-- Induction along the parts of an expression. -/
theorem parts_induct {motive : Text → Prop}
    (ending : ∀ text, (∀ char ∈ text, isQuote char = false) → motive text)
    (unclosed : ∀ code quote rest, (∀ char ∈ code, isQuote char = false) → isQuote quote = true →
      quote ∉ rest → motive (code ++ quote :: rest))
    (closed : ∀ code quote body rest, (∀ char ∈ code, isQuote char = false) →
      isQuote quote = true → quote ∉ body → motive rest →
        motive (code ++ ((quote :: body ++ [quote]) ++ rest))) (text : Text) : motive text := by
  generalize size : text.length = length
  induction length using Nat.strongRecOn generalizing text with
  | _ length ih =>
      cases found : text.find? isQuote with
      | none => exact ending text (by simpa using List.find?_eq_none.mp found)
      | some quote =>
          obtain ⟨quoted, code, rest, rfl, plain⟩ := List.find?_eq_some_iff_append.mp found
          have plain : ∀ char ∈ code, isQuote char = false := by simpa using plain
          by_cases partner : quote ∈ rest
          · obtain ⟨body, back, rfl, absent⟩ := List.eq_append_cons_of_mem partner
            have shorter : back.length < length := by
              simp at size
              omega
            have motive_back := closed code quote body back plain quoted absent
              (ih back.length shorter back rfl)
            simpa using motive_back
          · exact unclosed code quote rest plain quoted partner

end Parts

end Expr
end Ephp
