import Behavioral.Definition.Library
import Behavioral.Proofs.Casing

/-!
# Letter case in definitions

Lines and words are taken apart in the same places whatever the case of their letters, and a word
says the same in any case: which operand it is, which literal, which label it defines and what it
counts.
-/

namespace Behavioral

variable {f : Char → Char} {w w' : String}

/-! ### Lines -/

theorem splitWords_recase {separator : Char → Bool} (hp : ∀ c, separator (f c) = separator c)
    (cs : List Char) :
    splitWords separator (cs.map f) = (splitWords separator cs).map (List.map f) := by
  induction cs using words_induction separator with
  | nil => rfl
  | separated c cs hc ih =>
    rw [List.map_cons, splitWords_separator (hp c ▸ hc), ih, splitWords_separator hc]
  | word word tail hword hin htail ih =>
    have hin' : ∀ c ∈ word.map f, separator c = false := by
      simpa only [List.forall_mem_map, hp] using hin
    have htail' : ∀ c ∈ (tail.map f).head?, separator c = true := by
      rw [List.head?_map]
      intro c' hc'
      obtain ⟨c, hc, rfl⟩ := Option.mem_map.1 hc'
      exact (hp c).trans (htail c hc)
    rw [List.map_append, splitWords_word (by simpa using hword) hin' htail', ih,
      splitWords_word hword hin htail, List.map_cons]

namespace Line

theorem splitLines_recase (hf : Recases f) (cs : List Char) :
    splitLines (cs.map f) = (splitLines cs).map (List.map f) := by
  induction cs with
  | nil => rfl
  | cons c cs ih =>
    rw [List.map_cons, splitLines, splitLines, hf.beq (by decide), ih]
    split
    · rfl
    · rcases splitLines cs with _ | ⟨line, lines⟩ <;> rfl

theorem content_recase (hf : Recases f) (cs : List Char) :
    content (cs.map f) = (content cs).map f := by
  have hcode : ∀ c, (f c != ';') = (c != ';') := fun c => by
    rw [bne, hf.beq (by decide), bne]
  rw [content, content, trimBlanks, trimBlanks, takeWhile_recase hcode,
    dropWhile_recase hf.isBlank, ← List.map_reverse, dropWhile_recase hf.isBlank, List.map_reverse]

theorem isSkipped_recase (hf : Recases f) (cs : List Char) :
    isSkipped (cs.map f) = isSkipped cs := by
  cases cs with
  | nil => rfl
  | cons c cs => exact hf.beq (by decide) c

end Line

/-! ### Words -/

/-- What is the same for a word in capitals is the same for all its spellings. -/
theorem eq_of_capitals {α : Type} {g : String → α} (hg : ∀ w, g (capitals w) = g w)
    (h : capitals w = capitals w') : g w = g w' := by
  rw [← hg w, h, hg w']

/-- What a word counts, which may have a plus in front. -/
def Opening.counted? (w : String) : Option Nat :=
  indexOf? (match w.toList with
    | '+' :: rest => rest
    | rest => rest)

theorem Opening.count_eq (number : Nat) (key w : String) : Opening.count number key w =
    (Opening.counted? w).elim (Opening.fail (.badCount number key w)) .ok := by
  simp only [Opening.count, Opening.counted?]
  generalize indexOf? _ = found
  cases found <;> rfl

section Recased

variable (hf : Recases f)
include hf

theorem sameLetters_recase (w t : String) : sameLetters (recase f w) t = sameLetters w t := by
  rw [sameLetters, recase, hf.capitals, String.ofList_toList, sameLetters]

theorem indexOf?_recase (cs : List Char) : indexOf? (cs.map f) = indexOf? cs := by
  have hall : (cs.map f).all isAsciiDigit = cs.all isAsciiDigit := by
    rw [List.all_map, show isAsciiDigit ∘ f = isAsciiDigit from funext hf.isAsciiDigit]
  cases hdigits : cs.all isAsciiDigit with
  | true =>
    rw [hf.map_eq_self fun c hc => Bool.eq_false_iff.2 fun hletter => ?_]
    have hdigit := List.all_eq_true.1 hdigits c hc
    rw [isAsciiDigit_of_isAsciiLetter hletter] at hdigit
    cases hdigit
  | false => simp [indexOf?, hall, hdigits]

theorem counted?_recase (w : String) :
    Opening.counted? (recase f w) = Opening.counted? w := by
  rw [Opening.counted?, recase, String.toList_ofList, Opening.counted?]
  rcases w.toList with _ | ⟨c, rest⟩
  · rfl
  · by_cases hplus : c = '+'
    · subst hplus
      rw [List.map_cons, hf.eq_self (by decide)]
      exact indexOf?_recase hf rest
    · have hplus' : f c ≠ '+' := mt (hf.eq_iff (by decide)).1 hplus
      simpa [hplus, hplus'] using indexOf?_recase hf (c :: rest)

theorem head?_recase {d : Char} (hd : isAsciiLetter d = false) (w : String) :
    ((recase f w).toList.head? == some d) = (w.toList.head? == some d) := by
  rw [recase, String.toList_ofList]
  rcases w.toList with _ | ⟨c, rest⟩
  · rfl
  · exact hf.beq hd c

theorem ofWord?_recase (w : String) : Operand.ofWord? (recase f w) = Operand.ofWord? w := by
  have hletter (c : Char) (n : Nat) : Operand.ofLetter? (f c) n = Operand.ofLetter? c n := by
    rw [Operand.ofLetter?, hf c, Operand.ofLetter?]
  rw [Operand.ofWord?, sameLetters_recase hf, sameLetters_recase hf, recase, String.toList_ofList,
    Operand.ofWord?]
  rcases w.toList with _ | ⟨c, digits⟩
  · rfl
  · rw [List.map_cons]
    simp only [indexOf?_recase hf]
    rcases indexOf? digits with _ | n
    · rfl
    · simp only [Option.bind_some, hletter]

/-- The single number among what is read of a text. -/
def soleNumber : List Token × Option String → Option Float
  | ([.number x], none) => some x
  | _ => none

omit hf in
theorem onlyNumber?_eq (cs : List Char) :
    onlyNumber? cs = soleNumber (Scanner.outcome (Scanner.read ({} : Settings).ambientTemperature
      ⟨0, cs⟩)) := by
  rw [onlyNumber?, tokenize, Cursor.ofString, String.toList_ofList]
  rcases Scanner.read ({} : Settings).ambientTemperature ⟨0, cs⟩ with
    ⟨_ | ⟨⟨start, _ | _ | _, stop⟩, _ | ⟨t, ts⟩⟩, _ | ⟨fault, c⟩⟩ <;> rfl

theorem onlyNumber?_recase (cs : List Char) : onlyNumber? (cs.map f) = onlyNumber? cs := by
  have hskip : (Cursor.skipRun isBlank ⟨0, cs.map f⟩).rest =
      (Cursor.skipRun isBlank ⟨0, cs⟩).rest.map f := dropWhile_recase hf.isBlank cs
  rw [onlyNumber?_eq, onlyNumber?_eq, outcome_read_recase hf hskip]
  rcases Scanner.outcome (Scanner.read ({} : Settings).ambientTemperature ⟨0, cs⟩) with
    ⟨_ | ⟨_ | _ | _, _ | ⟨v, vs⟩⟩, _ | code⟩ <;> rfl

theorem literal?_recase (w : String) : literal? (recase f w) = literal? w := by
  rw [literal?, recase, String.toList_ofList, literal?]
  rcases w.toList with _ | ⟨c, rest⟩
  · exact onlyNumber?_recase hf []
  · by_cases hminus : c = '-'
    · subst hminus
      rw [List.map_cons, hf.eq_self (by decide)]
      exact congrArg (Option.map (-1 * ·)) (onlyNumber?_recase hf rest)
    · by_cases hplus : c = '+'
      · subst hplus
        rw [List.map_cons, hf.eq_self (by decide)]
        exact onlyNumber?_recase hf rest
      · have hminus' : f c ≠ '-' := mt (hf.eq_iff (by decide)).1 hminus
        have hplus' : f c ≠ '+' := mt (hf.eq_iff (by decide)).1 hplus
        simpa [hminus, hplus, hminus', hplus'] using onlyNumber?_recase hf (c :: rest)

theorem label?_recase (w : String) :
    Draft.label? (recase f w) = (Draft.label? w).map (recase f) := by
  rw [Draft.label?, recase, String.toList_ofList, ← List.map_reverse, Draft.label?]
  rcases w.toList.reverse with _ | ⟨c, rest⟩
  · rfl
  · by_cases hcolon : c = ':'
    · subst hcolon
      rw [List.map_cons, hf.eq_self (by decide)]
      simp [recase]
    · have hcolon' : f c ≠ ':' := mt (hf.eq_iff (by decide)).1 hcolon
      simp [hcolon, hcolon']

theorem assignment?_recase (w : String) : Opening.assignment? (recase f w) =
    (Opening.assignment? w).map (Prod.map (recase f) (recase f)) := by
  have hequals : ∀ c, (f c != '=') = (c != '=') := fun c => by
    rw [bne, hf.beq (by decide), bne]
  rw [Opening.assignment?, recase, String.toList_ofList, takeWhile_recase hequals, List.length_map,
    ← List.map_drop, Opening.assignment?]
  rcases w.toList.drop (w.toList.takeWhile (· != '=')).length with _ | ⟨c, value⟩
  · rfl
  · simp [recase]

end Recased

end Behavioral
