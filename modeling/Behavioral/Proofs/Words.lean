import Mathlib.Data.List.DropRight
import Behavioral.Definition.Line
import Behavioral.Proofs.Runs

/-!
# Words of a line

A text is gaps and words in turn (`words_induction`), so what a line says is the same without the
blanks around it and without its comment: a line that starts with a word has that word and the words
behind it (`Line.words_line`). Whatever stands on a line is a word that can start another
(`Line.isWord_of_mem_words`), and spelled with other letter cases it still is
(`forall_mem_of_sameLetters`).
-/

namespace Behavioral

/-! ### Capitals -/

theorem isAsciiLetter_capital {c : Char} (h : isAsciiLetter c = true) :
    isAsciiLetter (capital c) = true :=
  @forall_letter c (fun c => isAsciiLetter (capital c) = true) (by decide +kernel) h

theorem capital_eq_self {c : Char} (h : isAsciiLetter c = false) : capital c = c := by
  rw [isAsciiLetter, Bool.or_eq_false_iff] at h
  rw [capital, if_neg (Bool.eq_false_iff.1 h.1)]

/-- What is no letter is the capital of nothing else. -/
theorem capital_eq_iff {c d : Char} (hd : isAsciiLetter d = false) : capital c = d ↔ c = d := by
  constructor
  · intro h
    have hc : isAsciiLetter c = false :=
      Bool.eq_false_iff.2 fun hc => Bool.eq_false_iff.1 hd (h ▸ isAsciiLetter_capital hc)
    rwa [capital_eq_self hc] at h
  · rintro rfl
    exact capital_eq_self hd

theorem map_capital_bne {d : Char} (hd : isAsciiLetter d = false) (c : Option Char) :
    (c.map capital != some d) = (c != some d) := by
  cases c with
  | none => rfl
  | some c => simp [bne, Bool.beq_eq_decide_eq, capital_eq_iff hd]

/-- Texts that differ in the case of letters only have the same other characters. -/
theorem forall_mem_of_sameLetters {p : Char → Bool} (hp : ∀ c, p c = true → isAsciiLetter c = false)
    {s t : String} (h : sameLetters s t = true) (ht : ∀ c ∈ t.toList, p c = false) :
    ∀ c ∈ s.toList, p c = false := by
  intro c hc
  by_contra hpc
  have hletter := hp c (Bool.not_eq_false _ ▸ hpc)
  have hmem : capital c ∈ (capitals s).toList := by
    rw [capitals, String.toList_ofList]
    exact List.mem_map_of_mem hc
  rw [beq_iff_eq.1 h, capitals, String.toList_ofList, capital_eq_self hletter] at hmem
  obtain ⟨d, hd, hcd⟩ := List.mem_map.1 hmem
  exact hpc ((capital_eq_iff hletter).1 hcd ▸ ht d hd)

/-! ### Words -/

section splitWords

variable {separator : Char → Bool} {c d : Char} {word tail gap rest cs w : List Char}
  {ws : List (List Char)}

theorem splitWords_separator (hc : separator c = true) :
    splitWords separator (c :: rest) = splitWords separator rest := by
  rw [splitWords.eq_def]
  simp only [if_pos hc]

/-- A character is a word of its own where a separator follows. -/
theorem splitWords_single (hc : separator c = false)
    (hrest : ∀ d ∈ rest.head?, separator d = true) :
    splitWords separator (c :: rest) = [c] :: splitWords separator rest := by
  rw [splitWords.eq_def]
  simp only [if_neg (Bool.eq_false_iff.1 hc)]
  split
  · rename_i d _ _ _ hwords
    rw [if_pos (hrest d rfl), hwords]
  · rfl

/-- A character belongs to the word that follows. -/
theorem splitWords_more (hc : separator c = false) (hd : separator d = false)
    (h : splitWords separator (d :: rest) = w :: ws) :
    splitWords separator (c :: d :: rest) = (c :: w) :: ws := by
  rw [splitWords.eq_def]
  simp only [if_neg (Bool.eq_false_iff.1 hc), h, if_neg (Bool.eq_false_iff.1 hd)]

/-- A word ends where a separator follows. -/
theorem splitWords_word (hword : word ≠ []) (hin : ∀ c ∈ word, separator c = false)
    (htail : ∀ c ∈ tail.head?, separator c = true) :
    splitWords separator (word ++ tail) = word :: splitWords separator tail := by
  induction word with
  | nil => exact absurd rfl hword
  | cons c word ih =>
    obtain ⟨hc, hin⟩ := List.forall_mem_cons.1 hin
    rcases word with _ | ⟨d, word⟩
    · exact splitWords_single hc htail
    · exact splitWords_more hc (hin d List.mem_cons_self) (ih (List.cons_ne_nil d word) hin)

/-- A text is empty, or starts with a separator, or starts with a word and then a separator, if
anything. -/
theorem words_induction {P : List Char → Prop} (separator : Char → Bool) (nil : P [])
    (separated : ∀ c cs, separator c = true → P cs → P (c :: cs))
    (word : ∀ word tail, word ≠ [] → (∀ c ∈ word, separator c = false) →
      (∀ c ∈ tail.head?, separator c = true) → P tail → P (word ++ tail)) (cs : List Char) :
    P cs := by
  induction hlen : cs.length using Nat.strong_induction_on generalizing cs with
  | _ n ih =>
    subst hlen
    rcases cs with _ | ⟨c, cs⟩
    · exact nil
    · by_cases hc : separator c = true
      · exact separated c cs hc (ih _ (Nat.lt_succ_self _) cs rfl)
      · have hc' : (!separator c) = true := by simpa using hc
        have hsplit := List.takeWhile_append_dropWhile (p := (!separator ·)) (l := cs)
        have hword := word (c :: cs.takeWhile (!separator ·)) (cs.dropWhile (!separator ·))
          (List.cons_ne_nil _ _) ?_ ?_ (ih _ ?_ _ rfl)
        · rwa [List.cons_append, hsplit] at hword
        · refine List.forall_mem_cons.2 ⟨by simpa using hc, fun d hd => ?_⟩
          simpa using List.mem_takeWhile_imp hd
        · intro d hd
          simpa using stops_dropWhile (!separator ·) cs d hd
        · exact Nat.lt_succ_of_le (List.length_dropWhile_le _ _)

theorem splitWords_append_of_all (h : ∀ c ∈ gap, separator c = true) :
    splitWords separator (cs ++ gap) = splitWords separator cs := by
  induction cs using words_induction separator with
  | nil =>
    induction gap with
    | nil => rfl
    | cons c gap ih =>
      obtain ⟨hc, hgap⟩ := List.forall_mem_cons.1 h
      exact (splitWords_separator hc).trans (ih hgap)
  | separated c cs hc ih =>
    rw [List.cons_append, splitWords_separator hc, ih, splitWords_separator hc]
  | word word tail hword hin htail ih =>
    have hafter : ∀ c ∈ (tail ++ gap).head?, separator c = true := by
      rcases tail with _ | ⟨d, tail⟩
      · exact fun c hc => h c (List.mem_of_mem_head? hc)
      · exact htail
    rw [List.append_assoc, splitWords_word hword hin hafter, ih, splitWords_word hword hin htail]

theorem length_splitWords_le_one (h : ∀ c ∈ cs, separator c = false) :
    (splitWords separator cs).length ≤ 1 := by
  rcases cs with _ | ⟨c, cs⟩
  · exact Nat.zero_le 1
  · have hwords := @splitWords_word separator (c :: cs) [] (List.cons_ne_nil _ _) h nofun
    rw [List.append_nil] at hwords
    rw [hwords]
    rfl

/-- A word is not empty, and has no separators. -/
theorem mem_splitWords (h : word ∈ splitWords separator cs) :
    word ≠ [] ∧ ∀ c ∈ word, c ∈ cs ∧ separator c = false := by
  induction cs using words_induction separator with
  | nil => cases h
  | separated c cs hc ih =>
    rw [splitWords_separator hc] at h
    exact ⟨(ih h).1, fun d hd => ⟨List.mem_cons_of_mem _ ((ih h).2 d hd).1, ((ih h).2 d hd).2⟩⟩
  | word first tail hfirst hin htail ih =>
    rw [splitWords_word hfirst hin htail] at h
    rcases List.mem_cons.1 h with rfl | h
    · exact ⟨hfirst, fun c hc => ⟨List.mem_append_left _ hc, hin c hc⟩⟩
    · exact ⟨(ih h).1, fun d hd => ⟨List.mem_append_right _ ((ih h).2 d hd).1, ((ih h).2 d hd).2⟩⟩

end splitWords

/-! ### Lines -/

namespace Line

variable {line : Line} {cs indent word rest : List Char}

def isSeparator (c : Char) : Bool :=
  isBlank c || c == ','

/-- Whether no word goes on with a character: a separator, or the start of a comment. -/
def endsWord (c : Char) : Bool :=
  isSeparator c || c == ';'

theorem isAsciiLetter_of_endsWord {c : Char} (h : endsWord c = true) : isAsciiLetter c = false := by
  simp only [endsWord, isSeparator, Bool.or_eq_true, beq_iff_eq] at h
  rcases h with (h | rfl) | rfl
  · exact not_of_isBlank (by decide +kernel) h
  · decide
  · decide

/-- The words of a line that goes on with a text. -/
def wordsBehind (rest : List Char) : List String :=
  words ⟨0, rest.takeWhile (· != ';')⟩

/-- What stands on a line is a word of its own. -/
def IsWord (word : List Char) : Prop :=
  word ≠ [] ∧ ∀ c ∈ word, endsWord c = false

theorem exists_of_mem_keep : ∀ {number : Nat} {lines : List (List Char)},
    line ∈ keep number lines → ∃ cs, line.text = content cs
  | _, [], h => by cases h
  | number, cs :: lines, h => by
    rw [keep] at h
    split at h
    · exact exists_of_mem_keep h
    · rcases List.mem_cons.1 h with rfl | h
      · exact ⟨cs, rfl⟩
      · exact exists_of_mem_keep h

theorem mem_content {c : Char} (h : c ∈ content cs) : c ≠ ';' := by
  have hmem : c ∈ cs.takeWhile (· != ';') := by
    have hdrop := (List.dropWhile_sublist isBlank).subset (List.mem_reverse.1 h)
    exact (List.dropWhile_sublist isBlank).subset (List.mem_reverse.1 hdrop)
  simpa using List.mem_takeWhile_imp hmem

theorem isWord_of_mem_words {name : String} {text : String} (hline : line ∈ ofText text)
    (h : name ∈ line.words) : IsWord name.toList := by
  obtain ⟨cs, hcs⟩ := exists_of_mem_keep hline
  obtain ⟨word, hword, rfl⟩ := List.mem_map.1 h
  obtain ⟨hne, hin⟩ := mem_splitWords hword
  rw [String.toList_ofList]
  refine ⟨hne, fun c hc => ?_⟩
  rw [endsWord, Bool.or_eq_false_iff]
  exact ⟨(hin c hc).2, by simpa using mem_content (hcs ▸ (hin c hc).1)⟩

/-- A line that starts with a word, without its comment and the blanks around it. -/
theorem content_line (hindent : Gap indent) (hword : IsWord word) :
    content (indent ++ word ++ rest) =
      word ++ (rest.takeWhile (· != ';')).rdropWhile isBlank := by
  obtain ⟨hne, hin⟩ := hword
  have hblank : ∀ c ∈ word, isBlank c = false := fun c hc => by
    simp only [endsWord, isSeparator, Bool.or_eq_false_iff] at hin
    exact (hin c hc).1.1
  have hbefore : ∀ c ∈ indent ++ word, (c != ';') = true := by
    intro c hc
    rcases List.mem_append.1 hc with hc | hc
    · simpa using @not_of_isBlank (· == ';') c (by decide) (hindent c hc)
    · have hend := hin c hc
      rw [endsWord, Bool.or_eq_false_iff] at hend
      simpa using hend.2
  have hlead : Stops isBlank (word ++ rest.takeWhile (· != ';')) := by
    intro c hc
    rw [List.head?_append_of_ne_nil _ hne] at hc
    exact hblank c (List.mem_of_mem_head? hc)
  have hlast : Stops isBlank word.reverse := fun c hc =>
    hblank c (List.mem_reverse.1 (List.mem_of_mem_head? hc))
  rw [content, List.takeWhile_append_of_pos hbefore, trimBlanks, List.append_assoc,
    dropWhile_append_of_all hindent hlead, List.reverse_append, List.dropWhile_append]
  split
  · rename_i hnone
    rw [← List.nil_append word.reverse, dropWhile_append_of_all gap_nil hlast, List.reverse_reverse,
      List.rdropWhile, List.isEmpty_iff.1 hnone, List.reverse_nil,
      List.append_nil]
  · rw [List.reverse_append, List.reverse_reverse]
    rfl

/-- The words of a line that starts with a word are that word and those behind it. -/
theorem words_line {number : Nat} (hindent : Gap indent) (hword : IsWord word)
    (hrest : ∀ c ∈ rest.head?, endsWord c = true) :
    words ⟨number, content (indent ++ word ++ rest)⟩ = String.ofList word :: wordsBehind rest := by
  have hsplit : (rest.takeWhile (· != ';')).rdropWhile isBlank ++
      (rest.takeWhile (· != ';')).rtakeWhile isBlank = rest.takeWhile (· != ';') :=
    List.rdropWhile_append_rtakeWhile
  have hbehind : ∀ c ∈ (rest.takeWhile (· != ';')).head?, isSeparator c = true := by
    intro c hc
    rw [List.head?_takeWhile, Option.mem_def, Option.filter_eq_some_iff] at hc
    have hend := hrest c hc.1
    rw [endsWord, Bool.or_eq_true] at hend
    exact hend.resolve_right (by simpa using hc.2)
  have htail : ∀ c ∈ ((rest.takeWhile (· != ';')).rdropWhile isBlank).head?,
      isSeparator c = true := by
    intro c hc
    refine hbehind c ?_
    rw [← hsplit, List.head?_append, Option.mem_def.1 hc]
    rfl
  have hblank : ∀ c ∈ (rest.takeWhile (· != ';')).rtakeWhile isBlank, isSeparator c = true :=
    fun c hc => by rw [isSeparator, List.mem_rtakeWhile_imp hc, Bool.true_or]
  have hin : ∀ c ∈ word, isSeparator c = false := fun c hc =>
    (Bool.or_eq_false_iff.1 (hword.2 c hc)).1
  have hwords : splitWords isSeparator (content (indent ++ word ++ rest)) =
      word :: splitWords isSeparator (rest.takeWhile (· != ';')) := by
    rw [content_line hindent hword, splitWords_word hword.1 hin htail,
      ← splitWords_append_of_all hblank, hsplit]
  exact congrArg (List.map String.ofList) hwords

end Line

end Behavioral
