import Behavioral.Proofs.NumberTexts
import Behavioral.Text.Json
import Behavioral.Text.JsonReader

/-!
# The texts of data

What follows a value in a JSON text is told from the value, so texts that start alike hold the same
values up to there (`text_append`). Data written as the same text are the same but for numbers that
are not finite, which are written as nothing (`text_eq_iff`).
-/

namespace Behavioral

/-! ### Strings -/

namespace Quoted

open JsonReader

/-- The character that a unit of a string stands for. -/
def unitChar : Unit16 → Char
  | .char c => c
  | .escaped code => Char.ofNat code

theorem hexCode_hexDigit : ∀ n < 0x20,
    hexCode? '0' '0' (hexDigit (n / 16)) (hexDigit (n % 16)) = some n := by
  decide

theorem string_letter {letter c : Char} (h : escapeLetter? letter = some c) (hu : letter ≠ 'u')
    (rest : List Char) :
    string? ('\\' :: letter :: rest) = (string? rest).map fun p => (.char c :: p.1, p.2) := by
  rw [string?]
  · rw [h]
    cases string? rest <;> rfl
  · exact fun _ _ _ _ _ heq _ => hu heq

/-- An escaped character is read as one unit, which stands for it. -/
theorem string_escape (c : Char) : ∃ unit, unitChar unit = c ∧
    ∀ rest, string? (escape c ++ rest) = (string? rest).map fun p => (unit :: p.1, p.2) := by
  unfold escape
  split
  · next h => exact ⟨.char '"', (eq_of_beq h).symm, string_letter rfl (by decide)⟩
  split
  · next h => exact ⟨.char '\\', (eq_of_beq h).symm, string_letter rfl (by decide)⟩
  split
  · next h => exact ⟨.char '\x08', (eq_of_beq h).symm, string_letter rfl (by decide)⟩
  split
  · next h => exact ⟨.char '\x0c', (eq_of_beq h).symm, string_letter rfl (by decide)⟩
  split
  · next h => exact ⟨.char '\n', (eq_of_beq h).symm, string_letter rfl (by decide)⟩
  split
  · next h => exact ⟨.char '\r', (eq_of_beq h).symm, string_letter rfl (by decide)⟩
  split
  · next h => exact ⟨.char '\t', (eq_of_beq h).symm, string_letter rfl (by decide)⟩
  split
  · next h =>
    refine ⟨.escaped c.toNat, Char.ofNat_toNat c, fun rest => ?_⟩
    simp only [List.cons_append, List.nil_append]
    rw [string?, hexCode_hexDigit _ h]
    cases string? rest <;> rfl
  · next hquote hslash _ _ _ _ _ hspace =>
    refine ⟨.char c, rfl, fun rest => ?_⟩
    have hquote : c ≠ '"' := by simpa using hquote
    have hslash : c ≠ '\\' := by simpa using hslash
    rw [List.singleton_append, string?]
    · rw [if_neg (by simp [hspace, hslash])]
      cases string? rest <;> rfl
    · exact hquote
    · exact fun _ _ _ _ _ heq _ => hslash heq
    · exact fun _ _ heq _ => hslash heq

theorem string_flatMap (cs rest : List Char) :
    ∃ units, units.map unitChar = cs ∧
      string? (cs.flatMap escape ++ '"' :: rest) = some (units, rest) := by
  induction cs with
  | nil => exact ⟨[], rfl, by simp [string?]⟩
  | cons c cs ih =>
    obtain ⟨units, hunits, hread⟩ := ih
    obtain ⟨unit, hunit, hescape⟩ := string_escape c
    refine ⟨unit :: units, by rw [List.map_cons, hunit, hunits], ?_⟩
    rw [List.flatMap_cons, List.append_assoc, hescape, hread]
    rfl

/-- A quoted string ends at its own closing quote. -/
theorem text_append {s t : String} {xs ys : List Char}
    (h : (text s).toList ++ xs = (text t).toList ++ ys) : s = t ∧ xs = ys := by
  obtain ⟨units, hs, hread⟩ := string_flatMap s.toList xs
  obtain ⟨units', ht, hread'⟩ := string_flatMap t.toList ys
  have h : s.toList.flatMap escape ++ '"' :: xs = t.toList.flatMap escape ++ '"' :: ys := by
    simpa [text] using h
  rw [h, hread', Option.some.injEq, Prod.mk.injEq] at hread
  obtain ⟨rfl, rfl⟩ := hread
  exact ⟨String.toList_inj.1 (hs.symm.trans ht), rfl⟩

end Quoted

namespace Json

/-! ### What is printed -/

mutual

/-- The data with nothing for the numbers that are not finite. -/
def printed : Json → Json
  | number x => if x.isFinite then number x else null
  | array items => array (printedItems items)
  | object fields => object (printedFields fields)
  | data => data

def printedItems : List Json → List Json
  | [] => []
  | item :: rest => item.printed :: printedItems rest

def printedFields : List (String × Json) → List (String × Json)
  | [] => []
  | (key, value) :: rest => (key, value.printed) :: printedFields rest

end

@[simp] theorem printed_bool (b : Bool) : (bool b).printed = bool b := rfl

@[simp] theorem printed_integer (n : Int) : (integer n).printed = integer n := rfl

@[simp] theorem printed_string (s : String) : (string s).printed = string s := rfl

@[simp] theorem printed_object (fields : List (String × Json)) :
    (object fields).printed = object (printedFields fields) := rfl

@[simp] theorem printedFields_nil : printedFields [] = [] := rfl

@[simp] theorem printedFields_cons (key : String) (value : Json) (rest : List (String × Json)) :
    printedFields ((key, value) :: rest) = (key, value.printed) :: printedFields rest := rfl

/-- What follows the first item of an array. -/
def itemsTail : List Json → String
  | [] => ""
  | item :: rest => "," ++ itemsText (item :: rest)

/-- What follows the first field of an object. -/
def fieldsTail : List (String × Json) → String
  | [] => ""
  | field :: rest => "," ++ fieldsText (field :: rest)

theorem itemsText_cons (item : Json) (rest : List Json) :
    itemsText (item :: rest) = item.text ++ itemsTail rest := by
  cases rest with
  | nil => exact (String.append_empty).symm
  | cons next rest =>
    rw [itemsText, itemsTail, String.append_assoc]
    nofun

theorem fieldsText_cons (key : String) (value : Json) (rest : List (String × Json)) :
    fieldsText ((key, value) :: rest) =
      Quoted.text key ++ ":" ++ value.text ++ fieldsTail rest := by
  cases rest with
  | nil => exact (String.append_empty).symm
  | cons next rest =>
    rw [fieldsText, fieldsTail, ← String.append_assoc]
    nofun

mutual

/-- Data that differ only in numbers that are not finite have the same text. -/
theorem text_printed : ∀ a : Json, a.printed.text = a.text
  | null | bool _ | integer _ | string _ => rfl
  | number x => by
    unfold printed
    split
    · rfl
    · next h => exact (numberLayout.text_not_finite (Bool.eq_false_iff.2 h)).symm
  | array items => by
    rw [printed, text, text, itemsText_printed items]
  | object fields => by
    rw [printed, text, text, fieldsText_printed fields]

theorem itemsText_printed : ∀ items : List Json, itemsText (printedItems items) = itemsText items
  | [] => rfl
  | item :: rest => by
    have htail : itemsTail (printedItems rest) = itemsTail rest := by
      have h := itemsText_printed rest
      cases rest with
      | nil => rfl
      | cons next rest => exact congrArg ("," ++ ·) h
    rw [printedItems, itemsText_cons, itemsText_cons, text_printed item, htail]

theorem fieldsText_printed : ∀ fields : List (String × Json),
    fieldsText (printedFields fields) = fieldsText fields
  | [] => rfl
  | (key, value) :: rest => by
    have htail : fieldsTail (printedFields rest) = fieldsTail rest := by
      have h := fieldsText_printed rest
      cases rest with
      | nil => rfl
      | cons next rest => exact congrArg ("," ++ ·) h
    rw [printedFields, fieldsText_cons, fieldsText_cons, text_printed value, htail]

end

/-! ### Words -/

open Numeral

/-- What is written without quotes or brackets: the named values, and the numbers that are
finite. -/
inductive Word : Json → Prop where
  | null : Word null
  | bool (b : Bool) : Word (bool b)
  | integer (n : Int) : Word (integer n)
  | number {x : Float} (h : x.isFinite = true) : Word (number x)

inductive WordKind where
  | named
  | integer
  | number
deriving DecidableEq

def wordKind : Json → WordKind
  | integer _ => .integer
  | number _ => .number
  | _ => .named

/-- A word that starts with a letter is a name, and a number that is no integer has a point or a
power of ten. -/
def kindOfText (cs : List Char) : WordKind :=
  if cs.head?.any isAsciiLetter then .named
  else if '.' ∈ cs ∨ 'e' ∈ cs then .number
  else .integer

variable {a b : Json} {negative : Bool} {cs : List Char}

theorem text_integer (n : Int) : ∃ negative : Bool, (integer n).text.toList =
    (if negative then ['-'] else []) ++ Nat.toDigits 10 n.natAbs := by
  cases n with
  | ofNat m => exact ⟨false, String.toList_ofList⟩
  | negSucc m =>
    refine ⟨true, ?_⟩
    have h : (integer (.negSucc m)).text = "-" ++ (m + 1).repr := rfl
    rw [h, String.toList_append, if_pos rfl]
    exact congrArg (['-'] ++ ·) String.toList_ofList

/-- A text that starts with a digit, behind a sign or not, is no name. -/
theorem kindOfText_signed {c : Char} {rest : List Char} (hc : isAsciiDigit c = true) :
    kindOfText ((if negative then ['-'] else []) ++ c :: rest) =
      if '.' ∈ c :: rest ∨ 'e' ∈ c :: rest then .number else .integer := by
  have hletter : isAsciiLetter c = false :=
    Bool.eq_false_iff.2 fun h => by simp [isAsciiDigit_of_isAsciiLetter h] at hc
  cases negative
  · simp [kindOfText, hletter]
  · simp [kindOfText, isAsciiLetter]

theorem continuesNumber_signed (h : ∀ c ∈ cs, continuesNumber c = true) :
    ∀ c ∈ (if negative then ['-'] else []) ++ cs, continuesNumber c = true := by
  cases negative
  · exact h
  · exact List.forall_mem_cons.2 ⟨rfl, h⟩

theorem Word.kindOfText (h : Word a) : kindOfText a.text.toList = a.wordKind := by
  cases h with
  | null => decide +kernel
  | bool b => cases b <;> decide +kernel
  | integer n =>
    obtain ⟨negative, hn⟩ := text_integer n
    have hdigits := digits_toDigits n.natAbs
    have hne : Nat.toDigits 10 n.natAbs ≠ [] := Nat.toDigits_ne_nil
    obtain ⟨c, rest, hc⟩ := List.exists_cons_of_ne_nil hne
    rw [hc] at hn hdigits
    have hno : ¬('.' ∈ c :: rest ∨ 'e' ∈ c :: rest) := by
      rintro (h | h) <;> cases hdigits _ h
    rw [hn, kindOfText_signed (hdigits c List.mem_cons_self), if_neg hno]
    rfl
  | @number x hx =>
    obtain ⟨negative, cs, v, hv, htext⟩ := numberLayout.text_eq hx
    obtain ⟨c, rest, rfl, hc⟩ := hv.head_digit
    rw [text, htext, kindOfText_signed hc, if_pos hv.mem_mark]
    rfl

theorem Word.continuesNumber (h : Word a) : ∀ c ∈ a.text.toList, continuesNumber c = true := by
  cases h with
  | null => exact List.all_eq_true.1 (by decide +kernel)
  | bool b => cases b <;> exact List.all_eq_true.1 (by decide +kernel)
  | integer n =>
    obtain ⟨negative, hn⟩ := text_integer n
    rw [hn]
    exact continuesNumber_signed (continuesNumber_of_digits (digits_toDigits _))
  | @number x hx =>
    obtain ⟨negative, cs, v, hv, htext⟩ := numberLayout.text_eq hx
    rw [text, htext]
    exact continuesNumber_signed hv.continuesNumber

theorem Word.unique (ha : Word a) (hb : Word b) (h : a.text = b.text) : a = b := by
  have hkind : a.wordKind = b.wordKind := by
    rw [← ha.kindOfText, ← hb.kindOfText, h]
  cases ha with
  | null =>
    cases hb with
    | null => rfl
    | bool b => cases b <;> exact absurd h (by decide +kernel)
    | integer | number => cases hkind
  | bool b =>
    cases hb with
    | null => cases b <;> exact absurd h (by decide +kernel)
    | bool c => cases b <;> cases c <;> first | rfl | exact absurd h (by decide +kernel)
    | integer | number => cases hkind
  | integer n =>
    cases hb with
    | integer m => rw [Int.repr_inj.1 h]
    | null | bool | number => cases hkind
  | @number x hx =>
    cases hb with
    | @number y hy => rw [numberLayout.text_injective hx hy h]
    | null | bool | integer => cases hkind

/-- The character that a text opens with, unless it is a word. -/
def opening : Json → Option Char
  | string _ => some '"'
  | array _ => some '['
  | object _ => some '\x7b'
  | _ => none

theorem word_printed (h : a.opening = none) : Word a.printed := by
  cases a with
  | null => exact .null
  | bool b => exact .bool b
  | integer n => exact .integer n
  | number x =>
    unfold printed
    split
    · next hx => exact .number hx
    · exact .null
  | string | array | object => cases h

/-! ### Texts -/

variable {r s : List Char}

theorem text_array (items : List Json) :
    (array items).text.toList ++ r = '[' :: ((itemsText items).toList ++ ']' :: r) := by
  simp [text]

theorem text_object (fields : List (String × Json)) :
    (object fields).text.toList ++ r = '\x7b' :: ((fieldsText fields).toList ++ '\x7d' :: r) := by
  simp [text]

theorem Word.ne_nil (h : Word a) : a.text.toList ≠ [] := by
  cases h with
  | null => decide +kernel
  | bool b => cases b <;> decide +kernel
  | integer n =>
    obtain ⟨negative, hn⟩ := text_integer n
    rw [hn]
    exact List.append_ne_nil_of_right_ne_nil _ Nat.toDigits_ne_nil
  | @number x hx =>
    obtain ⟨negative, cs, v, hv, htext⟩ := numberLayout.text_eq hx
    obtain ⟨c, rest, rfl, -⟩ := hv.head_digit
    rw [text, htext]
    exact List.append_ne_nil_of_right_ne_nil _ (List.cons_ne_nil c rest)

/-- The first character of a text tells whether it is a word, and else what is written. -/
theorem text_opening (a : Json) : ∃ c rest, a.text.toList = c :: rest ∧
    (if continuesNumber c then none else some c) = a.opening := by
  cases hopening : a.opening with
  | none =>
    have hword := word_printed hopening
    obtain ⟨c, rest, hc⟩ := List.exists_cons_of_ne_nil hword.ne_nil
    have hcontinues := hword.continuesNumber c (hc ▸ List.mem_cons_self)
    rw [text_printed] at hc
    exact ⟨c, rest, hc, if_pos hcontinues⟩
  | some c =>
    have htext : ∃ rest, a.text.toList = c :: rest := by
      cases a with
      | null | bool | integer | number => cases hopening
      | string s => cases hopening; exact ⟨_, String.toList_ofList⟩
      | array items => cases hopening; exact ⟨_, (List.append_nil _).symm.trans (text_array items)⟩
      | object fields =>
        cases hopening; exact ⟨_, (List.append_nil _).symm.trans (text_object fields)⟩
    have hc : continuesNumber c = false := by
      cases a <;> cases hopening <;> rfl
    obtain ⟨rest, hrest⟩ := htext
    exact ⟨c, rest, hrest, if_neg (Bool.eq_false_iff.1 hc)⟩

theorem opening_eq (h : a.text.toList ++ r = b.text.toList ++ s) : a.opening = b.opening := by
  obtain ⟨c, rest, hc, hac⟩ := text_opening a
  obtain ⟨d, rest', hd, hbd⟩ := text_opening b
  rw [hc, hd] at h
  rw [← hac, ← hbd, (List.cons.inj h).1]

/-- No value starts with what ends a list of them. -/
theorem text_ne_closing (a : Json) : a.text.toList ++ r ≠ ']' :: s := by
  intro h
  obtain ⟨c, rest, hc, hopening⟩ := text_opening a
  rw [hc] at h
  rw [(List.cons.inj h).1] at hopening
  cases a <;> cases hopening

theorem stops_itemsTail (items : List Json) :
    Stops continuesNumber ((itemsTail items).toList ++ ']' :: r) := by
  cases items with
  | nil => exact stops_cons.2 rfl
  | cons item rest =>
    rw [itemsTail, String.toList_append]
    exact stops_cons.2 rfl

theorem stops_fieldsTail (fields : List (String × Json)) :
    Stops continuesNumber ((fieldsTail fields).toList ++ '\x7d' :: r) := by
  cases fields with
  | nil => exact stops_cons.2 rfl
  | cons field rest =>
    rw [fieldsTail, String.toList_append]
    exact stops_cons.2 rfl

theorem word_append (ha : a.opening = none) (hr : Stops continuesNumber r)
    (hs : Stops continuesNumber s) (h : a.text.toList ++ r = b.text.toList ++ s) :
    a.printed = b.printed ∧ r = s := by
  have hword := word_printed ha
  have hword' := word_printed ((opening_eq h).symm.trans ha)
  rw [← text_printed a, ← text_printed b] at h
  have htext : a.printed.text = b.printed.text := by
    have htake := congrArg (List.takeWhile continuesNumber) h
    rw [takeWhile_append_of_all hword.continuesNumber hr,
      takeWhile_append_of_all hword'.continuesNumber hs] at htake
    exact String.toList_inj.1 htake
  rw [htext] at h
  exact ⟨hword.unique hword' htext, List.append_cancel_left h⟩

mutual

/-- Where texts start alike, the same values are written and the same text follows. -/
theorem text_append : ∀ (a b : Json) {r s : List Char}, Stops continuesNumber r →
    Stops continuesNumber s → a.text.toList ++ r = b.text.toList ++ s →
      a.printed = b.printed ∧ r = s
  | null, _, _, _, hr, hs, h | bool _, _, _, _, hr, hs, h
  | integer _, _, _, _, hr, hs, h | number _, _, _, _, hr, hs, h => word_append rfl hr hs h
  | string text, b, r, s, _, _, h => by
    have hopening := opening_eq h
    cases b with
    | string text' =>
      obtain ⟨rfl, rfl⟩ := Quoted.text_append h
      exact ⟨rfl, rfl⟩
    | _ => simp [opening] at hopening
  | array items, b, r, s, _, _, h => by
    have hopening := opening_eq h
    cases b with
    | array items' =>
      rw [text_array, text_array] at h
      obtain ⟨hitems, rfl⟩ := items_append items items' (List.cons.inj h).2
      exact ⟨by rw [printed, printed, hitems], rfl⟩
    | _ => simp [opening] at hopening
  | object fields, b, r, s, _, _, h => by
    have hopening := opening_eq h
    cases b with
    | object fields' =>
      rw [text_object, text_object] at h
      obtain ⟨hfields, rfl⟩ := fields_append fields fields' (List.cons.inj h).2
      exact ⟨by rw [printed, printed, hfields], rfl⟩
    | _ => simp [opening] at hopening

theorem items_append : ∀ (items items' : List Json) {r s : List Char},
    (itemsText items).toList ++ ']' :: r = (itemsText items').toList ++ ']' :: s →
      printedItems items = printedItems items' ∧ r = s
  | [], [], _, _, h => ⟨rfl, (List.cons.inj h).2⟩
  | [], item :: rest, _, _, h => by
    rw [itemsText_cons, String.toList_append, List.append_assoc] at h
    exact absurd h.symm (text_ne_closing item)
  | item :: rest, [], _, _, h => by
    rw [itemsText_cons, String.toList_append, List.append_assoc] at h
    exact absurd h (text_ne_closing item)
  | item :: rest, item' :: rest', r, s, h => by
    rw [itemsText_cons, itemsText_cons, String.toList_append, String.toList_append,
      List.append_assoc, List.append_assoc] at h
    obtain ⟨hitem, htail⟩ := text_append item item' (stops_itemsTail rest) (stops_itemsTail rest') h
    have ih := @items_append rest rest' r s
    have hrest : printedItems rest = printedItems rest' ∧ r = s := by
      cases rest <;> cases rest' <;> simp [itemsTail] at htail
      · exact ⟨rfl, htail⟩
      · exact ih htail
    exact ⟨by rw [printedItems, printedItems, hitem, hrest.1], hrest.2⟩

theorem fields_append : ∀ (fields fields' : List (String × Json)) {r s : List Char},
    (fieldsText fields).toList ++ '\x7d' :: r = (fieldsText fields').toList ++ '\x7d' :: s →
      printedFields fields = printedFields fields' ∧ r = s
  | [], [], _, _, h => ⟨rfl, (List.cons.inj h).2⟩
  | [], (key, value) :: rest, _, _, h => by
    simp [fieldsText_cons, Quoted.text, fieldsText] at h
  | (key, value) :: rest, [], _, _, h => by
    simp [fieldsText_cons, Quoted.text, fieldsText] at h
  | (key, value) :: rest, (key', value') :: rest', r, s, h => by
    simp only [fieldsText_cons, String.toList_append, List.append_assoc] at h
    obtain ⟨rfl, hvalue⟩ := Quoted.text_append h
    obtain ⟨hvalue, htail⟩ := text_append value value' (stops_fieldsTail rest)
      (stops_fieldsTail rest') (List.append_cancel_left hvalue)
    have ih := @fields_append rest rest' r s
    have hrest : printedFields rest = printedFields rest' ∧ r = s := by
      cases rest <;> cases rest' <;> simp [fieldsTail] at htail
      · exact ⟨rfl, htail⟩
      · exact ih htail
    exact ⟨by rw [printedFields, printedFields, hvalue, hrest.1], hrest.2⟩

end

/-- Data have the same text just when they are the same but for numbers that are not finite. -/
theorem text_eq_iff : a.text = b.text ↔ a.printed = b.printed := by
  refine ⟨fun h => ?_, fun h => by rw [← text_printed a, h, text_printed]⟩
  exact (@text_append a b [] [] stops_nil stops_nil (by rw [h])).1

end Json

end Behavioral
