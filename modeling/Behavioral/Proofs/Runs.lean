import Mathlib.Data.List.TakeWhile
import Behavioral.Text.Blank
import Behavioral.Text.Identifier
import Behavioral.Token.Cursor

/-!
# Where a run of characters ends

A maximal run of characters of one class does not depend on what follows it, as long as that does
not start in the class (`takeWhile_append_stops`). Blanks are in none of the classes that lexemes
are made of, so behind any lexeme a gap of them ends every run.
-/

namespace Behavioral

variable {p : Char → Bool} {c : Char} {cs xs tail gap : List Char} {m n : Nat}

/-- The text is at its end or goes on with a character that does not satisfy `p`. -/
def Stops (p : Char → Bool) (tail : List Char) : Prop :=
  ∀ c ∈ tail.head?, p c = false

/-- The text is at its end or goes on with a blank. -/
def Closed (tail : List Char) : Prop :=
  ∀ c ∈ tail.head?, isBlank c = true

/-- Blanks only. -/
def Gap (gap : List Char) : Prop :=
  ∀ c ∈ gap, isBlank c = true

instance (gap : List Char) : Decidable (Gap gap) :=
  decidable_of_iff (gap.all isBlank = true) List.all_eq_true

@[simp] theorem stops_nil : Stops p [] := nofun

@[simp] theorem stops_cons : Stops p (c :: cs) ↔ p c = false := by
  simp [Stops]

@[simp] theorem closed_nil : Closed [] := nofun

@[simp] theorem closed_cons : Closed (c :: cs) ↔ isBlank c = true := by
  simp [Closed]

theorem gap_nil : Gap [] := nofun

theorem Stops.of_imp {q : Char → Bool} (h : Stops p tail) (hq : ∀ c, q c = true → p c = true) :
    Stops q tail := fun c hc =>
  Bool.eq_false_iff.2 fun hqc => Bool.eq_false_iff.1 (h c hc) (hq c hqc)

theorem stops_dropWhile (p : Char → Bool) (cs : List Char) : Stops p (cs.dropWhile p) := by
  have h := List.head?_dropWhile_not p cs
  intro c hc
  rw [Option.mem_def] at hc
  rwa [hc] at h

theorem drop_length_takeWhile (p : Char → Bool) (cs : List Char) :
    cs.drop (cs.takeWhile p).length = cs.dropWhile p := by
  have : (cs.takeWhile p ++ cs.dropWhile p).drop (cs.takeWhile p).length = cs.dropWhile p :=
    List.drop_left
  rwa [List.takeWhile_append_dropWhile] at this

theorem takeWhile_append_stops (h : Stops p tail) :
    (xs ++ tail).takeWhile p = xs.takeWhile p := by
  have htail : tail.takeWhile p = [] := by
    rw [List.takeWhile_eq_nil_iff]
    intro hlen
    have := h tail[0] (by rw [List.head?_eq_getElem?, List.getElem?_eq_getElem hlen]; rfl)
    simpa using this
  induction xs with
  | nil => simpa using htail
  | cons x xs ih => simp only [List.cons_append, List.takeWhile_cons, ih]

theorem dropWhile_append_stops (h : Stops p tail) :
    (xs ++ tail).dropWhile p = xs.dropWhile p ++ tail := by
  have hsplit := List.takeWhile_append_dropWhile (p := p) (l := xs ++ tail)
  rw [takeWhile_append_stops h] at hsplit
  have hxs : xs.takeWhile p ++ (xs.dropWhile p ++ tail) = xs ++ tail := by
    rw [← List.append_assoc, List.takeWhile_append_dropWhile]
  exact List.append_cancel_left (hsplit.trans hxs.symm)

theorem takeWhile_append_of_all (hxs : ∀ c ∈ xs, p c = true) (h : Stops p tail) :
    (xs ++ tail).takeWhile p = xs := by
  rw [takeWhile_append_stops h, List.takeWhile_eq_self_iff.2 hxs]

theorem dropWhile_append_of_all (hxs : ∀ c ∈ xs, p c = true) (h : Stops p tail) :
    (xs ++ tail).dropWhile p = tail := by
  rw [dropWhile_append_stops h, List.dropWhile_eq_nil_iff.2 hxs, List.nil_append]

/-! ### Blanks -/

def blankCodes : List Nat :=
  [9, 10, 11, 12, 13, 0x20, 0x85, 0xa0, 0x1680, 0x2000, 0x2001, 0x2002, 0x2003, 0x2004, 0x2005,
    0x2006, 0x2007, 0x2008, 0x2009, 0x200a, 0x2028, 0x2029, 0x202f, 0x205f, 0x3000]

theorem toNat_mem_blankCodes (h : isBlank c = true) : c.toNat ∈ blankCodes := by
  simp only [isBlank, Bool.or_eq_true, Bool.and_eq_true, decide_eq_true_eq, beq_iff_eq] at h
  simp only [blankCodes, List.mem_cons, List.not_mem_nil, or_false]
  omega

/-- What holds of no blank is checked code by code. -/
theorem not_of_isBlank (hp : ∀ n ∈ blankCodes, p (Char.ofNat n) = false) (h : isBlank c = true) :
    p c = false := by
  rw [← Char.ofNat_toNat c]
  exact hp _ (toNat_mem_blankCodes h)

theorem continuesName_of_isBlank (h : isBlank c = true) : continuesName c = false :=
  not_of_isBlank (by decide +kernel) h

theorem isBlank_of_continuesName (h : continuesName c = true) : isBlank c = false :=
  Bool.eq_false_iff.2 fun hblank => by simp [continuesName_of_isBlank hblank] at h

/-- The characters that numerals are made of. -/
def continuesNumeral (c : Char) : Bool :=
  isAsciiDigit c || isAsciiLetter c || c == '.'

def isSign (c : Char) : Bool :=
  c == '-' || c == '+'

/-- The characters that a symbol of two characters may end with. -/
def endsSymbol (c : Char) : Bool :=
  c == '*' || c == '=' || c == '>' || c == '&' || c == '|'

theorem Stops.digit (h : Stops continuesNumeral tail) : Stops isAsciiDigit tail :=
  h.of_imp fun c hc => by simp [continuesNumeral, hc]

theorem Stops.letter (h : Stops continuesNumeral tail) : Stops isAsciiLetter tail :=
  h.of_imp fun c hc => by simp [continuesNumeral, hc]

theorem Stops.point (h : Stops continuesNumeral tail) : Stops (· == '.') tail :=
  h.of_imp fun c hc => by rw [continuesNumeral, hc, Bool.or_true]

theorem Closed.stops (h : Closed tail) (hp : ∀ n ∈ blankCodes, p (Char.ofNat n) = false) :
    Stops p tail :=
  fun c hc => not_of_isBlank hp (h c hc)

theorem Closed.stops_name (h : Closed tail) : Stops continuesName tail :=
  fun c hc => continuesName_of_isBlank (h c hc)

theorem closed_append (hgap : Gap gap) (h : gap = [] → tail = []) : Closed (gap ++ tail) := by
  cases gap with
  | nil => simp [h rfl]
  | cons c gap => simpa using hgap c List.mem_cons_self

/-! ### Bytes -/

@[simp] theorem bytes_nil : Cursor.bytes [] = 0 := rfl

@[simp] theorem bytes_cons : Cursor.bytes (c :: cs) = c.utf8Size + Cursor.bytes cs := rfl

@[simp] theorem bytes_append (xs ys : List Char) :
    Cursor.bytes (xs ++ ys) = Cursor.bytes xs + Cursor.bytes ys := by
  induction xs with
  | nil => simp
  | cons x xs ih => simp only [List.cons_append, bytes_cons, ih, Nat.add_assoc]

theorem bytes_pos (h : cs ≠ []) : 0 < Cursor.bytes cs := by
  cases cs with
  | nil => exact absurd rfl h
  | cons c cs =>
    have := c.utf8Size_pos
    rw [bytes_cons]
    omega

theorem bytes_eq_length (h : ∀ c ∈ cs, c.utf8Size = 1) : Cursor.bytes cs = cs.length := by
  induction cs with
  | nil => rfl
  | cons c cs ih =>
    rw [bytes_cons, h c List.mem_cons_self, ih fun d hd => h d (List.mem_cons_of_mem _ hd),
      List.length_cons, Nat.add_comm]

/-- The first `n` characters are there and take one byte each. -/
def Narrow (n : Nat) (cs : List Char) : Prop :=
  n ≤ cs.length ∧ Cursor.bytes (cs.take n) = n

theorem Narrow.zero : Narrow 0 cs := ⟨Nat.zero_le _, rfl⟩

theorem Narrow.add (hm : Narrow m cs) (hn : Narrow n (cs.drop m)) : Narrow (m + n) cs := by
  refine ⟨?_, ?_⟩
  · have hle := hn.1
    rw [List.length_drop] at hle
    have := hm.1
    omega
  · rw [List.take_add, bytes_append, hm.2, hn.2]

theorem Narrow.cons (hc : c.utf8Size = 1) (h : Narrow n cs) : Narrow (n + 1) (c :: cs) := by
  refine ⟨Nat.succ_le_succ h.1, ?_⟩
  rw [List.take_succ_cons, bytes_cons, hc, h.2, Nat.add_comm]

theorem Narrow.takeWhile (hp : ∀ c, p c = true → c.utf8Size = 1) (cs : List Char) :
    Narrow (cs.takeWhile p).length cs := by
  refine ⟨(List.takeWhile_prefix p).length_le, ?_⟩
  rw [← List.prefix_iff_eq_take.1 (List.takeWhile_prefix p)]
  exact bytes_eq_length fun c hc => hp c (List.mem_takeWhile_imp hc)

theorem utf8Size_of_isAsciiDigit (h : isAsciiDigit c = true) : c.utf8Size = 1 := by
  simp only [isAsciiDigit, Bool.and_eq_true, decide_eq_true_eq, Char.le_def] at h
  exact Char.utf8Size_eq_one_iff.2 (UInt32.le_trans h.2 (by decide))

theorem utf8Size_of_isAsciiLetter (h : isAsciiLetter c = true) : c.utf8Size = 1 := by
  simp only [isAsciiLetter, Bool.and_eq_true, Bool.or_eq_true, decide_eq_true_eq, Char.le_def] at h
  rcases h with h | h <;> exact Char.utf8Size_eq_one_iff.2 (UInt32.le_trans h.2 (by decide))

theorem toNat_lt_of_utf8Size (h : c.utf8Size = 1) : c.toNat < 128 :=
  Nat.lt_succ_of_le (UInt32.le_iff_toNat_le.1 (Char.utf8Size_eq_one_iff.1 h))

theorem continuesName_of_isAsciiDigit (h : isAsciiDigit c = true) : continuesName c = true := by
  have hc := toNat_lt_of_utf8Size (utf8Size_of_isAsciiDigit h)
  simp [continuesName, continuesIdentifier, hc, h]

theorem startsName_of_isAsciiLetter (h : isAsciiLetter c = true) : startsName c = true := by
  have hc := toNat_lt_of_utf8Size (utf8Size_of_isAsciiLetter h)
  simp [startsName, startsIdentifier, hc, h]

theorem continuesName_of_isAsciiLetter (h : isAsciiLetter c = true) : continuesName c = true :=
  continuesName_of_startsName (startsName_of_isAsciiLetter h)

/-- What holds of every letter is checked code by code. -/
theorem forall_letter {P : Char → Prop}
    (h : ∀ n < 128, isAsciiLetter (Char.ofNat n) = true → P (Char.ofNat n))
    (hc : isAsciiLetter c = true) : P c := by
  have hcode := h _ (toNat_lt_of_utf8Size (utf8Size_of_isAsciiLetter hc))
  rw [Char.ofNat_toNat] at hcode
  exact hcode hc

theorem isAsciiDigit_of_isAsciiLetter (h : isAsciiLetter c = true) : isAsciiDigit c = false :=
  @forall_letter c (fun c => isAsciiDigit c = false) (by decide +kernel) h

theorem isAsciiLetter_of_capital (h : isAsciiLetter (capital c) = true) :
    isAsciiLetter c = true := by
  unfold capital at h
  split at h
  · next hc => rw [isAsciiLetter, hc, Bool.true_or]
  · exact h

end Behavioral
