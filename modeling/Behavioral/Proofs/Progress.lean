import Behavioral.Proofs.Spacing

/-!
# Progress of a scanner

Every reader moves its cursor forward or leaves it (`Cursor.Reaches`), and whatever a call hands out
takes a token that waited or at least one character. There is one exception: a number whose power of
ten has no digits is reported in front of the number, so the scanner is where it was and reports it
again (`advances_iff`). Every other call makes the scanner smaller (`size_lt`), so calls come to the
end of the text, past all other faults, just when none of them finds such a number
(`next_progress`).
-/

namespace Behavioral

variable {ambient : Float} {c c' c'' next : Cursor} {d : Char} {ds : List Char}

namespace Cursor

/-- `c'` is at or behind `c`, with some characters between. -/
def Reaches (c c' : Cursor) : Prop :=
  ∃ taken, c.rest = taken ++ c'.rest ∧ c'.offset = c.offset + bytes taken

/-- `c'` is behind `c`, with at least one character between. -/
def Passes (c c' : Cursor) : Prop :=
  ∃ taken, taken ≠ [] ∧ c.rest = taken ++ c'.rest ∧ c'.offset = c.offset + bytes taken

theorem Reaches.refl (c : Cursor) : Reaches c c :=
  ⟨[], rfl, rfl⟩

theorem Reaches.trans (h : Reaches c c') (h' : Reaches c' c'') : Reaches c c'' := by
  obtain ⟨taken, hrest, hoffset⟩ := h
  obtain ⟨taken', hrest', hoffset'⟩ := h'
  refine ⟨taken ++ taken', by rw [hrest, hrest', List.append_assoc], ?_⟩
  rw [hoffset', hoffset, bytes_append, Nat.add_assoc]

theorem Reaches.length_le (h : Reaches c c') : c'.rest.length ≤ c.rest.length := by
  obtain ⟨taken, hrest, -⟩ := h
  rw [hrest, List.length_append]
  exact Nat.le_add_left _ _

/-- A cursor with less text in front of it is behind. -/
theorem Reaches.passes (h : Reaches c c') (hlt : c'.rest.length < c.rest.length) : Passes c c' := by
  obtain ⟨taken, hrest, hoffset⟩ := h
  refine ⟨taken, ?_, hrest, hoffset⟩
  rintro rfl
  rw [hrest] at hlt
  exact absurd hlt (Nat.lt_irrefl _)

theorem Passes.length_lt (h : Passes c c') : c'.rest.length < c.rest.length := by
  obtain ⟨taken, hne, hrest, -⟩ := h
  have hpos := List.length_pos_iff.2 hne
  rw [hrest, List.length_append]
  omega

theorem Reaches.trans_passes (h : Reaches c c') (h' : Passes c' c'') : Passes c c'' := by
  have hlt := h'.length_lt.trans_le h.length_le
  obtain ⟨taken, -, hrest, hoffset⟩ := h'
  exact (h.trans ⟨taken, hrest, hoffset⟩).passes hlt

theorem Passes.trans_reaches (h : Passes c c') (h' : Reaches c' c'') : Passes c c'' := by
  have hlt := h'.length_le.trans_lt h.length_lt
  obtain ⟨taken, -, hrest, hoffset⟩ := h
  exact (Reaches.trans ⟨taken, hrest, hoffset⟩ h').passes hlt

theorem reaches_advance (c : Cursor) (n : Nat) : Reaches c (c.advance n) :=
  ⟨c.rest.take n, (List.take_append_drop n c.rest).symm, rfl⟩

theorem reaches_takeRun (p : Char → Bool) (c : Cursor) : Reaches c (c.takeRun p).2 :=
  ⟨c.rest.takeWhile p, List.takeWhile_append_dropWhile.symm, rfl⟩

theorem reaches_skipRun (p : Char → Bool) (c : Cursor) : Reaches c (c.skipRun p) :=
  reaches_takeRun p c

theorem passes_advance {n : Nat} (hc : c.rest = d :: ds) (hn : 0 < n) : Passes c (c.advance n) :=
  (reaches_advance c n).passes (Scan.length_drop_lt (hc ▸ List.cons_ne_nil d ds) hn)

end Cursor

open Cursor

theorem Tiles.reaches {ts : List (Spanned Token)} {slices : List (List Char)}
    (h : Tiles next c ts slices) : Reaches c next := by
  induction h with
  | nil => exact .refl _
  | @cons c t gap slice rest ts slices _ _ hrest hstart hstop _ ih =>
    refine Reaches.trans ⟨gap ++ slice, by rw [hrest, List.append_assoc], ?_⟩ ih
    rw [hstop, hstart, bytes_append, Nat.add_assoc]

/-! ### Lexemes -/

namespace Scan

/-- A number whose power of ten has no digits stands at the start of a text. -/
def lacksPower (text : List Char) : Bool :=
  startsNumber text && (Numeral.scan text).powerMissing

theorem nodeName_reaches {start : Nat} {n : Spanned String} (h : nodeName start c = .ok (n, next)) :
    Reaches c next := by
  unfold nodeName at h
  simp only at h
  split at h
  · cases h
  · cases h
    exact (reaches_skipRun _ c).trans ((reaches_takeRun _ _).trans (reaches_skipRun _ _))

theorem nodeName_error_reaches {start : Nat} {fault : LexicalFault}
    (h : nodeName start c = .error (fault, next)) : Reaches c next := by
  unfold nodeName at h
  simp only at h
  split at h
  · cases h
    exact (reaches_skipRun _ c).trans (reaches_takeRun _ _)
  · cases h

theorem shorthand_error_reaches {start : Nat} {isVoltage : Bool} {fault : LexicalFault}
    (h : shorthand start isVoltage c = .error (fault, next)) : Reaches c next := by
  have hinner := reaches_advance c 1
  unfold shorthand at h
  simp only [bind, Except.bind] at h
  split at h
  · next ha =>
    cases h
    exact hinner.trans (nodeName_error_reaches ha)
  · next a ha =>
    have hafterA := hinner.trans (nodeName_reaches ha)
    split at h
    · cases h
    · split at h
      · split at h
        · next hb =>
          cases h
          exact hafterA.trans ((reaches_advance _ 1).trans (nodeName_error_reaches hb))
        · next b hb =>
          have hafterB := (reaches_advance a.2 1).trans (nodeName_reaches hb)
          split at h
          · cases h
          · cases h
            exact hafterA.trans hafterB
      · cases h
        exact hafterA
    · cases h
      exact hafterA

theorem word_error_reaches {fault : LexicalFault} (h : word ambient c = .error (fault, next)) :
    Reaches (c.takeRun continuesName).2 next := by
  unfold word at h
  simp only at h
  split at h
  · exact shorthand_error_reaches h
  · exact shorthand_error_reaches h
  · split at h <;> cases h

/-- A number is not read if its power of ten has no digits, where it starts, or if it runs on,
behind it. -/
theorem number_error {fault : LexicalFault} (h : number c = .error (fault, next)) :
    (Numeral.scan c.rest).powerMissing = true ∧
        fault = .exponentWithoutDigits c.offset ∧ next = c ∨
      (Numeral.scan c.rest).powerMissing = false ∧
        next = c.advance (Numeral.scan c.rest).length := by
  unfold number at h
  simp only at h
  split at h
  · next hpower =>
    cases h
    exact .inl ⟨hpower, rfl, rfl⟩
  · next hpower =>
    refine .inr ⟨Bool.eq_false_iff.2 hpower, ?_⟩
    split at h
    · split at h
      · cases h
        rfl
      · cases h
    · cases h

theorem lexeme_of_startsNumber (hc : c.rest = d :: ds) (h : startsNumber c.rest = true) :
    lexeme ambient c d = number c := by
  rw [lexeme_of_continuesName (continuesName_of_startsNumber (hc ▸ h)) hc, if_pos h]

/-- A number without the digits of its power is reported, and the cursor stays in front of it. -/
theorem lexeme_of_lacksPower (hc : c.rest = d :: ds) (h : lacksPower c.rest = true) :
    lexeme ambient c d = .error (.exponentWithoutDigits c.offset, c) := by
  rw [lacksPower, Bool.and_eq_true] at h
  rw [lexeme_of_startsNumber hc h.1, number]
  simp only [h.2, if_true]

/-- Any other fault is behind at least one character. -/
theorem lexeme_error_passes {fault : LexicalFault} (hc : c.rest = d :: ds)
    (hpower : lacksPower c.rest = false) (h : lexeme ambient c d = .error (fault, next)) :
    Passes c next := by
  have hone := passes_advance hc Nat.one_pos
  by_cases hstarts : startsNumber c.rest = true
  · rw [lexeme_of_startsNumber hc hstarts] at h
    rcases number_error h with ⟨hmissing, -, -⟩ | ⟨-, rfl⟩
    · rw [lacksPower, hstarts, hmissing] at hpower
      cases hpower
    · exact passes_advance hc (length_scan_pos hstarts)
  · unfold lexeme at h
    split at h
    · cases h
    · split_ifs at h with _ _ hd
      · cases h
        exact hone
      · cases h
        exact hone
      · have htake := (reaches_takeRun continuesName c).passes
          (length_rest_takeRun_lt hc (continuesName_of_startsName hd))
        exact htake.trans_reaches (word_error_reaches h)
      · cases h
        exact hone

theorem lexeme_ok_passes {found : Lexeme} (hc : c.rest = d :: ds)
    (h : lexeme ambient c d = .ok found) : Passes c found.next := by
  obtain ⟨slices, -, htiles⟩ := spells_lexeme hc h
  exact htiles.reaches.passes (length_next_lt hc h)

end Scan

/-! ### Calls of a scanner -/

namespace Scanner

variable {s after : Scanner} {item : Except Fault (Spanned Token)}

/-- Whether a number without the digits of its power of ten is next, straight at the cursor. -/
def isStuck (s : Scanner) : Bool :=
  s.waiting.isEmpty && Scan.lacksPower s.cursor.rest

/-- A call has taken the first token that waited, or at least one character of the text. -/
inductive Advances (s after : Scanner) : Prop
  | token {t : Spanned Token} : s.waiting = t :: after.waiting → after.cursor = s.cursor →
      Advances s after
  | text : s.waiting = [] → s.cursor.Passes after.cursor → Advances s after

/-- The scanner after some number of calls, each of which has returned an item. -/
inductive Calls : Scanner → Scanner → Prop
  | refl (s : Scanner) : Calls s s
  | step {s after last : Scanner} {item : Except Fault (Spanned Token)} :
      s.next = some (item, after) → Calls after last → Calls s last

/-- The characters still to be read and the tokens that wait. -/
def size (s : Scanner) : Nat :=
  s.cursor.rest.length + s.waiting.length

/-- What a call returns is a token that waited, a lexeme's first token, or a fault. -/
theorem next_cases (h : s.next = some (item, after)) :
    (∃ t, s.waiting = t :: after.waiting ∧ after.cursor = s.cursor) ∨
      s.waiting = [] ∧ ∃ d ds, (s.cursor.skipRun isBlank).rest = d :: ds ∧
        ((∃ found, Scan.lexeme s.ambientTemperature (s.cursor.skipRun isBlank) d = .ok found ∧
            after = ⟨s.ambientTemperature, found.next, found.others⟩) ∨
          ∃ fault next, Scan.lexeme s.ambientTemperature (s.cursor.skipRun isBlank) d =
              .error (fault, next) ∧ item = .error (.lexical fault) ∧
            after = ⟨s.ambientTemperature, next, []⟩) := by
  unfold next at h
  split at h
  · next t waiting hwaiting =>
    cases h
    exact .inl ⟨t, hwaiting, rfl⟩
  · next hwaiting =>
    refine .inr ⟨hwaiting, ?_⟩
    simp only at h
    split at h
    · cases h
    · next d ds hc =>
      refine ⟨d, ds, hc, ?_⟩
      split at h
      · next found hfound =>
        cases h
        exact .inl ⟨found, hfound, rfl⟩
      · next fault next hfault =>
        cases h
        exact .inr ⟨fault, next, hfault, rfl, rfl⟩

theorem isBlank_of_lacksPower (h : Scan.lacksPower (d :: ds) = true) : isBlank d = false := by
  rw [Scan.lacksPower, Bool.and_eq_true] at h
  exact isBlank_of_continuesName (Scan.continuesName_of_startsNumber h.1)

theorem skipRun_of_lacksPower (h : Scan.lacksPower c.rest = true) :
    c.skipRun isBlank = c ∧ ∃ d ds, c.rest = d :: ds := by
  rcases c with ⟨offset, _ | ⟨d, ds⟩⟩
  · cases h
  · refine ⟨?_, d, ds, rfl⟩
    simp [Cursor.skipRun, Cursor.takeRun, isBlank_of_lacksPower h]

/-- A stuck scanner reports the number and stays as it is. -/
theorem next_of_isStuck (h : s.isStuck = true) :
    s.next = some (.error (.lexical (.exponentWithoutDigits s.cursor.offset)), s) := by
  obtain ⟨ambient, c, waiting⟩ := s
  rw [isStuck, Bool.and_eq_true, List.isEmpty_iff] at h
  obtain ⟨rfl, hlacks⟩ := h
  obtain ⟨hskip, d, ds, hc⟩ := @skipRun_of_lacksPower c hlacks
  simp only [next, hskip]
  split
  · next hnil =>
    rw [hnil] at hc
    cases hc
  · next e es hcons => rw [Scan.lexeme_of_lacksPower hcons hlacks]

theorem not_advances_self (s : Scanner) : ¬Advances s s := by
  rintro (⟨hwaiting, -⟩ | ⟨-, hpasses⟩)
  · exact absurd (congrArg List.length hwaiting) (by simp)
  · exact absurd hpasses.length_lt (Nat.lt_irrefl _)

theorem advances_of_not_isStuck (h : s.next = some (item, after)) (hstuck : s.isStuck = false) :
    Advances s after := by
  rcases next_cases h with ⟨t, hwaiting, hcursor⟩ | ⟨hwaiting, d, ds, hc, hcase⟩
  · exact .token hwaiting hcursor
  · have hskip := reaches_skipRun isBlank s.cursor
    refine .text hwaiting ?_
    rcases hcase with ⟨found, hfound, rfl⟩ | ⟨fault, next, hfault, -, rfl⟩
    · exact hskip.trans_passes (Scan.lexeme_ok_passes hc hfound)
    · by_cases hlacks : Scan.lacksPower (s.cursor.skipRun isBlank).rest = true
      · -- the number is not straight at the cursor, so blanks have been passed
        rw [Scan.lexeme_of_lacksPower hc hlacks] at hfault
        cases hfault
        refine hskip.passes (lt_of_le_of_ne hskip.length_le fun hlength => ?_)
        obtain ⟨taken, hrest, -⟩ := hskip
        have hnil : taken = [] := by
          have hsum := congrArg List.length hrest
          rw [List.length_append, hlength] at hsum
          exact List.length_eq_zero_iff.1 (by omega)
        rw [hnil, List.nil_append] at hrest
        rw [isStuck, hwaiting, hrest, hlacks] at hstuck
        cases hstuck
      · exact hskip.trans_passes
          (Scan.lexeme_error_passes hc (Bool.eq_false_iff.2 hlacks) hfault)

theorem advances_iff (h : s.next = some (item, after)) :
    Advances s after ↔ s.isStuck = false := by
  refine ⟨fun hadvances => ?_, advances_of_not_isStuck h⟩
  by_contra hstuck
  rw [next_of_isStuck (Bool.not_eq_false _ ▸ hstuck)] at h
  cases h
  exact not_advances_self s hadvances

/-- The tokens of a lexeme that wait are fewer than the characters that it has taken. -/
theorem size_lt (h : s.next = some (item, after)) (hstuck : s.isStuck = false) :
    after.size < s.size := by
  rcases advances_of_not_isStuck h hstuck with ⟨hwaiting, hcursor⟩ | ⟨hwaiting, hpasses⟩
  · rw [size, size, hwaiting, hcursor, List.length_cons]
    omega
  · have hlt := hpasses.length_lt
    rcases next_cases h with ⟨t, hcons, -⟩ | ⟨-, d, ds, hc, hcase⟩
    · rw [hwaiting] at hcons
      cases hcons
    · rcases hcase with ⟨found, hfound, rfl⟩ | ⟨fault, next, -, -, rfl⟩
      · have hothers := Scan.length_lexeme_others hc hfound
        have hskip := (reaches_skipRun isBlank s.cursor).length_le
        simp only [size, hwaiting, List.length_nil]
        omega
      · simp only [size, List.length_nil] at hlt ⊢
        omega

theorem items_eq_cons (h : s.next = some (item, after)) (n : Nat) :
    s.items (n + 1) = item :: after.items n := by
  rw [items, h]

/-- As long as no call finds the scanner stuck, each makes it smaller. -/
theorem length_items_le (h : ∀ last, Calls s last → last.isStuck = false) (n : Nat) :
    (s.items n).length ≤ s.size := by
  induction n generalizing s with
  | zero => exact Nat.zero_le _
  | succ n ih =>
    cases hnext : s.next with
    | none => simp [items, hnext]
    | some r =>
      obtain ⟨item, after⟩ := r
      have hlt := size_lt hnext (h s (.refl s))
      have hafter := ih fun last hcalls => h last (.step hnext hcalls)
      rw [items_eq_cons hnext, List.length_cons]
      omega

theorem length_items_of_isStuck (h : s.isStuck = true) (n : Nat) : (s.items n).length = n := by
  induction n with
  | zero => rfl
  | succ n ih => rw [items_eq_cons (next_of_isStuck h), List.length_cons, ih]

theorem Calls.length_items {last : Scanner} (h : Calls s last) (hstuck : last.isStuck = true)
    (n : Nat) : (s.items n).length = n := by
  induction h generalizing n with
  | refl s => exact length_items_of_isStuck hstuck n
  | step hnext _ ih =>
    cases n with
    | zero => rfl
    | succ n => rw [items_eq_cons hnext, List.length_cons, ih hstuck]

/-- A call that returns an item takes a token that waited or at least one character of the text,
unless a number without the digits of its power of ten is straight at the cursor; then it returns a
fault and the scanner stays as it is. So calls come to the end of the text, with at most as many
items as there are characters and waiting tokens, just when none of them finds such a number. -/
theorem next_progress (s : Scanner) :
    (∀ item after, s.next = some (item, after) → (Advances s after ↔ s.isStuck = false)) ∧
    (s.isStuck = true →
      s.next = some (.error (.lexical (.exponentWithoutDigits s.cursor.offset)), s)) ∧
    ((∃ n, (s.items n).length < n) ↔ ∀ last, Calls s last → last.isStuck = false) ∧
    ((∀ last, Calls s last → last.isStuck = false) → ∀ n, (s.items n).length ≤ s.size) := by
  refine ⟨fun item after => advances_iff, next_of_isStuck, ⟨?_, fun h => ?_⟩, length_items_le⟩
  · rintro ⟨n, hn⟩ last hcalls
    by_contra hstuck
    rw [hcalls.length_items (Bool.not_eq_false _ ▸ hstuck)] at hn
    exact absurd hn (Nat.lt_irrefl n)
  · exact ⟨s.size + 1, Nat.lt_succ_of_le (length_items_le h _)⟩

/-- Past a bare equals sign and a difference that is not closed, to the end of the text. -/
theorem next_progress_faults : ∃ item after, (ofString "2=V(a,b" {}).next = some (item, after) ∧
    (ofString "2=V(a,b" {}).isStuck = false ∧ Advances (ofString "2=V(a,b" {}) after ∧
    ((ofString "2=V(a,b" {}).items 4).length < 4 ∧
    ∀ last, Calls (ofString "2=V(a,b" {}) last → last.isStuck = false := by
  obtain ⟨hadvances, -, hends, -⟩ := next_progress (ofString "2=V(a,b" {})
  have hsome : (ofString "2=V(a,b" {}).next.isSome = true := by decide +kernel
  have hstuck : (ofString "2=V(a,b" {}).isStuck = false := by decide +kernel
  have hitems : ((ofString "2=V(a,b" {}).items 4).length < 4 := by decide +kernel
  obtain ⟨⟨item, after⟩, hnext⟩ := Option.isSome_iff_exists.1 hsome
  exact ⟨item, after, hnext, hstuck, (hadvances item after hnext).2 hstuck, hitems,
    hends.1 ⟨4, hitems⟩⟩

/-- The first call on this text returns a fault, takes neither a character nor a token, and so do
all calls after it. -/
theorem repeats_exponent :
    (∃ item, (ofString "1e" {}).next = some (item, ofString "1e" {}) ∧
      ¬Advances (ofString "1e" {}) (ofString "1e" {})) ∧
    ∀ n, ((ofString "1e" {}).items n).length = n := by
  have hstuck : (ofString "1e" {}).isStuck = true := by decide +kernel
  exact ⟨⟨_, next_of_isStuck hstuck, not_advances_self _⟩, length_items_of_isStuck hstuck⟩

end Scanner

end Behavioral
