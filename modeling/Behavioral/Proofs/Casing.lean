import Behavioral.Proofs.Spacing
import Behavioral.Proofs.Words

/-!
# Letter case in a text

A text whose letters change their case is read as the same tokens, but for the case of letters in
names, up to a fault of the same code (`outcome_read_recase`): numbers, suffixes, named constants
and shorthands are spelled in any case. With the letters as they are, this says that a text is read
the same wherever it stands.
-/

namespace Behavioral

variable {f : Char → Char} {c d : Char} {p : Char → Bool} {cs ds : List Char}

/-! ### Characters -/

/-- Whether a function changes nothing but the case of letters. -/
def Recases (f : Char → Char) : Prop :=
  ∀ c, capital (f c) = capital c

theorem recases_id : Recases id := fun _ => rfl

theorem recases_capital : Recases capital := fun c => by
  cases hc : isAsciiLetter c with
  | false => rw [capital_eq_self hc, capital_eq_self hc]
  | true => exact @forall_letter c (fun c => capital (capital c) = capital c) (by decide +kernel) hc

theorem capital_eq_e_iff : capital c = 'E' ↔ c = 'e' ∨ c = 'E' := by
  constructor
  · intro h
    have hletter : isAsciiLetter c = true := isAsciiLetter_of_capital (by rw [h]; decide)
    exact @forall_letter c (fun c => capital c = 'E' → c = 'e' ∨ c = 'E') (by decide +kernel)
      hletter h
  · rintro (rfl | rfl) <;> decide

namespace Recases

variable (hf : Recases f)
include hf

theorem eq_self (hc : isAsciiLetter c = false) : f c = c :=
  (capital_eq_iff hc).1 ((hf c).trans (capital_eq_self hc))

theorem letter (hc : isAsciiLetter c = true) : isAsciiLetter (f c) = true :=
  isAsciiLetter_of_capital (by rw [hf c]; exact isAsciiLetter_capital hc)

/-- A class that has all letters or none has a character in either case. -/
theorem apply {b : Bool} (hp : ∀ c, isAsciiLetter c = true → p c = b) (c : Char) :
    p (f c) = p c := by
  cases hc : isAsciiLetter c with
  | false => rw [hf.eq_self hc]
  | true => rw [hp _ (hf.letter hc), hp c hc]

theorem isAsciiLetter (c : Char) : isAsciiLetter (f c) = isAsciiLetter c :=
  hf.apply (fun _ h => h) c

theorem isAsciiDigit (c : Char) : isAsciiDigit (f c) = isAsciiDigit c :=
  hf.apply (fun _ => isAsciiDigit_of_isAsciiLetter) c

theorem startsName (c : Char) : startsName (f c) = startsName c :=
  hf.apply (fun _ => startsName_of_isAsciiLetter) c

theorem continuesName (c : Char) : continuesName (f c) = continuesName c :=
  hf.apply (fun _ => continuesName_of_isAsciiLetter) c

theorem isBlank (c : Char) : isBlank (f c) = isBlank c :=
  hf.apply (fun _ h => isBlank_of_continuesName (continuesName_of_isAsciiLetter h)) c

/-- What is no letter stays what it is, and nothing else becomes it. -/
theorem eq_iff (hd : Behavioral.isAsciiLetter d = false) : f c = d ↔ c = d := by
  rw [← capital_eq_iff hd, hf c, capital_eq_iff hd]

theorem beq (hd : Behavioral.isAsciiLetter d = false) (c : Char) : (f c == d) = (c == d) := by
  rw [Bool.eq_iff_iff, beq_iff_eq, beq_iff_eq, hf.eq_iff hd]

theorem startsPower (c : Char) : (f c == 'e' || f c == 'E') = (c == 'e' || c == 'E') := by
  rw [Bool.eq_iff_iff]
  simp only [Bool.or_eq_true, beq_iff_eq, ← capital_eq_e_iff, hf c]

theorem map_eq_self (h : ∀ c ∈ cs, Behavioral.isAsciiLetter c = false) : cs.map f = cs :=
  (List.map_congr_left fun c hc => hf.eq_self (h c hc)).trans (List.map_id cs)

theorem map_capital : (cs.map f).map capital = cs.map capital := by
  rw [List.map_map]
  exact List.map_congr_left fun c _ => hf c

theorem capitals : capitals (String.ofList (cs.map f)) = capitals (String.ofList cs) := by
  rw [Behavioral.capitals, String.toList_ofList, hf.map_capital, Behavioral.capitals,
    String.toList_ofList]

end Recases

section Runs

variable (hp : ∀ c, p (f c) = p c) (cs : List Char)
include hp

theorem takeWhile_recase : (cs.map f).takeWhile p = (cs.takeWhile p).map f := by
  rw [List.takeWhile_map, show p ∘ f = p from funext hp]

theorem dropWhile_recase : (cs.map f).dropWhile p = (cs.dropWhile p).map f := by
  rw [List.dropWhile_map, show p ∘ f = p from funext hp]

end Runs

/-! ### Numerals -/

namespace Numeral

variable (hf : Recases f)
include hf

theorem takeWhile_digits (cs : List Char) :
    (cs.map f).takeWhile isAsciiDigit = cs.takeWhile isAsciiDigit := by
  rw [takeWhile_recase hf.isAsciiDigit]
  refine hf.map_eq_self fun c hc => Bool.eq_false_iff.2 fun hletter => ?_
  have hdigit := List.mem_takeWhile_imp hc
  rw [isAsciiDigit_of_isAsciiLetter hletter] at hdigit
  cases hdigit

theorem scanFraction_recase (cs : List Char) : scanFraction (cs.map f) = scanFraction cs := by
  match cs with
  | [] => rfl
  | c :: rest =>
    by_cases hc : c = '.'
    · subst hc
      rw [List.map_cons, hf.eq_self (by decide), scanFraction, takeWhile_digits hf, scanFraction]
    · have hc' : f c ≠ '.' := mt (hf.eq_iff (by decide)).1 hc
      simp [scanFraction, hc, hc']

theorem scanPower_recase (cs : List Char) : scanPower (cs.map f) = scanPower cs := by
  match cs with
  | [] => rfl
  | c :: rest =>
    have hsame : isSign (f c) = isSign c := by
      rw [isSign, hf.beq (by decide), hf.beq (by decide), isSign]
    by_cases hc : isSign c = true
    · rcases Bool.or_eq_true_iff.1 hc with hc | hc
      all_goals
        obtain rfl := eq_of_beq hc
        rw [List.map_cons, hf.eq_self (by decide), scanPower, takeWhile_digits hf, scanPower]
    · have hc := Bool.eq_false_iff.2 hc
      rw [scanPower_of_not_sign (stops_cons.2 hc), List.map_cons,
        scanPower_of_not_sign (stops_cons.2 (hsame.trans hc)), ← List.map_cons,
        takeWhile_digits hf]

theorem powerPart_recase (cs : List Char) : powerPart (cs.map f) = powerPart cs := by
  match cs with
  | [] => rfl
  | c :: rest => rw [List.map_cons, powerPart, hf.startsPower, scanPower_recase hf, powerPart]

theorem afterWhole_recase (cs : List Char) : afterWhole (cs.map f) = (afterWhole cs).map f := by
  rw [afterWhole, takeWhile_digits hf, afterWhole, List.map_drop]

theorem mantissaLength_recase (cs : List Char) :
    mantissaLength (cs.map f) = mantissaLength cs := by
  rw [mantissaLength, takeWhile_digits hf, afterWhole_recase hf, scanFraction_recase hf,
    mantissaLength]

theorem digitsLength_recase (cs : List Char) : digitsLength (cs.map f) = digitsLength cs := by
  rw [digitsLength, mantissaLength_recase hf, ← List.map_drop, powerPart_recase hf, digitsLength]

/-- Only the letters behind a numeral change. -/
theorem scan_recase (cs : List Char) :
    scan (cs.map f) = { scan cs with letters := (scan cs).letters.map f } := by
  rw [scan_eq, scan_eq]
  simp only [takeWhile_digits hf, afterWhole_recase hf, scanFraction_recase hf,
    mantissaLength_recase hf, digitsLength_recase hf, ← List.map_drop, powerPart_recase hf,
    takeWhile_recase hf.isAsciiLetter, List.length_map]

theorem value_recase (n : Numeral) : value { n with letters := n.letters.map f } = n.value := by
  rw [value, scale, hf.map_capital]
  rfl

end Numeral

/-! ### Lexemes -/

def recase (f : Char → Char) (s : String) : String :=
  String.ofList (s.toList.map f)

/-- The token with the letters of a name in other cases. -/
def Token.recase (f : Char → Char) : Token → Token
  | .number x => .number x
  | .name s => .name (Behavioral.recase f s)
  | .symbol s => .symbol s

theorem Recases.voltageName (hf : Recases f) (s : String) :
    voltageName (recase f s) = recase f (voltageName s) := by
  simp [Behavioral.voltageName, recase, hf.eq_self (c := '@') (by decide)]

theorem Recases.currentName (hf : Recases f) (s : String) :
    currentName (recase f s) = recase f (currentName s) := by
  simp [Behavioral.currentName, recase, hf.eq_self (c := '#') (by decide)]

namespace Scan

/-! What is read twice: with the same letters, and with letters of other cases. -/

/-- Two readers have read what `R` relates, or report a fault of the same code. -/
inductive SameScan {α β : Type} (R : α → β → Prop) : Scan α → Scan β → Prop
  | ok {a : α} {b : β} : R a b → SameScan R (.ok a) (.ok b)
  | fault {f g : LexicalFault} {c c' : Cursor} : f.code = g.code →
      SameScan R (.error (f, c)) (.error (g, c'))

theorem SameScan.bind {α β γ δ : Type} {R : α → β → Prop} {S : γ → δ → Prop} {x : Scan α}
    {y : Scan β} {f : α → Scan γ} {g : β → Scan δ} (h : SameScan R x y)
    (hf : ∀ a b, R a b → SameScan S (f a) (g b)) : SameScan S (x >>= f) (y >>= g) := by
  cases h with
  | ok hab => exact hf _ _ hab
  | fault hcode => exact .fault hcode

/-- Lexemes that stand for the same tokens but for the case of letters, with the same text behind
them but for the case of letters. -/
def SameLexeme (f : Char → Char) (x y : Lexeme) : Prop :=
  values y.tokens = (values x.tokens).map (Token.recase f) ∧ y.next.rest = x.next.rest.map f

variable {a a' : Cursor}

/-- A symbol has at most two characters. -/
theorem symbol?_cons_cons {d e : Char} {es : List Char} :
    symbol? (d :: e :: es) = symbol? [d, e] := by
  have hsome {s : Symbol} {n : Nat} (es es' : List Char)
      (h : symbol? (d :: e :: es) = some (s, n)) : symbol? (d :: e :: es') = some (s, n) := by
    unfold symbol? at h
    split at h
    case h_20 => cases h
    all_goals
      next heq =>
        obtain ⟨rfl, rfl⟩ := Prod.mk.inj (Option.some.inj h)
        cases heq
        first
        | rfl
        | simp_all [symbol?]
  ext ⟨s, n⟩
  exact ⟨hsome es [], hsome [] es⟩

theorem advance_recase (h : a'.rest = a.rest.map f) (n : Nat) :
    (a'.advance n).rest = (a.advance n).rest.map f := by
  rw [Cursor.rest_advance, Cursor.rest_advance, h, List.map_drop]

theorem takeRun_recase {p : Char → Bool} (hp : ∀ c, p (f c) = p c) (h : a'.rest = a.rest.map f) :
    (a'.takeRun p).1 = (a.takeRun p).1.map f ∧
      (a'.takeRun p).2.rest = (a.takeRun p).2.rest.map f := by
  rw [Cursor.takeRun, Cursor.takeRun, h, takeWhile_recase hp, dropWhile_recase hp]
  exact ⟨rfl, rfl⟩

section Recases

variable (hf : Recases f)
include hf

theorem startsNumber_recase (cs : List Char) : startsNumber (cs.map f) = startsNumber cs := by
  match cs with
  | [] => rfl
  | d :: ds =>
    by_cases hd : d = '.'
    · subst hd
      rw [List.map_cons, hf.eq_self (by decide)]
      cases ds with
      | nil => rfl
      | cons e es => exact hf.isAsciiDigit e
    · have hd' : f d ≠ '.' := mt (hf.eq_iff (by decide)).1 hd
      rw [List.map_cons, startsNumber_cons hd', startsNumber_cons hd, hf.isAsciiDigit]

theorem symbol?_recase (cs : List Char) : symbol? (cs.map f) = symbol? cs := by
  match cs with
  | [] => rfl
  | d :: ds =>
    cases hd : isAsciiLetter d with
    | true =>
      have hnone {d : Char} (hd : isAsciiLetter d = true) (ds : List Char) :
          symbol? (d :: ds) = none :=
        symbol?_of_continuesName (continuesName_of_isAsciiLetter hd)
      rw [List.map_cons, hnone hd, hnone (hf.letter hd)]
    | false =>
      rw [List.map_cons, hf.eq_self hd]
      match ds with
      | [] => rfl
      | e :: es =>
        cases he : isAsciiLetter e with
        | true =>
          have hstops {e : Char} (he : isAsciiLetter e = true) (es : List Char) :
              Stops endsSymbol (e :: es) :=
            stops_cons.2 (@forall_letter e (fun e => endsSymbol e = false) (by decide +kernel) he)
          rw [List.map_cons, symbol?_cons_stops (hstops (hf.letter he) _),
            symbol?_cons_stops (hstops he es)]
        | false =>
          rw [List.map_cons, hf.eq_self he]
          exact symbol?_cons_cons.trans symbol?_cons_cons.symm

theorem head?_recase {d : Char} (hd : isAsciiLetter d = false) (h : a'.rest = a.rest.map f) :
    a'.rest.head? = some d ↔ a.rest.head? = some d := by
  rw [h, List.head?_map]
  cases a.rest.head? with
  | none => rfl
  | some e => rw [Option.map_some, Option.some_inj, Option.some_inj, hf.eq_iff hd]

theorem nodeName_recase (h : a'.rest = a.rest.map f) (start start' : Nat) :
    SameScan (fun x y => y.1.value = recase f x.1.value ∧
        y.2.rest = x.2.rest.map f)
      (nodeName start a) (nodeName start' a') := by
  have hskip := (takeRun_recase hf.isBlank h).2
  obtain ⟨hname, hafter⟩ := takeRun_recase hf.continuesName hskip
  unfold nodeName Cursor.skipRun
  simp only [hname, List.isEmpty_map]
  split
  · exact .fault rfl
  · exact .ok ⟨by rw [recase, String.toList_ofList], (takeRun_recase hf.isBlank hafter).2⟩

theorem shorthand_recase (h : a'.rest = a.rest.map f) (start start' : Nat) (isVoltage : Bool) :
    SameScan (SameLexeme f) (shorthand start isVoltage a) (shorthand start' isVoltage a') := by
  rw [shorthand_eq, shorthand_eq]
  refine (nodeName_recase hf (advance_recase h 1) start start').bind fun x y ⟨hvalue, hafter⟩ => ?_
  have hclosing := head?_recase hf (d := ')') (by decide) hafter
  have hcomma := head?_recase hf (d := ',') (by decide) hafter
  simp only [hclosing, hcomma]
  split_ifs
  · refine .ok ⟨?_, advance_recase hafter 1⟩
    cases isVoltage
    · simp [values, single, Lexeme.tokens, mark, hvalue, Token.recase, hf.currentName]
    · simp [values, single, Lexeme.tokens, mark, hvalue, Token.recase, hf.voltageName]
  · refine (nodeName_recase hf (advance_recase hafter 1) start start').bind
      fun z w ⟨hvalue', hafter'⟩ => ?_
    have hclosing' := head?_recase hf (d := ')') (by decide) hafter'
    simp only [hclosing']
    split_ifs
    · refine .ok ⟨?_, advance_recase hafter' 1⟩
      simp [values, difference, marked, Lexeme.tokens, hvalue, hvalue', Token.recase,
        hf.voltageName]
    · exact .fault rfl
  · exact .fault rfl

theorem wordToken_recase (ambient : Float) (cs : List Char) :
    wordToken ambient (cs.map f) = (wordToken ambient cs).recase f := by
  rw [wordToken, wordToken, hf.capitals]
  rcases namedConstant? ambient (capitals (String.ofList cs)) with _ | x
  · rw [Token.recase, recase, String.toList_ofList]
  · rfl

theorem word_recase (h : a'.rest = a.rest.map f) (ambient : Float) :
    SameScan (SameLexeme f) (word ambient a) (word ambient a') := by
  obtain ⟨hletters, hnext⟩ := takeRun_recase hf.continuesName h
  have hbracket := head?_recase hf (d := '(') (by decide) hnext
  rw [word_eq, word_eq, hletters, hf.capitals, wordToken_recase hf]
  simp only [hbracket]
  split_ifs
  · exact shorthand_recase hf hnext a.offset a'.offset true
  · exact shorthand_recase hf hnext a.offset a'.offset false
  · refine .ok ⟨?_, hnext⟩
    simp only [values, single, Lexeme.tokens, List.map_cons, List.map_nil]

theorem number_recase (h : a'.rest = a.rest.map f) :
    SameScan (SameLexeme f) (number a) (number a') := by
  have hscan := Numeral.scan_recase hf a.rest
  rw [← h] at hscan
  unfold number
  rw [hscan]
  generalize Numeral.scan a.rest = n
  have hnext := advance_recase h n.length
  have hpower : { n with letters := n.letters.map f }.powerMissing = n.powerMissing := rfl
  simp only [hpower, Numeral.value_recase hf]
  split
  · exact .fault rfl
  · match hrest : (a.advance n.length).rest with
    | [] =>
      rw [hnext, hrest]
      exact .ok ⟨rfl, hnext⟩
    | d :: ds =>
      rw [hnext, hrest]
      simp only [List.map_cons, hf.isAsciiDigit, hf.beq (d := '.') (by decide)]
      split
      · exact .fault rfl
      · exact .ok ⟨rfl, hnext⟩

theorem lexeme_recase (h : a'.rest = a.rest.map f) (ambient : Float) (d : Char) :
    SameScan (SameLexeme f) (lexeme ambient a d) (lexeme ambient a' (f d)) := by
  unfold lexeme
  rw [h, symbol?_recase hf, startsNumber_recase hf, hf.startsName, hf.beq (by decide),
    hf.beq (by decide), hf.beq (by decide)]
  split
  · exact .ok ⟨rfl, advance_recase h _⟩
  · split
    · exact .fault rfl
    · split
      · exact .fault rfl
      · split
        · exact number_recase hf h
        · split
          · exact word_recase hf h ambient
          · exact .fault rfl

end Recases

end Scan

/-! ### Whole texts -/

theorem values_append {ts us : List (Spanned Token)} : values (ts ++ us) = values ts ++ values us :=
  List.map_append

theorem read_fault {ambient : Float} {c : Cursor} {fault : LexicalFault × Cursor}
    (hc : (c.skipRun isBlank).rest = d :: ds)
    (h : Scan.lexeme ambient (c.skipRun isBlank) d = .error fault) :
    Scanner.read ambient c = ([], some fault) := by
  rw [Scanner.read]
  split
  · next hnil => rw [hnil] at hc; cases hc
  · next e es hcons =>
    obtain ⟨rfl, rfl⟩ := List.cons.inj (hc.symm.trans hcons)
    split
    · next herror =>
      rw [h] at herror
      cases herror
      rfl
    · next hok => rw [h] at hok; cases hok

/-- What is read of a text, wherever it stands: the values of its tokens, and the code of the fault
behind them. -/
def Scanner.outcome (r : List (Spanned Token) × Option (LexicalFault × Cursor)) :
    List Token × Option String :=
  (values r.1, r.2.map (·.1.code))

/-- Texts that are the same behind their first blanks, but for the case of letters, have the same
outcome, but for the case of letters in names. -/
theorem outcome_read_recase {ambient : Float} {c c' : Cursor} (hf : Recases f)
    (h : (c'.skipRun isBlank).rest = (c.skipRun isBlank).rest.map f) :
    Scanner.outcome (Scanner.read ambient c') =
      ((Scanner.outcome (Scanner.read ambient c)).1.map (Token.recase f),
        (Scanner.outcome (Scanner.read ambient c)).2) := by
  fun_induction Scanner.read ambient c generalizing c' with
  | case1 c hnil =>
    rw [hnil, List.map_nil] at h
    rw [read_gap (gap_of_skipRun h)]
    rfl
  | case2 c d ds hd fault hl =>
    have hd' : (c'.skipRun isBlank).rest = f d :: ds.map f := by rw [h, hd, List.map_cons]
    have hsame := Scan.lexeme_recase hf h ambient d
    rw [hl] at hsame
    generalize hl' : Scan.lexeme ambient (c'.skipRun isBlank) (f d) = result at hsame
    cases hsame with
    | fault hcode =>
      rw [read_fault hd' hl']
      simp [Scanner.outcome, values, hcode]
  | case3 c d ds hd found hl tokens fault hread ih =>
    have hd' : (c'.skipRun isBlank).rest = f d :: ds.map f := by rw [h, hd, List.map_cons]
    have hsame := Scan.lexeme_recase hf h ambient d
    rw [hl] at hsame
    generalize hl' : Scan.lexeme ambient (c'.skipRun isBlank) (f d) = result at hsame
    cases hsame with
    | @ok _ found' hfound =>
      have hlater := ih (Scan.takeRun_recase hf.isBlank hfound.2).2
      rw [hread] at hlater
      rw [read_lexeme hd' hl']
      simp only [Scanner.outcome, values_append, Prod.mk.injEq] at hlater ⊢
      rw [hfound.1, hlater.1, ← List.map_append]
      exact ⟨rfl, hlater.2⟩

end Behavioral
