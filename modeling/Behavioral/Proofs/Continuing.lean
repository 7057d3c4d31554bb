import Behavioral.Proofs.Casing
import Behavioral.Proofs.Progress

/-!
# Texts that go on

A lexeme looks one character past its end, so it is read the same with more text behind, if
something was behind it already or nothing that it goes on with comes to stand there
(`starts_append`). So a text that is read up to its end is read as the same tokens in front of more
text, if it ends in a blank or the rest starts with nothing that a lexeme goes on with
(`readsTo_append`). Where a text stands only moves the spans of its tokens and the place of its
fault (`outcome_read_congr`).
-/

namespace Behavioral

variable {ambient : Float} {c c' : Cursor} {found : Lexeme} {d : Char} {isVoltage : Bool}
  {ds xs gap text mid rest tail : List Char} {ts : List (Spanned Token)} {vs vs' : List Token}

theorem Stops.append {p : Char → Bool} (h : Stops p xs) (htail : xs ≠ [] ∨ Stops p tail) :
    Stops p (xs ++ tail) := by
  cases xs with
  | nil => exact htail.resolve_left (fun hne => hne rfl)
  | cons x xs => exact stops_cons.2 (stops_cons.1 h)

/-- The text is empty or ends in a blank. -/
def EndsBlank (text : List Char) : Prop :=
  ∀ d ∈ text.getLast?, isBlank d = true

theorem EndsBlank.of_reaches (h : EndsBlank c.rest) (hreaches : c.Reaches c') :
    EndsBlank c'.rest := by
  obtain ⟨taken, hrest, -⟩ := hreaches
  intro d hd
  refine h d ?_
  rw [hrest, List.getLast?_append, Option.mem_def.1 hd]
  rfl

namespace Scan

/-! ### One lexeme -/

/-- The characters that a lexeme may go on with. -/
def goesOn (d : Char) : Bool :=
  continuesName d || endsSymbol d || d == '('

theorem takeRun_nil {p : Char → Bool} (h : c.rest = []) : (c.takeRun p).2.rest = [] := by
  rw [Cursor.takeRun, h, List.dropWhile_nil]

theorem takeRun_append {p : Char → Bool} (hc : c'.rest = c.rest ++ tail)
    (hends : (c.takeRun p).2.rest ≠ [] ∨ Stops p tail) : (c'.takeRun p).1 = (c.takeRun p).1 ∧
      (c'.takeRun p).2.rest = (c.takeRun p).2.rest ++ tail := by
  have hstops : Stops p ((c.takeRun p).2.rest ++ tail) := (stops_dropWhile p c.rest).append hends
  have hrest : c'.rest = (c.takeRun p).1 ++ ((c.takeRun p).2.rest ++ tail) := by
    rw [hc, ← List.append_assoc, Cursor.takeRun, List.takeWhile_append_dropWhile]
  have hall : ∀ d ∈ (c.takeRun p).1, p d = true := fun d hd => List.mem_takeWhile_imp hd
  exact ⟨by rw [Cursor.takeRun, hrest, takeWhile_append_of_all hall hstops],
    by rw [Cursor.takeRun, hrest, dropWhile_append_of_all hall hstops]⟩

/-- Whatever follows the bracket or the comma behind it, the name of a node is the same. -/
theorem nodeName_append {start : Nat} {n : Spanned String} {after : Cursor}
    (h : nodeName start c = .ok (n, after)) (hafter : after.rest ≠ [])
    (hc : c'.rest = c.rest ++ tail) (start' : Nat) :
    ∃ n' after', nodeName start' c' = .ok (n', after') ∧ n'.value = n.value ∧
      after'.rest = after.rest ++ tail := by
  unfold nodeName Cursor.skipRun at h
  simp only at h
  split at h
  · cases h
  · next hname =>
    cases h
    -- each run ends where something is left
    have hbehind : ((c.takeRun isBlank).2.takeRun continuesName).2.rest ≠ [] :=
      mt takeRun_nil hafter
    have hinner : (c.takeRun isBlank).2.rest ≠ [] := mt takeRun_nil hbehind
    obtain ⟨htake, hdrop⟩ := takeRun_append (takeRun_append hc (.inl hinner)).2 (.inl hbehind)
    unfold nodeName Cursor.skipRun
    simp only [htake]
    rw [if_neg hname]
    exact ⟨_, _, rfl, rfl, (takeRun_append hdrop (.inl hafter)).2⟩

/-- A shorthand ends in its bracket, whatever follows. -/
theorem shorthand_append {start start' : Nat} (h : shorthand start isVoltage c = .ok found)
    (hne : c.rest ≠ []) (hc : c'.rest = c.rest ++ tail) :
    ∃ found', shorthand start' isVoltage c' = .ok found' ∧
      values found'.tokens = values found.tokens ∧
      found'.next.rest = found.next.rest ++ tail := by
  have hinner : (c'.advance 1).rest = (c.advance 1).rest ++ tail := by
    obtain ⟨d, ds, hd⟩ := List.exists_cons_of_ne_nil hne
    rw [Cursor.rest_advance, Cursor.rest_advance, hc, hd]
    rfl
  obtain ⟨a, afterA, ha, hcase⟩ := shorthand_ok h
  rcases hcase with ⟨ds, hds, rfl⟩ | ⟨ds, b, afterB, es, rfl, hds, hb, hes, rfl⟩
  · obtain ⟨a', afterA', ha', hvalue, hafter⟩ :=
      nodeName_append ha (hds ▸ List.cons_ne_nil _ _) hinner start'
    rw [hds, List.cons_append] at hafter
    refine ⟨_, shorthand_closing ha' hafter, ?_, ?_⟩
    · rw [hvalue]
      rfl
    · rw [single, single, advance_one hds, advance_one hafter]
  · obtain ⟨a', afterA', ha', hvalue, hafter⟩ :=
      nodeName_append ha (hds ▸ List.cons_ne_nil _ _) hinner start'
    rw [hds, List.cons_append] at hafter
    have hinnerB : (afterA'.advance 1).rest = (afterA.advance 1).rest ++ tail := by
      rw [advance_one hds, advance_one hafter]
    obtain ⟨b', afterB', hb', hvalueB, hafterB⟩ :=
      nodeName_append hb (hes ▸ List.cons_ne_nil _ _) hinnerB start'
    rw [hes, List.cons_append] at hafterB
    refine ⟨_, shorthand_difference ha' hafter hb' hafterB, ?_, ?_⟩
    · simp only [values, difference, Lexeme.tokens, marked, List.map_cons, List.map_nil, hvalue,
        hvalueB]
    · rw [difference, difference, advance_one hes, advance_one hafterB]

theorem word_append (h : word ambient c = .ok found) (hc : c'.rest = c.rest ++ tail)
    (hends : (c.takeRun continuesName).2.rest ≠ [] ∨ Stops goesOn tail) :
    ∃ found', word ambient c' = .ok found' ∧ values found'.tokens = values found.tokens ∧
      found'.next.rest = found.next.rest ++ tail := by
  obtain ⟨htake, hdrop⟩ := takeRun_append hc (hends.imp_right fun hstops =>
    hstops.of_imp fun d hd => by rw [goesOn, hd]; rfl)
  have hbracket : (c'.takeRun continuesName).2.rest.head? = some '(' ↔
      (c.takeRun continuesName).2.rest.head? = some '(' := by
    rw [hdrop]
    cases hbehind : (c.takeRun continuesName).2.rest with
    | nil =>
      rw [hbehind] at hends
      have hstops := hends.resolve_left fun hne => hne rfl
      refine ⟨fun hhead => ?_, nofun⟩
      exact absurd (hstops '(' hhead) (by decide)
    | cons e es => rfl
  have hne (hhead : (c.takeRun continuesName).2.rest.head? = some '(') :
      (c.takeRun continuesName).2.rest ≠ [] := by
    rintro hnil
    rw [hnil] at hhead
    cases hhead
  rw [word_eq] at h
  rw [word_eq, htake]
  simp only [hbracket]
  split_ifs at h ⊢ with hvoltage hcurrent
  · exact shorthand_append h (hne hvoltage.1) hdrop
  · exact shorthand_append h (hne hcurrent.1) hdrop
  · cases h
    exact ⟨_, rfl, rfl, hdrop⟩

theorem number_append (h : number c = .ok found) (hc : c'.rest = c.rest ++ tail)
    (hends : found.next.rest ≠ [] ∨ Stops goesOn tail) :
    ∃ found', number c' = .ok found' ∧ values found'.tokens = values found.tokens ∧
      found'.next.rest = found.next.rest ++ tail := by
  obtain ⟨hpower, hruns, rfl⟩ := number_eq_ok.1 h
  have hends : c.rest.drop (Numeral.scan c.rest).length ≠ [] ∨ Stops continuesNumeral tail := by
    refine hends.imp_right fun hstops => hstops.of_imp fun e he => ?_
    simp only [continuesNumeral, Bool.or_eq_true, beq_iff_eq] at he
    rcases he with (he | he) | rfl
    · rw [goesOn, continuesName_of_isAsciiDigit he, Bool.true_or, Bool.true_or]
    · rw [goesOn, continuesName_of_isAsciiLetter he, Bool.true_or, Bool.true_or]
    · decide
  have hstops := Numeral.stops_numeral hruns
  have htake := Numeral.scan_take hstops
  have hrest : c'.rest = c.rest.take (Numeral.scan c.rest).length ++
      (c.rest.drop (Numeral.scan c.rest).length ++ tail) := by
    rw [hc, ← List.append_assoc, List.take_append_drop]
  have hscan : Numeral.scan c'.rest = Numeral.scan c.rest := by
    rw [hrest, Numeral.scan_append_of_power (hstops.append hends) (by rw [htake, hpower]), htake]
  have hdrop : c'.rest.drop (Numeral.scan c.rest).length =
      c.rest.drop (Numeral.scan c.rest).length ++ tail := by
    rw [hc, List.drop_append_of_le_length (Numeral.narrow_scan c.rest).1]
  refine ⟨single c'.offset (.number (Numeral.scan c.rest).value)
    (c'.offset + (Numeral.scan c.rest).length) (c'.advance (Numeral.scan c.rest).length), ?_, rfl,
    hdrop⟩
  rw [number_eq_ok, hscan, hdrop]
  refine ⟨hpower, hruns.append (hends.imp_right fun hstops => hstops.of_imp fun e he => ?_), rfl⟩
  rcases Bool.or_eq_true_iff.1 he with he | he <;> simp [continuesNumeral, he]

theorem startsNumber_append_of_ends (hne : xs ≠ [])
    (hends : 2 ≤ xs.length ∨ Stops isAsciiDigit tail) :
    startsNumber (xs ++ tail) = startsNumber xs := by
  rcases hends with htwo | hstops
  · match xs with
    | d :: e :: xs =>
      by_cases hd : d = '.'
      · rw [hd]
        rfl
      · rw [List.cons_append, startsNumber_cons hd, startsNumber_cons hd]
    | [d] => simp at htwo
  · exact startsNumber_append hne hstops

/-- A lexeme is read the same with more text behind, if there was text behind it already or it does
not go on there. -/
theorem starts_append (hd : c.rest = d :: ds) (h : lexeme ambient c d = .ok found)
    (hc : c'.rest = c.rest ++ tail) (hends : found.next.rest ≠ [] ∨ Stops goesOn tail) :
    Starts ambient c' (values found.tokens) (found.next.rest ++ tail) := by
  have hd' : c'.rest = d :: (ds ++ tail) := by rw [hc, hd, List.cons_append]
  have hstarts' : startsNumber c'.rest = startsNumber c.rest := by
    rw [hc, startsNumber_append_of_ends (hd ▸ List.cons_ne_nil d ds)]
    refine hends.imp (fun hne => ?_) fun hstops => hstops.of_imp fun e he => ?_
    · have hlt := length_next_lt hd h
      have hpos := List.length_pos_iff.2 hne
      omega
    · rw [goesOn, continuesName_of_isAsciiDigit he, Bool.true_or, Bool.true_or]
  rcases lexeme_ok h with ⟨s, n, hs, rfl⟩ | ⟨hstarts, hnumber⟩ | ⟨hstarts, hname, hword⟩
  · have hs' : symbol? c'.rest = some (s, n) := by
      rw [hc, symbol?_append hs (hends.imp_right fun hstops =>
        hstops.of_imp fun e he => by rw [goesOn, he, Bool.or_true, Bool.true_or])]
    refine ⟨d, _, single c'.offset (.symbol s) (c'.offset + n) (c'.advance n), hd', ?_, rfl, ?_⟩
    · unfold lexeme
      rw [hs']
    · have hle := (symbol_take hs).1.1
      rw [single, single, Cursor.rest_advance, Cursor.rest_advance, hc,
        List.drop_append_of_le_length hle]
  · obtain ⟨found', hnumber', hvalues, hnext⟩ := number_append hnumber hc hends
    have hcontinues := continuesName_of_startsNumber (hd ▸ hstarts)
    refine ⟨d, _, found', hd', ?_, hvalues, hnext⟩
    rw [lexeme_of_continuesName hcontinues hd', if_pos (hstarts'.trans hstarts), hnumber']
  · have hbehind : (c.takeRun continuesName).2.rest ≠ [] ∨ Stops goesOn tail := by
      refine hends.imp_left fun hne hnil => hne (List.length_eq_zero_iff.1 ?_)
      have hle := length_word_le hword
      rw [hnil] at hle
      exact Nat.le_zero.1 hle
    obtain ⟨found', hword', hvalues, hnext⟩ := word_append hword hc hbehind
    have hcontinues := continuesName_of_startsName hname
    refine ⟨d, _, found', hd', ?_, hvalues, hnext⟩
    rw [lexeme_of_continuesName hcontinues hd', hstarts', hstarts, if_neg Bool.false_ne_true,
      if_pos hname, hword']

/-- No lexeme ends in a blank. -/
theorem lexeme_next_ne_nil (hd : c.rest = d :: ds) (h : lexeme ambient c d = .ok found)
    (hend : EndsBlank c.rest) : found.next.rest ≠ [] := by
  intro hnil
  obtain ⟨xs, b, hxs⟩ : ∃ xs b, c.rest = xs ++ [b] := by
    rcases List.eq_nil_or_concat' c.rest with hempty | hlast
    · rw [hempty] at hd
      cases hd
    · exact hlast
  have hb : isBlank b = true := hend b (by simp [hxs])
  rcases lexeme_ok h with ⟨s, n, hs, rfl⟩ | ⟨hstarts, hnumber⟩ | ⟨hstarts, hname, hword⟩
  · have hlength : c.rest.length ≤ n := List.drop_eq_nil_iff.1 hnil
    unfold symbol? at hs
    split at hs
    case h_20 => cases hs
    all_goals
      next hrest =>
        obtain ⟨-, rfl⟩ := Prod.mk.inj (Option.some.inj hs)
        rw [hrest] at hlength hend
        obtain rfl := List.length_eq_zero_iff.1 (Nat.le_zero.1 (by simpa using hlength))
        exact absurd (hend _ rfl) (by decide)
  · obtain ⟨-, -, rfl⟩ := number_eq_ok.1 hnumber
    have hlength : c.rest.length ≤ (Numeral.scan c.rest).length := List.drop_eq_nil_iff.1 hnil
    have hscan : Numeral.scan c.rest = Numeral.scan xs := by
      rw [hxs, Numeral.scan_append (stops_cons.2 (not_of_isBlank (by decide +kernel) hb))
        (.inl (stops_cons.2 (not_of_isBlank (by decide +kernel) hb)))]
    have hle := (Numeral.narrow_scan xs).1
    rw [hscan, hxs, List.length_append, List.length_singleton] at hlength
    omega
  · rcases word_ok hword with ⟨isVoltage, l, rest, hl, hrest, hshort⟩ | rfl
    · -- a shorthand ends in its bracket
      have hbracket (after : Cursor) (hreaches : c.Reaches after) (hafter : after.rest = [')']) :
          False := by
        have hlast := hend.of_reaches hreaches ')' (by rw [hafter]; rfl)
        exact absurd hlast (by decide)
      have hinner : c.Reaches (Cursor.advance ⟨c.offset + l.utf8Size, '(' :: rest⟩ 1) :=
        ⟨[l, '('], hrest, by simp [Cursor.advance, Nat.add_assoc]⟩
      obtain ⟨a, afterA, ha, hcase⟩ := shorthand_ok hshort
      have hafterA := hinner.trans (nodeName_reaches ha)
      rcases hcase with ⟨ds, hds, rfl⟩ | ⟨ds, b, afterB, es, -, hds, hb, hes, rfl⟩
      · rw [single, advance_one hds] at hnil
        exact hbracket afterA hafterA (by rw [hds, show ds = [] from hnil])
      · rw [difference, advance_one hes] at hnil
        have hafterB := hafterA.trans ((Cursor.reaches_advance _ 1).trans (nodeName_reaches hb))
        exact hbracket afterB hafterB (by rw [hes, show es = [] from hnil])
    · have hall := List.dropWhile_eq_nil_iff.1 hnil b (by simp [hxs])
      rw [continuesName_of_isBlank hb] at hall
      cases hall

end Scan

/-! ### Whole texts -/

/-- In a text, the tokens `vs` come first, and `rest` is still to be read behind them. -/
def ReadsTo (ambient : Float) (text : List Char) (vs : List Token) (rest : List Char) : Prop :=
  ∀ c : Cursor, c.rest = text → ∃ ts next, Scanner.read ambient c =
    (ts ++ (Scanner.read ambient next).1, (Scanner.read ambient next).2) ∧
    values ts = vs ∧ next.rest = rest

theorem readsTo_nil : ReadsTo ambient text [] text :=
  fun c hc => ⟨[], c, rfl, rfl, hc⟩

theorem ReadsTo.trans (h : ReadsTo ambient text vs mid) (h' : ReadsTo ambient mid vs' rest) :
    ReadsTo ambient text (vs ++ vs') rest := by
  intro c hc
  obtain ⟨ts, next, hread, hvs, hnext⟩ := h c hc
  obtain ⟨ts', next', hread', hvs', hnext'⟩ := h' next hnext
  refine ⟨ts ++ ts', next', ?_, by rw [values_append, hvs, hvs'], hnext'⟩
  rw [hread, hread', List.append_assoc]

theorem readsTo_of_starts
    (h : ∀ c : Cursor, c.rest = text → Scan.Starts ambient (c.skipRun isBlank) vs rest) :
    ReadsTo ambient text vs rest := by
  intro c hc
  obtain ⟨d, ds, found, hd, hl, hvalues, hnext⟩ := h c hc
  exact ⟨found.tokens, found.next, read_lexeme hd hl, hvalues, hnext⟩

theorem readsTo_lexeme (hgap : Gap gap) (h : ∀ offset, Scan.Starts ambient ⟨offset, text⟩ vs rest) :
    ReadsTo ambient (gap ++ text) vs rest :=
  readsTo_of_starts fun _ hc => Scan.starts_skip hgap hc h

theorem readsTo_symbol (hgap : Gap gap) {s : Symbol}
    (hs : Scan.symbol? (d :: tail) = some (s, 1)) :
    ReadsTo ambient (gap ++ d :: tail) [.symbol s] tail := by
  refine readsTo_lexeme hgap fun offset => ⟨d, tail,
    Scan.single offset (.symbol s) (offset + 1) (Cursor.advance ⟨offset, d :: tail⟩ 1), rfl, ?_,
    rfl, rfl⟩
  unfold Scan.lexeme
  rw [hs]

/-- A text that is read up to its end is read as the same tokens in front of more text. -/
theorem readsTo_append (h : Scanner.read ambient c = (ts, none))
    (hends : EndsBlank c.rest ∨ Stops Scan.goesOn tail) :
    ∃ gap, Gap gap ∧ ReadsTo ambient (c.rest ++ tail) (values ts) (gap ++ tail) := by
  fun_induction Scanner.read ambient c generalizing ts with
  | case1 c hnil =>
    cases h
    exact ⟨c.rest, gap_of_skipRun hnil, readsTo_nil⟩
  | case2 => cases h
  | case3 c d ds hd found hl tokens fault hread ih =>
    cases h
    have hskip := Cursor.reaches_skipRun isBlank c
    obtain ⟨gap, hgap, hlater⟩ := ih hread (hends.imp_left fun hend =>
      (hend.of_reaches hskip).of_reaches (by
        obtain ⟨slices, -, htiles⟩ := Scan.spells_lexeme hd hl
        exact htiles.reaches))
    have hfirst : ReadsTo ambient (c.rest ++ tail) (values found.tokens)
        (found.next.rest ++ tail) := by
      refine readsTo_of_starts fun c' hc' => ?_
      have hskip' := Scan.takeRun_append hc' (.inl (hd ▸ List.cons_ne_nil d ds))
      exact Scan.starts_append hd hl hskip'.2 (hends.imp_left fun hend =>
        Scan.lexeme_next_ne_nil hd hl (hend.of_reaches hskip))
    refine ⟨gap, hgap, ?_⟩
    rw [← Lexeme.tokens, values_append]
    exact hfirst.trans hlater

/-- Texts that are the same behind their first blanks have the same outcome. -/
theorem outcome_read_congr (h : (c.skipRun isBlank).rest = (c'.skipRun isBlank).rest) :
    Scanner.outcome (Scanner.read ambient c) = Scanner.outcome (Scanner.read ambient c') := by
  have hrecase := @outcome_read_recase id ambient c' c recases_id (by rw [h, List.map_id])
  have hid : Token.recase id = id := by
    funext v
    cases v <;> simp [Token.recase, recase]
  rwa [hid, List.map_id] at hrecase

/-- Texts with the same tokens in front have the same outcome if the rests have. -/
theorem ReadsTo.outcome_eq {text' rest' : List Char} (h : ReadsTo ambient text vs rest)
    (h' : ReadsTo ambient text' vs rest') (hrest : rest.dropWhile isBlank = rest'.dropWhile isBlank)
    (hc : c.rest = text) (hc' : c'.rest = text') :
    Scanner.outcome (Scanner.read ambient c) = Scanner.outcome (Scanner.read ambient c') := by
  obtain ⟨ts, next, hread, hvalues, rfl⟩ := h c hc
  obtain ⟨ts', next', hread', hvalues', rfl⟩ := h' c' hc'
  have hlater := @outcome_read_congr ambient next next' hrest
  rw [hread, hread']
  simp only [Scanner.outcome, values_append, Prod.mk.injEq] at hlater ⊢
  rw [hvalues, hvalues', hlater.1]
  exact ⟨rfl, hlater.2⟩

end Behavioral
