import Behavioral.Proofs.Numerals

/-!
# How lexemes are spelled

`Spells` is the grammar of lexemes: the slices of a text that one is cut into and the tokens that
they stand for. Reading a lexeme cuts such slices off the text, with only blanks between them
(`spells_lexeme`), and reads them again from any text that has them in order with a gap behind each
(`starts_of_spells`).
-/

namespace Behavioral

variable {ambient : Float} {c next : Cursor} {found : Lexeme} {d : Char} {isVoltage : Bool}
  {cs ds name gap rest slice tail text after : List Char} {slices slices' : List (List Char)}
  {ts ts' : List (Spanned Token)} {v : Token} {vs : List Token}

/-- All the tokens of a lexeme. -/
def Lexeme.tokens (found : Lexeme) : List (Spanned Token) :=
  found.first :: found.others

def values (tokens : List (Spanned Token)) : List Token :=
  tokens.map (·.value)

/-- From `c` to `next`, the text is gaps and the slices that the spans of the tokens delimit. -/
inductive Tiles (next : Cursor) : Cursor → List (Spanned Token) → List (List Char) → Prop
  | nil : Tiles next next [] []
  | cons {c : Cursor} {t : Spanned Token} {gap slice rest : List Char} {tokens slices} :
      Gap gap → slice ≠ [] → c.rest = gap ++ (slice ++ rest) →
      t.start = c.offset + Cursor.bytes gap → t.stop = t.start + Cursor.bytes slice →
      Tiles next ⟨t.stop, rest⟩ tokens slices → Tiles next c (t :: tokens) (slice :: slices)

/-- Up to `after`, the text is gaps and the slices, each with a gap or the end of the text behind
it. -/
inductive Spaced (after : List Char) : List (List Char) → List Char → Prop
  | nil : Spaced after [] after
  | cons {gap slice tail : List Char} {slices} :
      Gap gap → Closed tail → Spaced after slices tail →
      Spaced after (slice :: slices) (gap ++ (slice ++ tail))

theorem Tiles.append {mid : Cursor} (h : Tiles mid c ts slices) (h' : Tiles next mid ts' slices') :
    Tiles next c (ts ++ ts') (slices ++ slices') := by
  induction h with
  | nil => exact h'
  | cons hgap hne hrest hstart hstop _ ih => exact .cons hgap hne hrest hstart hstop ih

theorem Tiles.single (hne : slice ≠ []) (hrest : c.rest = slice ++ next.rest)
    (hnext : next.offset = c.offset + Cursor.bytes slice) :
    Tiles next c [⟨c.offset, v, next.offset⟩] [slice] :=
  .cons gap_nil hne hrest rfl hnext .nil

/-- A token of as many bytes as characters. -/
theorem Tiles.advance {n : Nat} (hn : Narrow n c.rest) (hpos : 0 < n) :
    Tiles (c.advance n) c [⟨c.offset, v, c.offset + n⟩] [c.rest.take n] := by
  have hne : c.rest.take n ≠ [] :=
    List.ne_nil_of_length_pos (by rwa [List.length_take_of_le hn.1])
  have hnext : (c.advance n).offset = c.offset + n := by rw [Cursor.advance, hn.2]
  rw [← hnext]
  exact .single hne (List.take_append_drop n c.rest).symm rfl

theorem Spaced.of_append : ∀ {slices : List (List Char)} {text : List Char},
    Spaced rest (slices ++ slices') text → ∃ mid, Spaced mid slices text ∧ Spaced rest slices' mid
  | [], text, h => ⟨text, .nil, h⟩
  | _ :: _, _, .cons hgap hclosed h =>
    have ⟨mid, hfirst, hlater⟩ := Spaced.of_append h
    ⟨mid, .cons hgap hclosed hfirst, hlater⟩

theorem Spaced.of_cons (h : Spaced after (slice :: slices) text) :
    ∃ gap tail, Gap gap ∧ Closed tail ∧ text = gap ++ (slice ++ tail) ∧
      Spaced after slices tail := by
  cases h with
  | cons hgap hclosed hlater => exact ⟨_, _, hgap, hclosed, rfl, hlater⟩

namespace Scan

/-! ### The grammar -/

/-- What a node or a component may be called. -/
def IsName (cs : List Char) : Prop :=
  cs ≠ [] ∧ ∀ c ∈ cs, continuesName c = true

/-- A word in an expression, which is not a number. -/
structure IsWord (cs : List Char) : Prop where
  starts : ∃ d ds, cs = d :: ds ∧ startsName d = true
  continues : ∀ c ∈ cs, continuesName c = true
  not_number : startsNumber cs = false

/-- What a word stands for: a named constant, or itself. -/
def wordToken (ambient : Float) (cs : List Char) : Token :=
  match namedConstant? ambient (capitals (String.ofList cs)) with
  | some value => .number value
  | none => .name (String.ofList cs)

/-- The letter of a shorthand. -/
def IsLetter (isVoltage : Bool) (l : Char) : Prop :=
  capital l = if isVoltage then 'V' else 'I'

def mark (isVoltage : Bool) : String → String :=
  if isVoltage then voltageName else currentName

/-- The slices that a lexeme is cut into and the tokens that it stands for. A difference is cut
behind its bracket and around its names and its comma; any other lexeme is a slice of its own. -/
inductive Spells (ambient : Float) : List (List Char) → List Token → Prop
  | symbol {cs : List Char} {s : Symbol} :
      symbol? cs = some (s, cs.length) → Spells ambient [cs] [.symbol s]
  | number {cs : List Char} :
      startsNumber cs = true → (Numeral.scan cs).powerMissing = false →
      (Numeral.scan cs).length = cs.length →
      Spells ambient [cs] [.number (Numeral.scan cs).value]
  | word {cs : List Char} : IsWord cs → Spells ambient [cs] [wordToken ambient cs]
  | shorthand {isVoltage : Bool} {l : Char} {gap name gap' : List Char} :
      IsLetter isVoltage l → Gap gap → IsName name → Gap gap' →
      Spells ambient [l :: '(' :: (gap ++ (name ++ (gap' ++ [')'])))]
        [.name (mark isVoltage (String.ofList name))]
  | difference {l : Char} {a b : List Char} :
      IsLetter true l → IsName a → IsName b →
      Spells ambient [[l, '('], a, [','], b, [')']]
        [.symbol .opening, .name (voltageName (String.ofList a)), .symbol .minus,
          .name (voltageName (String.ofList b)), .symbol .closing]

/-! ### The readers as rules -/

theorem lexeme_ok (h : lexeme ambient c d = .ok found) :
    (∃ s n, symbol? c.rest = some (s, n) ∧
      found = single c.offset (.symbol s) (c.offset + n) (c.advance n)) ∨
    (startsNumber c.rest = true ∧ number c = .ok found) ∨
    (startsNumber c.rest = false ∧ startsName d = true ∧ word ambient c = .ok found) := by
  unfold lexeme at h
  split at h
  · next s n hs => exact .inl ⟨s, n, hs, (Except.ok.inj h).symm⟩
  · split_ifs at h with _ _ hnumber hname
    · exact .inr (.inl ⟨hnumber, h⟩)
    · exact .inr (.inr ⟨Bool.eq_false_iff.2 hnumber, hname, h⟩)

/-- A number is read unless its power of ten has no digits or it runs on. -/
theorem number_eq_ok : number c = .ok found ↔
    (Numeral.scan c.rest).powerMissing = false ∧
      Stops (fun d => isAsciiDigit d || d == '.') (c.rest.drop (Numeral.scan c.rest).length) ∧
      found = single c.offset (.number (Numeral.scan c.rest).value)
        (c.offset + (Numeral.scan c.rest).length) (c.advance (Numeral.scan c.rest).length) := by
  unfold number
  simp only [Cursor.rest_advance]
  split
  · next hpower => simp [hpower]
  · next hpower =>
    split
    · next d ds hrest =>
      split
      · next hruns => simp only [hrest, stops_cons, hruns, reduceCtorEq, false_and, and_false]
      · next hruns => simp [hrest, hpower, hruns, @eq_comm _ found]
    · next hrest => simp [hrest, hpower, @eq_comm _ found]

theorem advance_one (h : c.rest = d :: ds) : c.advance 1 = ⟨c.offset + d.utf8Size, ds⟩ := by
  rw [Cursor.advance, h]
  rfl

/-- The name of a node is read from between blanks. -/
theorem nodeName_ok {start : Nat} {n : Spanned String} {after : Cursor}
    (h : nodeName start c = .ok (n, after)) :
    ∃ gap name gap', Gap gap ∧ IsName name ∧ Gap gap' ∧
      c.rest = gap ++ (name ++ (gap' ++ after.rest)) ∧ n.start = c.offset + Cursor.bytes gap ∧
      n.value = String.ofList name ∧ n.stop = n.start + Cursor.bytes name ∧
      after.offset = n.stop + Cursor.bytes gap' := by
  unfold nodeName at h
  simp only at h
  split at h
  · cases h
  · next hname =>
    cases h
    refine ⟨_, _, _, fun c hc => List.mem_takeWhile_imp hc,
      ⟨fun hnil => hname (List.isEmpty_iff.2 hnil), fun c hc => List.mem_takeWhile_imp hc⟩,
      fun c hc => List.mem_takeWhile_imp hc, ?_, rfl, rfl, rfl, rfl⟩
    simp only [Cursor.skipRun, Cursor.takeRun]
    rw [List.takeWhile_append_dropWhile, List.takeWhile_append_dropWhile,
      List.takeWhile_append_dropWhile]

/-- The tokens of a difference whose names have been read. -/
def difference (start opened : Nat) (a : Spanned String) (afterA : Cursor) (b : Spanned String)
    (afterB : Cursor) : Lexeme where
  first := ⟨start, .symbol .opening, opened⟩
  others := [
    marked voltageName a,
    ⟨afterA.offset, .symbol .minus, afterA.offset + 1⟩,
    marked voltageName b,
    ⟨afterB.offset, .symbol .closing, afterB.offset + 1⟩]
  next := afterB.advance 1

/-- What follows a name decides: its bracket, or a comma if the letter is that of a voltage. -/
theorem shorthand_eq (start : Nat) (isVoltage : Bool) (c : Cursor) :
    shorthand start isVoltage c = nodeName start (c.advance 1) >>= fun x =>
      if x.2.rest.head? = some ')' then
        .ok (single start (.name (mark isVoltage x.1.value)) (x.2.offset + 1) (x.2.advance 1))
      else if x.2.rest.head? = some ',' ∧ isVoltage = true then
        nodeName start (x.2.advance 1) >>= fun y =>
          if y.2.rest.head? = some ')' then
            .ok (difference start (c.advance 1).offset x.1 x.2 y.1 y.2)
          else .error (.differenceNotClosed start, y.2)
      else .error (.shorthandNotClosed start, x.2) := by
  unfold shorthand
  refine congrArg (nodeName start (c.advance 1) >>= ·) (funext fun x => ?_)
  obtain ⟨a, afterA⟩ := x
  simp only
  split
  · next hclosing =>
    rw [hclosing]
    cases isVoltage <;> rfl
  · next hcomma =>
    rw [hcomma]
    cases isVoltage
    · rfl
    · refine congrArg (nodeName start (afterA.advance 1) >>= ·) (funext fun y => ?_)
      obtain ⟨b, afterB⟩ := y
      simp only
      split
      · next hclosing =>
        rw [hclosing]
        rfl
      · next hnone =>
        rw [if_neg fun hhead => ?_]
        obtain ⟨ds, hds⟩ := List.head?_eq_some_iff.1 hhead
        exact hnone ds hds
  · next hclosing hcomma =>
    rw [if_neg fun hhead => ?_, if_neg fun hhead => ?_]
    · obtain ⟨ds, hds⟩ := List.head?_eq_some_iff.1 hhead.1
      exact hcomma ds hds
    · obtain ⟨ds, hds⟩ := List.head?_eq_some_iff.1 hhead
      exact hclosing ds hds

theorem shorthand_ok {start : Nat} (h : shorthand start isVoltage c = .ok found) :
    ∃ a afterA, nodeName start (c.advance 1) = .ok (a, afterA) ∧
      ((∃ ds, afterA.rest = ')' :: ds ∧ found = single start
          (.name (mark isVoltage a.value)) (afterA.offset + 1) (afterA.advance 1)) ∨
        ∃ ds b afterB es, isVoltage = true ∧ afterA.rest = ',' :: ds ∧
          nodeName start (afterA.advance 1) = .ok (b, afterB) ∧ afterB.rest = ')' :: es ∧
          found = difference start (c.advance 1).offset a afterA b afterB) := by
  rw [shorthand_eq] at h
  rcases hfirst : nodeName start (c.advance 1) with f | ⟨a, afterA⟩
  · rw [hfirst] at h
    cases h
  · rw [hfirst] at h
    refine ⟨a, afterA, rfl, ?_⟩
    simp only [bind, Except.bind] at h
    split_ifs at h with hclosing hcomma
    · obtain ⟨ds, hds⟩ := List.head?_eq_some_iff.1 hclosing
      exact .inl ⟨ds, hds, (Except.ok.inj h).symm⟩
    · obtain ⟨ds, hds⟩ := List.head?_eq_some_iff.1 hcomma.1
      rcases hsecond : nodeName start (afterA.advance 1) with f | ⟨b, afterB⟩
      · rw [hsecond] at h
        cases h
      · rw [hsecond] at h
        simp only at h
        split_ifs at h with hclosing'
        obtain ⟨es, hes⟩ := List.head?_eq_some_iff.1 hclosing'
        exact .inr ⟨ds, b, afterB, es, hcomma.2, hds, rfl, hes, (Except.ok.inj h).symm⟩

theorem shorthand_closing {start : Nat} {a : Spanned String} {afterA : Cursor}
    (ha : nodeName start (c.advance 1) = .ok (a, afterA)) (hds : afterA.rest = ')' :: ds) :
    shorthand start isVoltage c = .ok (single start (.name (mark isVoltage a.value))
      (afterA.offset + 1) (afterA.advance 1)) := by
  simp only [shorthand, ha, bind, Except.bind, hds]
  cases isVoltage <;> rfl

theorem shorthand_difference {start : Nat} {a b : Spanned String} {afterA afterB : Cursor}
    {es : List Char} (ha : nodeName start (c.advance 1) = .ok (a, afterA))
    (hds : afterA.rest = ',' :: ds) (hb : nodeName start (afterA.advance 1) = .ok (b, afterB))
    (hes : afterB.rest = ')' :: es) :
    shorthand start true c =
      .ok (difference start (c.advance 1).offset a afterA b afterB) := by
  simp only [shorthand, ha, bind, Except.bind, hds, hb, hes, if_true]
  rfl

theorem eq_singleton_of_capitals (h : capitals (String.ofList cs) = String.ofList [d]) :
    ∃ l, cs = [l] ∧ capital l = d := by
  have hlist : cs.map capital = [d] := by
    simpa [capitals] using congrArg String.toList h
  obtain ⟨l, rfl, hl⟩ := List.map_eq_singleton_iff.1 hlist
  exact ⟨l, rfl, hl⟩

/-- The letter of a shorthand is one only straight in front of a bracket. -/
theorem word_eq (ambient : Float) (c : Cursor) : word ambient c =
    if (c.takeRun continuesName).2.rest.head? = some '(' ∧
        capitals (String.ofList (c.takeRun continuesName).1) = "V" then
      shorthand c.offset true (c.takeRun continuesName).2
    else if (c.takeRun continuesName).2.rest.head? = some '(' ∧
        capitals (String.ofList (c.takeRun continuesName).1) = "I" then
      shorthand c.offset false (c.takeRun continuesName).2
    else .ok (single c.offset (wordToken ambient (c.takeRun continuesName).1)
      (c.takeRun continuesName).2.offset (c.takeRun continuesName).2) := by
  unfold word
  simp only
  split
  · next hrest hletter => simp [hrest, hletter]
  · next hrest hletter => simp [hrest, hletter]
  · next hvoltage hcurrent =>
    have hnot {letter : String} (h : ∀ rest, (c.takeRun continuesName).2.rest = '(' :: rest →
        capitals (String.ofList (c.takeRun continuesName).1) = letter → False) :
        ¬ ((c.takeRun continuesName).2.rest.head? = some '(' ∧
          capitals (String.ofList (c.takeRun continuesName).1) = letter) := by
      rintro ⟨hhead, hletter⟩
      obtain ⟨rest, hrest⟩ := List.head?_eq_some_iff.1 hhead
      exact h rest hrest hletter
    rw [if_neg (hnot hvoltage), if_neg (hnot hcurrent), wordToken]
    rcases namedConstant? ambient (capitals (String.ofList (c.takeRun continuesName).1)) with
      _ | x <;> rfl

/-- A word is a shorthand's letter straight in front of a bracket, and otherwise stands for
itself. -/
theorem word_ok (h : word ambient c = .ok found) :
    (∃ isVoltage l rest, IsLetter isVoltage l ∧ c.rest = l :: '(' :: rest ∧
      shorthand c.offset isVoltage ⟨c.offset + l.utf8Size, '(' :: rest⟩ = .ok found) ∨
    found = single c.offset (wordToken ambient (c.rest.takeWhile continuesName))
      (c.takeRun continuesName).2.offset (c.takeRun continuesName).2 := by
  have hletter (isVoltage : Bool)
      (hword : (c.takeRun continuesName).2.rest.head? = some '(' ∧
        capitals (String.ofList (c.takeRun continuesName).1) =
          String.ofList [if isVoltage then 'V' else 'I'])
      (h : shorthand c.offset isVoltage (c.takeRun continuesName).2 = .ok found) :
      ∃ isVoltage l rest, IsLetter isVoltage l ∧ c.rest = l :: '(' :: rest ∧
        shorthand c.offset isVoltage ⟨c.offset + l.utf8Size, '(' :: rest⟩ = .ok found := by
    obtain ⟨rest, hrest⟩ := List.head?_eq_some_iff.1 hword.1
    obtain ⟨l, htake, hl⟩ := eq_singleton_of_capitals hword.2
    have hsplit := List.takeWhile_append_dropWhile (p := continuesName) (l := c.rest)
    simp only [Cursor.takeRun] at hrest htake h
    rw [htake, hrest] at hsplit
    rw [htake, hrest] at h
    exact ⟨isVoltage, l, rest, hl, hsplit.symm, h⟩
  rw [word_eq] at h
  split_ifs at h with hvoltage hcurrent
  · exact .inl (hletter true hvoltage h)
  · exact .inl (hletter false hcurrent h)
  · exact .inr (Except.ok.inj h).symm

/-! ### What is read is spelled so -/

theorem symbol_take {s : Symbol} {n : Nat} (h : symbol? cs = some (s, n)) :
    Narrow n cs ∧ symbol? (cs.take n) = some (s, n) := by
  unfold symbol? at h
  split at h
  case h_20 => cases h
  all_goals
    obtain ⟨rfl, rfl⟩ := Prod.mk.inj (Option.some.inj h)
    exact ⟨⟨by simp, rfl⟩, rfl⟩

theorem startsNumber_cons (hd : d ≠ '.') : startsNumber (d :: ds) = isAsciiDigit d := by
  unfold startsNumber
  split
  · next h => exact absurd (List.cons.inj h).1 hd
  · next h => rw [(List.cons.inj h).1]
  · next h => cases h

theorem startsNumber_append (hne : cs ≠ []) (h : Stops isAsciiDigit tail) :
    startsNumber (cs ++ tail) = startsNumber cs := by
  obtain ⟨d, ds, rfl⟩ := List.exists_cons_of_ne_nil hne
  by_cases hd : d = '.'
  · subst hd
    match ds, tail with
    | [], [] => rfl
    | [], e :: es => exact stops_cons.1 h
    | e :: es, tail => rfl
  · rw [List.cons_append, startsNumber_cons hd, startsNumber_cons hd]

theorem spells_symbol {s : Symbol} {n : Nat} (h : symbol? c.rest = some (s, n)) :
    Spells ambient [c.rest.take n] [.symbol s] ∧
      Tiles (c.advance n) c [⟨c.offset, .symbol s, c.offset + n⟩] [c.rest.take n] := by
  obtain ⟨hnarrow, htake⟩ := symbol_take h
  refine ⟨.symbol ?_, .advance hnarrow (symbol?_pos h)⟩
  rw [htake, List.length_take_of_le hnarrow.1]

/-- A number that does not run on is cut off where its letters end. -/
theorem spells_number (hstarts : startsNumber c.rest = true) (h : number c = .ok found) :
    ∃ slices, Spells ambient slices (values found.tokens) ∧
      Tiles found.next c found.tokens slices := by
  obtain ⟨hpower, hruns, rfl⟩ := number_eq_ok.1 h
  have hnarrow := Numeral.narrow_scan c.rest
  have hstops := Numeral.stops_numeral hruns
  have hscan := Numeral.scan_take hstops
  have hpos := length_scan_pos hstarts
  have hlength := List.length_take_of_le hnarrow.1
  have hstarts' : startsNumber (c.rest.take (Numeral.scan c.rest).length) = true := by
    have hne := List.ne_nil_of_length_pos (hlength ▸ hpos)
    rw [← startsNumber_append hne hstops.digit, List.take_append_drop, hstarts]
  have hspells : Spells ambient _ _ :=
    .number hstarts' (by rw [hscan, hpower]) (by rw [hscan, hlength])
  rw [hscan] at hspells
  exact ⟨_, hspells, .advance hnarrow hpos⟩

theorem spells_plain (hnumber : startsNumber c.rest = false) (hd : startsName d = true)
    (hc : c.rest = d :: ds) :
    Spells ambient [c.rest.takeWhile continuesName]
      [wordToken ambient (c.rest.takeWhile continuesName)] ∧
    Tiles (c.takeRun continuesName).2 c [⟨c.offset,
      wordToken ambient (c.rest.takeWhile continuesName), (c.takeRun continuesName).2.offset⟩]
      [c.rest.takeWhile continuesName] := by
  have hcons : c.rest.takeWhile continuesName = d :: ds.takeWhile continuesName := by
    rw [hc, List.takeWhile_cons_of_pos (continuesName_of_startsName hd)]
  have hsplit := List.takeWhile_append_dropWhile (p := continuesName) (l := c.rest)
  have hne : c.rest.takeWhile continuesName ≠ [] := by simp [hcons]
  refine ⟨.word ⟨⟨d, _, hcons, hd⟩, fun e he => List.mem_takeWhile_imp he, ?_⟩, ?_⟩
  · rw [← startsNumber_append hne ((stops_dropWhile continuesName c.rest).of_imp
      fun e he => continuesName_of_isAsciiDigit he), hsplit, hnumber]
  · exact .single hne hsplit.symm rfl

theorem spells_shorthand {l : Char} (hl : IsLetter isVoltage l) (hc : c.rest = l :: '(' :: rest)
    (h : shorthand c.offset isVoltage ⟨c.offset + l.utf8Size, '(' :: rest⟩ = .ok found) :
    ∃ slices, Spells ambient slices (values found.tokens) ∧
      Tiles found.next c found.tokens slices := by
  obtain ⟨a, afterA, ha, hcase⟩ := shorthand_ok h
  obtain ⟨gap, name, gap', hgap, hname, hgap', hrest, hstart, hvalue, hstop, hafter⟩ :=
    nodeName_ok ha
  replace hrest : rest = gap ++ (name ++ (gap' ++ afterA.rest)) := hrest
  replace hstart : a.start = c.offset + (l.utf8Size + 1) + Cursor.bytes gap := hstart
  rcases hcase with ⟨ds, hds, rfl⟩ | ⟨ds, b, afterB, es, rfl, hds, hb, hes, rfl⟩
  · have hspells : Spells ambient _ _ := .shorthand hl hgap hname hgap'
    rw [← hvalue] at hspells
    refine ⟨_, hspells, ?_⟩
    rw [advance_one hds]
    show Tiles ⟨afterA.offset + 1, ds⟩ c
      [⟨c.offset, .name (mark isVoltage a.value), afterA.offset + 1⟩] _
    refine .single (by simp) ?_ ?_
    · rw [hc, hrest, hds]
      simp
    · have hopening : '('.utf8Size = 1 := rfl
      have hclosing : ')'.utf8Size = 1 := rfl
      simp only [bytes_cons, bytes_append, bytes_nil, hopening, hclosing]
      omega
  · obtain ⟨gapB, nameB, gapB', hgapB, hnameB, hgapB', hrestB, hstartB, hvalueB, hstopB, hafterB⟩ :=
      nodeName_ok hb
    have hspells : Spells ambient _ _ := .difference hl hname hnameB
    rw [← hvalue, ← hvalueB] at hspells
    refine ⟨_, hspells, ?_⟩
    rw [advance_one hds] at hrestB hstartB
    rw [advance_one rfl, difference, Lexeme.tokens, advance_one hes]
    -- the gaps around a name are in front of it and of the character that ends it
    have hopening : c.rest = [] ++ ([l, '('] ++ rest) := hc
    have hcomma : gap' ++ afterA.rest = gap' ++ ([','] ++ ds) := by rw [hds]; rfl
    have hclosing : gapB' ++ afterB.rest = gapB' ++ ([')'] ++ es) := by rw [hes]; rfl
    refine .cons gap_nil (by simp) hopening rfl rfl ?_
    refine .cons hgap hname.1 hrest hstart hstop ?_
    refine .cons hgap' (by simp) hcomma hafter rfl ?_
    refine .cons hgapB hnameB.1 hrestB hstartB hstopB ?_
    exact .cons hgapB' (by simp) hclosing hafterB rfl .nil

/-- Reading a lexeme cuts off the slices of one. -/
theorem spells_lexeme (hc : c.rest = d :: ds) (h : lexeme ambient c d = .ok found) :
    ∃ slices, Spells ambient slices (values found.tokens) ∧
      Tiles found.next c found.tokens slices := by
  rcases lexeme_ok h with ⟨s, n, hs, rfl⟩ | ⟨hstarts, hnumber⟩ | ⟨hstarts, hd, hword⟩
  · exact ⟨_, spells_symbol hs⟩
  · exact spells_number hstarts hnumber
  · rcases word_ok hword with ⟨isVoltage, l, rest, hl, hrest, hshort⟩ | rfl
    · exact spells_shorthand hl hrest hshort
    · exact ⟨_, spells_plain hstarts hd hc⟩

/-! ### What is spelled so is read -/

/-- The text at `c` starts with a lexeme that stands for `vs`, and `after` is behind it. -/
def Starts (ambient : Float) (c : Cursor) (vs : List Token) (after : List Char) : Prop :=
  ∃ d ds found, c.rest = d :: ds ∧ lexeme ambient c d = .ok found ∧ values found.tokens = vs ∧
    found.next.rest = after

theorem continuesName_of_startsNumber (h : startsNumber (d :: ds) = true) :
    continuesName d = true := by
  by_cases hd : d = '.'
  · subst hd
    decide
  · rw [startsNumber_cons hd] at h
    exact continuesName_of_isAsciiDigit h

theorem symbol?_of_continuesName (h : continuesName d = true) : symbol? (d :: ds) = none := by
  unfold symbol?
  split
  case h_20 => rfl
  all_goals
    next heq =>
      rw [(List.cons.inj heq).1] at h
      exact absurd h (by decide)

theorem isBlank_of_symbol {s : Symbol} {n : Nat} (h : symbol? (d :: ds) = some (s, n)) :
    isBlank d = false := by
  unfold symbol? at h
  split at h
  case h_20 => cases h
  all_goals
    next heq =>
      rw [(List.cons.inj heq).1]
      decide

theorem isBlank_of_lexeme (hc : c.rest = d :: ds) (h : lexeme ambient c d = .ok found) :
    isBlank d = false := by
  rcases lexeme_ok h with ⟨s, n, hs, -⟩ | ⟨hstarts, -⟩ | ⟨-, hd, -⟩
  · rw [hc] at hs
    exact isBlank_of_symbol hs
  · rw [hc] at hstarts
    exact isBlank_of_continuesName (continuesName_of_startsNumber hstarts)
  · exact isBlank_of_continuesName (continuesName_of_startsName hd)

/-- A gap in front of a lexeme is skipped. -/
theorem starts_skip (hgap : Gap gap) (hrest : c.rest = gap ++ text)
    (h : ∀ offset, Starts ambient ⟨offset, text⟩ vs after) :
    Starts ambient (c.skipRun isBlank) vs after := by
  obtain ⟨d, ds, found, htext, hlexeme, -⟩ := h 0
  have hblank : Stops isBlank text := by
    have htext : text = d :: ds := htext
    rw [htext, stops_cons]
    exact isBlank_of_lexeme htext hlexeme
  have hskip : c.skipRun isBlank = ⟨(c.skipRun isBlank).offset, text⟩ := by
    rw [Cursor.skipRun, Cursor.takeRun, hrest, dropWhile_append_of_all hgap hblank]
  rw [hskip]
  exact h _

theorem lexeme_of_continuesName (hd : continuesName d = true) (hc : c.rest = d :: ds) :
    lexeme ambient c d = if startsNumber c.rest then number c
      else if startsName d then word ambient c
      else .error (.unexpected d c.offset, c.advance 1) := by
  have hassign : (d == '=') = false := beq_eq_false_iff_ne.2 fun h => by
    rw [h] at hd
    exact absurd hd (by decide)
  have hsign : (d == '&' || d == '|') = false := Bool.eq_false_iff.2 fun h => by
    rcases Bool.or_eq_true_iff.1 h with h | h <;> rw [eq_of_beq h] at hd <;>
      exact absurd hd (by decide)
  unfold lexeme
  rw [hc, symbol?_of_continuesName hd]
  simp [hassign, hsign]

theorem symbol?_cons_stops (htail : Stops endsSymbol tail) :
    symbol? (d :: tail) = symbol? [d] := by
  cases tail with
  | nil => rfl
  | cons e es =>
    have he : endsSymbol e = false := stops_cons.1 htail
    simp only [endsSymbol, Bool.or_eq_false_iff, beq_eq_false_iff_ne] at he
    unfold symbol?
    split <;> simp_all

/-- A symbol is found whatever follows the text, unless it ends there and that may extend it. -/
theorem symbol?_append {s : Symbol} {n : Nat} (h : symbol? cs = some (s, n))
    (htail : cs.drop n ≠ [] ∨ Stops endsSymbol tail) : symbol? (cs ++ tail) = some (s, n) := by
  unfold symbol? at h
  split at h
  case h_20 => cases h
  all_goals
    obtain ⟨rfl, rfl⟩ := Prod.mk.inj (Option.some.inj h)
    -- only a symbol that a second character may extend looks on, at one or two such characters
    first
    | rfl
    | rename_i rest _
      cases rest with
      | nil => exact symbol?_cons_stops (htail.resolve_left fun hne => hne rfl)
      | cons e es => simp_all [symbol?]
    | rename_i rest _ _
      cases rest with
      | nil => exact symbol?_cons_stops (htail.resolve_left fun hne => hne rfl)
      | cons e es => simp_all [symbol?]

theorem stops_name_gap (hgap : Gap gap) (hd : continuesName d = false) :
    Stops continuesName (gap ++ d :: ds) := by
  cases gap with
  | nil => exact stops_cons.2 hd
  | cons e gap => exact stops_cons.2 (continuesName_of_isBlank (hgap e List.mem_cons_self))

/-- A name between blanks is read up to the character that ends it. -/
theorem nodeName_eq {gap' : List Char} (hgap : Gap gap) (hname : IsName name) (hgap' : Gap gap')
    (hd : continuesName d = false) (hblank : isBlank d = false)
    (hc : c.rest = gap ++ (name ++ (gap' ++ d :: ds))) (start : Nat) :
    ∃ n after, nodeName start c = .ok (n, after) ∧ n.value = String.ofList name ∧
      after.rest = d :: ds := by
  have hafter : Stops continuesName (gap' ++ d :: ds) := stops_name_gap hgap' hd
  have hstops : Stops isBlank (name ++ (gap' ++ d :: ds)) := by
    obtain ⟨e, es, rfl⟩ := List.exists_cons_of_ne_nil hname.1
    exact stops_cons.2 (isBlank_of_continuesName (hname.2 e List.mem_cons_self))
  have hskip : (c.skipRun isBlank).rest = name ++ (gap' ++ d :: ds) := by
    rw [Cursor.skipRun, Cursor.takeRun, hc, dropWhile_append_of_all hgap hstops]
  unfold nodeName
  simp only [Cursor.takeRun, hskip, takeWhile_append_of_all hname.2 hafter,
    List.isEmpty_eq_false_iff.2 hname.1]
  refine ⟨_, _, rfl, rfl, ?_⟩
  rw [Cursor.skipRun, Cursor.takeRun, dropWhile_append_of_all hname.2 hafter,
    dropWhile_append_of_all hgap' (stops_cons.2 hblank)]

theorem starts_symbol {s : Symbol} (h : symbol? cs = some (s, cs.length)) (htail : Closed tail)
    (hc : c.rest = cs ++ tail) : Starts ambient c [.symbol s] tail := by
  have hends : Stops endsSymbol tail := htail.stops (by decide +kernel)
  have hsymbol : symbol? c.rest = some (s, cs.length) := by
    rw [hc, symbol?_append h (.inr hends)]
  have hne : cs ≠ [] := List.ne_nil_of_length_pos (symbol?_pos h)
  obtain ⟨d, ds, rfl⟩ := List.exists_cons_of_ne_nil hne
  refine ⟨d, ds ++ tail, single c.offset (.symbol s) (c.offset + (d :: ds).length)
    (c.advance (d :: ds).length), hc, ?_, rfl, ?_⟩
  · unfold lexeme
    rw [hsymbol]
  · rw [single, Cursor.rest_advance, hc, List.drop_left]

theorem starts_number (hstarts : startsNumber cs = true)
    (hpower : (Numeral.scan cs).powerMissing = false)
    (hlength : (Numeral.scan cs).length = cs.length) (htail : Closed tail)
    (hc : c.rest = cs ++ tail) : Starts ambient c [.number (Numeral.scan cs).value] tail := by
  have hnumeral : Stops continuesNumeral tail := htail.stops (by decide +kernel)
  have hsign : Stops isSign tail := htail.stops (by decide +kernel)
  have hscan : Numeral.scan c.rest = Numeral.scan cs := by
    rw [hc, Numeral.scan_append hnumeral (.inl hsign)]
  have hne : cs ≠ [] := by
    rintro rfl
    cases hstarts
  have hstarts' : startsNumber c.rest = true := by
    rw [hc, startsNumber_append hne hnumeral.digit, hstarts]
  obtain ⟨d, ds, rfl⟩ := List.exists_cons_of_ne_nil hne
  refine ⟨d, ds ++ tail, single c.offset (.number (Numeral.scan (d :: ds)).value)
    (c.offset + (d :: ds).length) (c.advance (d :: ds).length), hc, ?_, rfl, ?_⟩
  · rw [lexeme_of_continuesName (continuesName_of_startsNumber hstarts) hc, if_pos hstarts',
      number_eq_ok, hscan, hlength, hc, List.drop_left]
    refine ⟨hpower, hnumeral.of_imp fun e he => ?_, rfl⟩
    rcases Bool.or_eq_true_iff.1 he with he | he <;> simp [continuesNumeral, he]
  · rw [single, Cursor.rest_advance, hc, List.drop_left]

theorem word_plain (h : ∀ rest, c.rest.dropWhile continuesName ≠ '(' :: rest) :
    word ambient c = .ok (single c.offset (wordToken ambient (c.rest.takeWhile continuesName))
      (c.takeRun continuesName).2.offset (c.takeRun continuesName).2) := by
  have hbracket : (c.takeRun continuesName).2.rest.head? ≠ some '(' := fun hhead => by
    obtain ⟨rest, hrest⟩ := List.head?_eq_some_iff.1 hhead
    exact h rest hrest
  rw [word_eq, if_neg fun hword => hbracket hword.1, if_neg fun hword => hbracket hword.1]
  rfl

/-- A word ends where no character of a name and no bracket follows. -/
theorem starts_word_of_stops (h : IsWord cs) (htail : Stops continuesName tail)
    (hbracket : Stops (· == '(') tail) (hc : c.rest = cs ++ tail) :
    Starts ambient c [wordToken ambient cs] tail := by
  obtain ⟨d, ds, rfl, hd⟩ := h.starts
  have htake : c.rest.takeWhile continuesName = d :: ds := by
    rw [hc, takeWhile_append_of_all h.continues htail]
  have hdrop : c.rest.dropWhile continuesName = tail := by
    rw [hc, dropWhile_append_of_all h.continues htail]
  have hnumber : startsNumber c.rest = false := by
    rw [hc, startsNumber_append (by simp) (htail.of_imp fun _ => continuesName_of_isAsciiDigit),
      h.not_number]
  have hplain : ∀ rest, c.rest.dropWhile continuesName ≠ '(' :: rest := by
    rintro rest hrest
    rw [hdrop] at hrest
    rw [hrest, stops_cons] at hbracket
    cases hbracket
  refine ⟨d, ds ++ tail, single c.offset (wordToken ambient (d :: ds))
    (c.takeRun continuesName).2.offset (c.takeRun continuesName).2, hc, ?_, rfl, hdrop⟩
  rw [lexeme_of_continuesName (continuesName_of_startsName hd) hc, hnumber, if_neg (by simp),
    if_pos hd, word_plain hplain, htake]

theorem starts_word (h : IsWord cs) (htail : Closed tail) (hc : c.rest = cs ++ tail) :
    Starts ambient c [wordToken ambient cs] tail :=
  starts_word_of_stops h htail.stops_name (htail.stops (by decide +kernel)) hc

theorem IsLetter.isAsciiLetter (h : IsLetter isVoltage d) : isAsciiLetter d = true := by
  refine isAsciiLetter_of_capital ?_
  rw [h]
  cases isVoltage <;> decide

/-- A shorthand's letter in front of a bracket starts the shorthand. -/
theorem lexeme_shorthand (hl : IsLetter isVoltage d) (hc : c.rest = d :: '(' :: rest) :
    lexeme ambient c d = shorthand c.offset isVoltage ⟨c.offset + d.utf8Size, '(' :: rest⟩ := by
  have hd := startsName_of_isAsciiLetter hl.isAsciiLetter
  have hname := continuesName_of_startsName hd
  have hnumber : startsNumber c.rest = false := by
    have hletter := hl.isAsciiLetter
    rw [hc, startsNumber_cons]
    · exact isAsciiDigit_of_isAsciiLetter hletter
    · rintro rfl
      exact absurd hletter (by decide)
  have htake : c.takeRun continuesName = ([d], ⟨c.offset + d.utf8Size, '(' :: rest⟩) := by
    have hbracket : continuesName '(' = false := by decide
    simp [Cursor.takeRun, hc, hname, hbracket]
  have hcapitals :
      capitals (String.ofList [d]) = String.ofList [if isVoltage then 'V' else 'I'] := by
    rw [capitals, String.toList_ofList, List.map_singleton, hl]
  rw [lexeme_of_continuesName hname hc, hnumber, if_neg (by simp), if_pos hd, word, htake]
  simp only [hcapitals]
  cases isVoltage <;> rfl

theorem starts_shorthand {l : Char} {gap' : List Char} (hl : IsLetter isVoltage l) (hgap : Gap gap)
    (hname : IsName name) (hgap' : Gap gap')
    (hc : c.rest = l :: '(' :: (gap ++ (name ++ (gap' ++ ')' :: tail)))) :
    Starts ambient c [.name (mark isVoltage (String.ofList name))] tail := by
  have hinner : (Cursor.advance ⟨c.offset + l.utf8Size,
      '(' :: (gap ++ (name ++ (gap' ++ ')' :: tail)))⟩ 1).rest =
        gap ++ (name ++ (gap' ++ ')' :: tail)) := rfl
  obtain ⟨a, after, ha, hvalue, hafter⟩ :=
    nodeName_eq hgap hname hgap' (by decide) (by decide) hinner c.offset
  refine ⟨l, _, single c.offset (.name (mark isVoltage a.value)) (after.offset + 1)
    (after.advance 1), hc, ?_, ?_, ?_⟩
  · rw [lexeme_shorthand hl hc, shorthand_closing ha hafter]
  · rw [← hvalue]
    rfl
  · rw [single, advance_one hafter]

theorem starts_difference {l : Char} {a b gapA gapA' gapB gapB' : List Char} (hl : IsLetter true l)
    (hgapA : Gap gapA) (ha : IsName a) (hgapA' : Gap gapA') (hgapB : Gap gapB) (hb : IsName b)
    (hgapB' : Gap gapB') (hc : c.rest = l :: '(' ::
      (gapA ++ (a ++ (gapA' ++ ',' :: (gapB ++ (b ++ (gapB' ++ ')' :: after))))))) :
    Starts ambient c [.symbol .opening, .name (voltageName (String.ofList a)), .symbol .minus,
      .name (voltageName (String.ofList b)), .symbol .closing] after := by
  have hinner : (Cursor.advance ⟨c.offset + l.utf8Size,
      '(' :: (gapA ++ (a ++ (gapA' ++ ',' :: (gapB ++ (b ++ (gapB' ++ ')' :: after))))))⟩ 1).rest =
        gapA ++ (a ++ (gapA' ++ ',' :: (gapB ++ (b ++ (gapB' ++ ')' :: after))))) := rfl
  obtain ⟨n, afterA, hn, hvalue, hafterA⟩ :=
    nodeName_eq hgapA ha hgapA' (by decide) (by decide) hinner c.offset
  have hinnerB : (afterA.advance 1).rest = gapB ++ (b ++ (gapB' ++ ')' :: after)) := by
    rw [advance_one hafterA]
  obtain ⟨m, afterB, hm, hvalueB, hafterB⟩ :=
    nodeName_eq hgapB hb hgapB' (by decide) (by decide) hinnerB c.offset
  refine ⟨l, _, difference c.offset (c.offset + l.utf8Size + 1) n afterA m afterB, hc, ?_, ?_, ?_⟩
  · exact (lexeme_shorthand hl hc).trans (shorthand_difference hn hafterA hm hafterB)
  · rw [← hvalue, ← hvalueB]
    rfl
  · rw [difference, advance_one hafterB]

/-- The gaps around the names of a difference are those between its slices. -/
theorem starts_difference_spaced {l : Char} {a b : List Char} (hl : IsLetter true l) (ha : IsName a)
    (hb : IsName b) (hspaced : Spaced after [a, [','], b, [')']] text)
    (hc : c.rest = l :: '(' :: text) :
    Starts ambient c [.symbol .opening, .name (voltageName (String.ofList a)), .symbol .minus,
      .name (voltageName (String.ofList b)), .symbol .closing] after := by
  obtain ⟨gapA, tailA, hgapA, -, rfl, hcomma⟩ := hspaced.of_cons
  obtain ⟨gapA', tailB, hgapA', -, rfl, hsecond⟩ := hcomma.of_cons
  obtain ⟨gapB, tailC, hgapB, -, rfl, hclosing⟩ := hsecond.of_cons
  obtain ⟨gapB', _, hgapB', -, rfl, hend⟩ := hclosing.of_cons
  cases hend
  exact starts_difference hl hgapA ha hgapA' hgapB hb hgapB' hc

/-- A lexeme that is spelled somewhere in a text, with a gap behind each of its slices, is read. -/
theorem starts_of_spells (h : Spells ambient slices vs) (hs : Spaced after slices c.rest) :
    Starts ambient (c.skipRun isBlank) vs after := by
  cases h with
  | symbol hsymbol =>
    obtain ⟨gap, tail, hgap, htail, hc, hs⟩ := Spaced.of_cons hs
    cases hs
    exact starts_skip hgap hc fun offset => starts_symbol hsymbol htail rfl
  | number hstarts hpower hlength =>
    obtain ⟨gap, tail, hgap, htail, hc, hs⟩ := Spaced.of_cons hs
    cases hs
    exact starts_skip hgap hc fun offset => starts_number hstarts hpower hlength htail rfl
  | word hword =>
    obtain ⟨gap, tail, hgap, htail, hc, hs⟩ := Spaced.of_cons hs
    cases hs
    exact starts_skip hgap hc fun offset => starts_word hword htail rfl
  | shorthand hl hgapA hname hgapA' =>
    obtain ⟨gap, tail, hgap, htail, hc, hs⟩ := Spaced.of_cons hs
    cases hs
    exact starts_skip hgap hc fun offset => starts_shorthand hl hgapA hname hgapA' (by simp)
  | difference hl ha hb =>
    obtain ⟨gap, tail, hgap, htail, hc, hs⟩ := Spaced.of_cons hs
    exact starts_skip hgap hc fun offset => starts_difference_spaced hl ha hb hs rfl

end Scan

end Behavioral
