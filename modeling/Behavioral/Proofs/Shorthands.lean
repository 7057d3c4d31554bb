import Behavioral.Proofs.Positions

/-!
# Shorthands and what they are short for

A shorthand stands for the tokens of a longer text: `V(a)` for those of `@a`, `I(a)` for those of
`#a`, and `V(a,b)` for those of `(@a - @b)` (`Abbreviates`). Both are read to their ends whatever
follows (`Abbreviates.readsTo`), so behind a text that is read up to its end and ends in a blank,
one may stand in place of the other, in front of any text (`compile_abbreviates`).
-/

namespace Behavioral

open Scan

variable {ambient : Float} {isVoltage : Bool} {l : Char} {name gap tail : List Char}
  {text text' p q short long : String} {settings : Settings} {tokens : Tokens}

/-- A shorthand and the text that it is short for, with a blank in place of the closing bracket
behind a single name. The letter is of either case, and there may be blanks around the names. -/
inductive Abbreviates : String → String → Prop
  | single {isVoltage : Bool} {l : Char} {gap name gap' : String} :
      IsLetter isVoltage l → Gap gap.toList → IsName name.toList → Gap gap'.toList →
      Abbreviates (String.singleton l ++ "(" ++ gap ++ name ++ gap' ++ ")")
        ((if isVoltage then "@" else "#") ++ name ++ " ")
  | difference {l : Char} {gapA a gapA' gapB b gapB' : String} :
      IsLetter true l → Gap gapA.toList → IsName a.toList → Gap gapA'.toList →
      Gap gapB.toList → IsName b.toList → Gap gapB'.toList →
      Abbreviates
        (String.singleton l ++ "(" ++ gapA ++ a ++ gapA' ++ "," ++ gapB ++ b ++ gapB' ++ ")")
        ("(@" ++ a ++ " - @" ++ b ++ ")")

/-! ### Marked names -/

/-- The character in front of a name that says what it names. -/
def marker (isVoltage : Bool) : Char :=
  if isVoltage then '@' else '#'

theorem namedConstant?_marker : namedConstant? ambient
    (capitals (String.ofList (marker isVoltage :: name))) = none := by
  have hcapitals : (capitals (String.ofList (marker isVoltage :: name))).toList =
      marker isVoltage :: name.map capital := by
    cases isVoltage <;> simp [capitals, marker] <;> decide
  generalize capitals (String.ofList (marker isVoltage :: name)) = s at hcapitals
  unfold namedConstant?
  split
  case h_6 => rfl
  all_goals
    have hhead := congrArg List.head? hcapitals
    rw [List.head?_cons] at hhead
    cases isVoltage <;> exact absurd hhead (by decide)

theorem wordToken_marker : wordToken ambient (marker isVoltage :: name) =
    .name (mark isVoltage (String.ofList name)) := by
  rw [wordToken, namedConstant?_marker]
  cases isVoltage <;> simp [mark, marker, voltageName, currentName]

theorem isWord_marker (h : IsName name) : IsWord (marker isVoltage :: name) := by
  have hstarts : startsName (marker isVoltage) = true := by cases isVoltage <;> decide
  refine ⟨⟨_, _, rfl, hstarts⟩, ?_, ?_⟩
  · rw [List.forall_mem_cons]
    exact ⟨continuesName_of_startsName hstarts, h.2⟩
  · rw [startsNumber_cons] <;> cases isVoltage <;> decide

/-- A marked name ends where neither a character of a name nor a bracket follows. -/
theorem readsTo_marked (hgap : Gap gap) (h : IsName name) (hname : Stops continuesName tail)
    (hbracket : Stops (· == '(') tail) :
    ReadsTo ambient (gap ++ (marker isVoltage :: name ++ tail))
      [.name (mark isVoltage (String.ofList name))] tail := by
  rw [← @wordToken_marker ambient]
  exact readsTo_lexeme hgap fun _ => starts_word_of_stops (isWord_marker h) hname hbracket rfl

/-! ### Either text -/

/-- A shorthand and what it is short for stand for the same tokens, whatever follows; only blanks
are left of the longer text. -/
theorem Abbreviates.readsTo (h : Abbreviates short long) (ambient : Float) (tail : List Char) :
    ∃ vs left, Gap left ∧
      (∀ gap, Gap gap → ReadsTo ambient (gap ++ (short.toList ++ tail)) vs tail) ∧
      ∀ gap, Gap gap → ReadsTo ambient (gap ++ (long.toList ++ tail)) vs (left ++ tail) := by
  have hspace : Gap [' '] := by decide
  have hbehind {d : Char} {ds : List Char} (hd : goesOn d = false) :
      Stops continuesName (d :: ds) ∧ Stops (· == '(') (d :: ds) := by
    simp only [goesOn, Bool.or_eq_false_iff] at hd
    exact ⟨stops_cons.2 hd.1.1, stops_cons.2 hd.2⟩
  cases h with
  | @single isVoltage l gap name gap' hl hgap hname hgap' =>
    refine ⟨[.name (mark isVoltage name)], [' '], hspace, fun lead hlead => ?_,
      fun lead hlead => ?_⟩
    · have hread : ReadsTo ambient (lead ++ l :: '(' :: (gap.toList ++ (name.toList ++
          (gap'.toList ++ ')' :: tail))))
          [.name (mark isVoltage (String.ofList name.toList))] tail :=
        readsTo_lexeme hlead fun _ => starts_shorthand hl hgap hname hgap' rfl
      simpa using hread
    · have hread : ReadsTo ambient (lead ++ (marker isVoltage :: name.toList ++ ' ' :: tail))
          [.name (mark isVoltage (String.ofList name.toList))] (' ' :: tail) :=
        readsTo_marked hlead hname (hbehind (by decide)).1 (hbehind (by decide)).2
      cases isVoltage <;> simpa [marker] using hread
  | @difference l gapA a gapA' gapB b gapB' hl hgapA ha hgapA' hgapB hb hgapB' =>
    refine ⟨[.symbol .opening, .name (voltageName a), .symbol .minus, .name (voltageName b),
      .symbol .closing], [], gap_nil, fun lead hlead => ?_, fun lead hlead => ?_⟩
    · have hread : ReadsTo ambient (lead ++ l :: '(' :: (gapA.toList ++ (a.toList ++
          (gapA'.toList ++ ',' :: (gapB.toList ++ (b.toList ++ (gapB'.toList ++ ')' :: tail)))))))
          [.symbol .opening, .name (voltageName (String.ofList a.toList)), .symbol .minus,
            .name (voltageName (String.ofList b.toList)), .symbol .closing] tail :=
        readsTo_lexeme hlead fun _ => starts_difference hl hgapA ha hgapA' hgapB hb hgapB' rfl
      simpa using hread
    · have hopening (rest : List Char) :
          ReadsTo ambient (lead ++ '(' :: rest) [.symbol .opening] rest := readsTo_symbol hlead rfl
      have hfirst (rest : List Char) :
          ReadsTo ambient ([] ++ (marker true :: a.toList ++ ' ' :: rest))
          [.name (mark true (String.ofList a.toList))] (' ' :: rest) :=
        readsTo_marked gap_nil ha (hbehind (by decide)).1 (hbehind (by decide)).2
      have hminus (rest : List Char) :
          ReadsTo ambient ([' '] ++ '-' :: rest) [.symbol .minus] rest := readsTo_symbol hspace rfl
      have hsecond (rest : List Char) :
          ReadsTo ambient ([' '] ++ (marker true :: b.toList ++ ')' :: rest))
            [.name (mark true (String.ofList b.toList))] (')' :: rest) :=
        readsTo_marked hspace hb (hbehind (by decide)).1 (hbehind (by decide)).2
      have hclosing : ReadsTo ambient ([] ++ ')' :: tail) [.symbol .closing] tail :=
        readsTo_symbol gap_nil rfl
      have hread := (hopening _).trans ((hfirst _).trans ((hminus _).trans
        ((hsecond _).trans hclosing)))
      simpa [marker, mark] using hread

/-! ### In front of any text -/

/-- What a text is split into, or the rule that it breaks, is the outcome of reading it. -/
theorem tokenize_rule : ((tokenize text settings).map values).mapError Fault.rule =
    match Scanner.outcome (Scanner.read settings.ambientTemperature (Cursor.ofString text)) with
    | (vs, none) => .ok vs
    | (_, some code) => .error ("Lexical", code) := by
  unfold tokenize
  split
  · next hread =>
    rw [hread]
    rfl
  · next hread =>
    rw [hread]
    rfl

/-- Texts of the same tokens compile to the same table, or break the same rule. -/
theorem compile_of_values (h : ((tokenize text settings).map values).mapError Fault.rule =
      ((tokenize text' settings).map values).mapError Fault.rule) :
    (compile text settings).mapError Fault.rule = (compile text' settings).mapError Fault.rule := by
  rw [compile_eq_compileTokens, compile_eq_compileTokens]
  cases htokens : tokenize text settings with
  | error f =>
    cases htokens' : tokenize text' settings with
    | error g =>
      rw [htokens, htokens'] at h
      exact congrArg Except.error (Except.error.inj h)
    | ok =>
      rw [htokens, htokens'] at h
      cases h
  | ok tokens =>
    cases htokens' : tokenize text' settings with
    | error =>
      rw [htokens, htokens'] at h
      cases h
    | ok tokens' =>
      rw [htokens, htokens'] at h
      have hmoved := moved_of_values (Except.ok.inj h)
      have hitems := (@Moved.settle _ _ hmoved none none rfl).1
      show (compileTokens text settings tokens).mapError Fault.rule =
        (compileTokens text' settings tokens').mapError Fault.rule
      rw [compileTokens_rule, compileTokens_rule]
      exact compileItems_moved hitems.expandReciprocals

/-- Behind a text that is split into tokens on its own, what may have blanks in front is read as it
is on its own. -/
theorem readsTo_behind {middle rest : List Char} {vs : List Token}
    (hp : tokenize p settings = .ok tokens) (hend : EndsBlank p.toList)
    (h : ∀ gap, Gap gap → ReadsTo settings.ambientTemperature (gap ++ middle) vs rest) :
    ReadsTo settings.ambientTemperature (p.toList ++ middle) (values tokens ++ vs) rest := by
  obtain ⟨gap, hgap, hreads⟩ := readsTo_append (tokenize_eq_ok.1 hp) (.inl hend)
  exact hreads.trans (h gap hgap)

/-- Behind a text that is split into tokens on its own and is empty or ends in a blank, a shorthand
and what it is short for may stand for each other: whatever follows, both texts are split into the
same tokens and compile to the same table, or they break the same rule. -/
theorem compile_abbreviates (hp : tokenize p settings = .ok tokens) (hend : EndsBlank p.toList)
    (h : Abbreviates short long) (q : String) :
    ((tokenize (p ++ short ++ q) settings).map values).mapError Fault.rule =
        ((tokenize (p ++ long ++ q) settings).map values).mapError Fault.rule ∧
      (compile (p ++ short ++ q) settings).mapError Fault.rule =
        (compile (p ++ long ++ q) settings).mapError Fault.rule := by
  obtain ⟨vs, left, hleft, hshort, hlong⟩ := h.readsTo settings.ambientTemperature q.toList
  have hrest : q.toList.dropWhile isBlank = (left ++ q.toList).dropWhile isBlank := by
    rw [List.dropWhile_append_of_pos hleft]
  have htext (middle : String) : (Cursor.ofString (p ++ middle ++ q)).rest =
      p.toList ++ (middle.toList ++ q.toList) := by
    simp [Cursor.ofString]
  have htokens : ((tokenize (p ++ short ++ q) settings).map values).mapError Fault.rule =
      ((tokenize (p ++ long ++ q) settings).map values).mapError Fault.rule := by
    rw [tokenize_rule, tokenize_rule, (readsTo_behind hp hend hshort).outcome_eq
      (readsTo_behind hp hend hlong) hrest (htext short) (htext long)]
  exact ⟨htokens, compile_of_values htokens⟩

theorem compile_abbreviates_scaled : (compile "2* v( a ,b)/3" {}).isOk = true ∧
    ((tokenize "2* v( a ,b)/3" {}).map values).mapError Fault.rule =
        ((tokenize "2* (@a - @b)/3" {}).map values).mapError Fault.rule ∧
      (compile "2* v( a ,b)/3" {}).mapError Fault.rule =
        (compile "2* (@a - @b)/3" {}).mapError Fault.rule := by
  have hok : (tokenize "2* " {}).isOk = true := by decide +kernel
  have hspace : Gap " ".toList := by decide +kernel
  have hname {c : Char} (hc : continuesName c = true) : IsName [c] := ⟨by simp, by simpa using hc⟩
  have habbreviates : Abbreviates "v( a ,b)" "(@a - @b)" :=
    @Abbreviates.difference 'v' " " "a" " " "" "b" "" rfl hspace (hname (by decide)) hspace gap_nil
      (hname (by decide)) gap_nil
  have hend : EndsBlank "2* ".toList := by
    rintro d ⟨⟩
    decide
  cases htokens : tokenize "2* " {} with
  | error f =>
    rw [htokens] at hok
    cases hok
  | ok tokens =>
    exact ⟨by decide +kernel, compile_abbreviates htokens hend habbreviates "/3"⟩

end Behavioral
