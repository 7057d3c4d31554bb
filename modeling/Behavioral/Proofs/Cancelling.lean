import Behavioral.Proofs.Positions

/-!
# Cancelling signs in place

Signs can also be settled by editing the items under a cursor: behind an operator a plus is deleted,
a minus is taken into the number behind it or cancels with the sign behind it, and one that is left
becomes a negation. An edit goes on or deletes at every step, so it comes to an end, with the items
of the tokens (`edits_to`). These are the tokens with every longest run of signs in front of an
operand replaced by what its parity says (`settles_iff`), every sign of them stands where it is what
it is (`Tidy.placed`), and editing them again changes nothing (`Tidy.iterate`). So a run of signs
compiles as one minus or none (`compileTokens_signs`).
-/

namespace Behavioral

namespace Item

open ParseTree

variable {leading : Bool} {ts us : Tokens} {xs ys passed : Items} {token : Token} {item : Item}
  {minus : Option (Spanned Unit)} {signs signs' : List Sign} {s t n : Nat}

/-! ### Editing -/

/-- Whether a sign after the item is in front of an operand. -/
def leads : Item → Bool
  | .number _ | .name _ | .closing => false
  | _ => true

/-- Whether a sign after the items is in front of an operand. -/
def unary (passed : Items) : Bool :=
  passed.getLast?.all (·.value.leads)

/-- A plus or a minus between two operands. -/
def isSign : Item → Bool
  | .join .add | .join .sub => true
  | _ => false

/-- Neither a number nor a sign of either kind. -/
def IsSolid (item : Item) : Prop :=
  (∀ v, item ≠ .number v) ∧ item.isSign = false ∧ item ≠ .lead .negate

/-- Items with a cursor between those it has passed and those ahead of it. -/
structure Edit where
  passed : Items
  ahead : Items

namespace Edit

/-- Takes the minus in front of an operand into what is behind it. -/
def takeMinus (passed : Items) (minus : Spanned Item) : Items → Edit
  | ⟨_, .number v, t⟩ :: rest => ⟨passed ++ [⟨minus.start, .number (-v), t⟩], rest⟩
  | ⟨_, .join .add, _⟩ :: rest => ⟨passed, minus :: rest⟩
  | ⟨_, .join .sub, t⟩ :: rest => ⟨passed, ⟨minus.start, .join .add, t⟩ :: rest⟩
  | rest => ⟨passed ++ [⟨minus.start, .lead .negate, minus.stop⟩], rest⟩

/-- Goes on over the item ahead, unless it is a sign in front of an operand. -/
def step : Edit → Edit
  | ⟨passed, []⟩ => ⟨passed, []⟩
  | ⟨passed, x :: ahead⟩ =>
    if unary passed then
      match x.value with
      | .join .add => ⟨passed, ahead⟩
      | .join .sub => takeMinus passed x ahead
      | _ => ⟨passed ++ [x], ahead⟩
    else ⟨passed ++ [x], ahead⟩

/-- Every step leaves fewer items ahead. -/
theorem step_shorter {e : Edit} (h : e.ahead ≠ []) : e.step.ahead.length < e.ahead.length := by
  obtain ⟨passed, _ | ⟨x, ahead⟩⟩ := e
  · exact absurd rfl h
  · have hminus : (takeMinus passed x ahead).ahead.length ≤ ahead.length := by
      unfold takeMinus
      split <;> simp only [List.length_cons] <;> omega
    simp only [step, List.length_cons]
    split
    · split
      · exact Nat.lt_succ_self _
      · exact Nat.lt_succ_of_le hminus
      · exact Nat.lt_succ_self _
    · exact Nat.lt_succ_self _

/-- An edit has come to an end after as many steps as there were items ahead. -/
theorem ahead_iterate {e : Edit} (h : e.ahead.length ≤ n) : (step^[n] e).ahead = [] := by
  induction n generalizing e with
  | zero => exact List.length_eq_zero_iff.1 (Nat.le_zero.1 h)
  | succ n ih =>
    refine ih ?_
    by_cases hne : e.ahead = []
    · obtain ⟨passed, _⟩ := e
      cases hne
      exact Nat.zero_le n
    · exact Nat.le_of_lt_succ ((step_shorter hne).trans_le h)

theorem takeMinus_solid {minus x : Spanned Item} (h : x.value.IsSolid) :
    takeMinus passed minus (x :: ys) =
      ⟨passed ++ [⟨minus.start, .lead .negate, minus.stop⟩], x :: ys⟩ := by
  obtain ⟨hnumber, hsign, -⟩ := h
  rw [takeMinus]
  · rintro _ v _ _ hx
    cases hx
    exact hnumber v rfl
  · rintro _ _ _ hx
    cases hx
    cases hsign
  · rintro _ _ _ hx
    cases hx
    cases hsign

theorem step_plus (h : unary passed = true) :
    step ⟨passed, ⟨s, .join .add, t⟩ :: ys⟩ = ⟨passed, ys⟩ :=
  if_pos h

theorem step_minus (h : unary passed = true) :
    step ⟨passed, ⟨s, .join .sub, t⟩ :: ys⟩ = takeMinus passed ⟨s, .join .sub, t⟩ ys :=
  if_pos h

theorem step_keep {x : Spanned Item} (h : unary passed = true → x.value.isSign = false) :
    step ⟨passed, x :: ys⟩ = ⟨passed ++ [x], ys⟩ := by
  simp only [step]
  split
  · next hunary =>
    have hsign := h hunary
    split
    · next hadd => simp [hadd, isSign] at hsign
    · next hsub => simp [hsub, isSign] at hsign
    · rfl
  · rfl

end Edit

@[simp]
theorem unary_nil : unary [] = true :=
  rfl

@[simp]
theorem unary_concat (xs : Items) (x : Spanned Item) : unary (xs ++ [x]) = x.value.leads := by
  simp [unary]

theorem leads_ofToken (token : Token) : (ofToken token).leads = leadsOn token := by
  match token with
  | .number _ | .name _ => rfl
  | .symbol s => cases s <;> rfl

theorem isSign_ofToken (h : ∀ σ : Sign, token ≠ .symbol σ.symbol) :
    (ofToken token).isSign = false := by
  match token with
  | .number _ | .name _ => rfl
  | .symbol s =>
    cases s
    case plus => exact absurd rfl (h .plus)
    case minus => exact absurd rfl (h .minus)
    all_goals rfl

theorem Solid.ofToken (h : Solid token) : (Item.ofToken token).IsSolid :=
  ⟨fun v hv => h.2 v (@ofToken_injective _ (.number v) hv), isSign_ofToken h.1,
    ofToken_ne_negate token⟩

theorem sign_or_number_or_solid (token : Token) :
    (∃ σ : Sign, token = .symbol σ.symbol) ∨ (∃ v, token = .number v) ∨ Solid token := by
  by_cases hsign : ∃ σ : Sign, token = .symbol σ.symbol
  · exact .inl hsign
  · by_cases hnumber : ∃ v, token = .number v
    · exact .inr (.inl hnumber)
    · exact .inr (.inr ⟨not_exists.1 hsign, not_exists.1 hnumber⟩)

/-- The items of tokens when all signs stand between operands. -/
def unsettled (ts : Tokens) : Items :=
  ts.map fun t => ⟨t.start, ofToken t.value, t.stop⟩

theorem settle_plus : settle true minus (⟨s, .symbol .plus, t⟩ :: ts) = settle true minus ts := by
  cases minus <;> rfl

theorem settle_negate (h : ∀ first ∈ ts.head?, Solid first.value) (m : Spanned Unit) :
    settle true (some m) ts = ⟨m.start, .lead .negate, m.stop⟩ :: settle true none ts := by
  obtain _ | ⟨⟨s, token, t⟩, ts⟩ := ts
  · rfl
  · rw [settle_solid (h _ rfl), settle_solid (h _ rfl)]
    rfl

theorem settle_keep (h : leading = true → ∀ σ : Sign, token ≠ .symbol σ.symbol) :
    settle leading none (⟨s, token, t⟩ :: ts) =
      ⟨s, ofToken token, t⟩ :: settle (leadsOn token) none ts := by
  cases leading with
  | false => exact settle_follow
  | true =>
    obtain ⟨σ, hσ⟩ | ⟨v, rfl⟩ | hsolid := sign_or_number_or_solid token
    · exact absurd hσ (h rfl σ)
    · rfl
    · exact settle_solid hsolid true

namespace Edit

/-- The edit has tokens ahead, which settle to what makes the items of those passed. -/
def Makes (e : Edit) (xs : Items) : Prop :=
  ∃ ts, e.ahead = unsettled ts ∧ xs = e.passed ++ settle (unary e.passed) none ts

theorem makes_ahead (ts : Tokens) (h : unary passed = true)
    (hxs : xs = passed ++ settle true none ts) :
    Makes ⟨passed, unsettled ts⟩ xs :=
  ⟨ts, rfl, by rw [h]; exact hxs⟩

theorem makes_passed {x : Spanned Item} (ts : Tokens)
    (h : xs = passed ++ x :: settle x.value.leads none ts) :
    Makes ⟨passed ++ [x], unsettled ts⟩ xs := by
  refine ⟨ts, rfl, ?_⟩
  rw [h, unary_concat, List.append_assoc]
  rfl

/-- A step changes neither what is to come of the tokens ahead nor of those passed. -/
theorem Makes.step {e : Edit} (h : e.Makes xs) : e.step.Makes xs := by
  obtain ⟨passed, ahead⟩ := e
  obtain ⟨_ | ⟨⟨s, token, t⟩, ts⟩, rfl, hxs⟩ := h
  · exact ⟨[], rfl, hxs⟩
  · simp only at hxs
    by_cases hkeep : unary passed = true → ∀ σ : Sign, token ≠ .symbol σ.symbol
    · have hstep : Edit.step ⟨passed, unsettled (⟨s, token, t⟩ :: ts)⟩ =
          ⟨passed ++ [⟨s, ofToken token, t⟩], unsettled ts⟩ :=
        step_keep fun hunary => isSign_ofToken (hkeep hunary)
      rw [hstep]
      refine makes_passed ts (hxs.trans ?_)
      rw [settle_keep hkeep, leads_ofToken]
    · obtain ⟨hunary, σ, rfl⟩ : unary passed = true ∧ ∃ σ : Sign, token = .symbol σ.symbol := by
        simpa using hkeep
      rw [hunary] at hxs
      cases σ with
      | plus =>
        show (Edit.step ⟨passed, ⟨s, .join .add, t⟩ :: unsettled ts⟩).Makes xs
        rw [step_plus hunary]
        exact makes_ahead ts hunary hxs
      | minus =>
        show (Edit.step ⟨passed, ⟨s, .join .sub, t⟩ :: unsettled ts⟩).Makes xs
        rw [step_minus hunary]
        obtain _ | ⟨⟨s', token, t'⟩, ts⟩ := ts
        · exact makes_passed [] hxs
        · obtain ⟨σ, rfl⟩ | ⟨v, rfl⟩ | hsolid := sign_or_number_or_solid token
          · cases σ with
            | plus => exact makes_ahead (⟨s, .symbol .minus, t⟩ :: ts) hunary hxs
            | minus => exact makes_ahead (⟨s, .symbol .plus, t'⟩ :: ts) hunary hxs
          · exact makes_passed ts hxs
          · have hitems : takeMinus passed ⟨s, .join .sub, t⟩ (unsettled (⟨s', token, t'⟩ :: ts)) =
                ⟨passed ++ [⟨s, .lead .negate, t⟩], unsettled (⟨s', token, t'⟩ :: ts)⟩ :=
              takeMinus_solid hsolid.ofToken
            rw [hitems]
            exact makes_passed _ (hxs.trans (congrArg _ (settle_negate (by simpa using hsolid) _)))

/-- Editing the items of tokens comes to an end with the signs of the tokens settled. -/
theorem Makes.iterate {e : Edit} (h : e.Makes xs) (hn : e.ahead.length ≤ n) :
    Edit.step^[n] e = ⟨xs, []⟩ := by
  have hmakes : (Edit.step^[n] e).Makes xs := by
    clear hn
    induction n generalizing e with
    | zero => exact h
    | succ n ih => exact ih h.step
  have hahead := ahead_iterate hn
  obtain ⟨ts, hts, hxs⟩ := hmakes
  obtain rfl : ts = [] := List.map_eq_nil_iff.1 (hts.symm.trans hahead)
  generalize Edit.step^[n] e = e' at hahead hxs
  obtain ⟨passed, ahead⟩ := e'
  cases hahead
  simp [hxs, settle, negation]

theorem edits_to {ts : Tokens} (h : ts.length ≤ n) :
    step^[n] ⟨[], unsettled ts⟩ = ⟨ofTokens ts, []⟩ :=
  Makes.iterate (makes_ahead ts rfl rfl) (by simpa [unsettled] using h)

end Edit

/-! ### Runs of signs -/

/-- Signs in front of an operand leave a minus just when they negate. -/
theorem settle_signs : ∀ {run : Tokens} {signs : List Sign}, Signed run signs →
    ∀ minus : Option (Spanned Unit), ∃ minus' : Option (Spanned Unit),
      minus'.isSome = (minus.isSome ^^ negates signs) ∧
        ∀ us, settle true minus (run ++ us) = settle true minus' us
  | [], [], _, minus => ⟨minus, by simp [negates], fun _ => rfl⟩
  | ⟨s, _, t⟩ :: run, σ :: signs, h, minus => by
    obtain ⟨rfl, hrun⟩ := List.cons.inj h
    cases σ with
    | plus =>
      obtain ⟨minus', hminus, hsettle⟩ := settle_signs hrun minus
      exact ⟨minus', by rw [hminus, negates_plus], fun us => settle_plus.trans (hsettle us)⟩
    | minus =>
      cases minus with
      | none =>
        obtain ⟨minus', hminus, hsettle⟩ := settle_signs hrun (some ⟨s, (), t⟩)
        exact ⟨minus', by rw [hminus, negates_minus]; simp, hsettle⟩
      | some m =>
        obtain ⟨minus', hminus, hsettle⟩ := settle_signs hrun none
        exact ⟨minus', by rw [hminus, negates_minus]; simp, hsettle⟩

/-- Signs that do not negate leave nothing. -/
theorem settle_even {run : Tokens} (h : Signed run signs) (heven : negates signs = false) :
    settle true none (run ++ us) = settle true none us := by
  obtain ⟨_ | m, hminus, hsettle⟩ := settle_signs h none
  · exact hsettle us
  · rw [heven] at hminus
    cases hminus

/-- How the signs of tokens are settled, where the first of them would be in front of an operand or
not: every longest run of signs in front of an operand counts for its parity, and any other token
stays. -/
inductive Settles : Bool → Tokens → Items → Prop
  | done {leading : Bool} : Settles leading [] []
  | keep {leading : Bool} {s t : Nat} {token : Token} {ts : Tokens} {xs : Items} :
      (leading = true → ∀ σ : Sign, token ≠ .symbol σ.symbol) → Settles (leadsOn token) ts xs →
      Settles leading (⟨s, token, t⟩ :: ts) (⟨s, ofToken token, t⟩ :: xs)
  | even {run ts : Tokens} {signs : List Sign} {xs : Items} : Signed run signs → run ≠ [] →
      negates signs = false → (∀ first ∈ ts.head?, ∀ σ : Sign, first.value ≠ .symbol σ.symbol) →
      Settles true ts xs → Settles true (run ++ ts) xs
  | number {before after ts : Tokens} {signs : List Sign} {s t s' t' : Nat} {v : Float}
      {xs : Items} : Signed before signs → negates signs = false →
      (∀ plus ∈ after, plus.value = .symbol .plus) → Settles false ts xs →
      Settles true (before ++ ⟨s, .symbol .minus, t'⟩ :: (after ++ ⟨s', .number v, t⟩ :: ts))
        (⟨s, .number (-v), t⟩ :: xs)
  | negate {before after ts : Tokens} {signs : List Sign} {s t : Nat} {xs : Items} :
      Signed before signs → negates signs = false →
      (∀ plus ∈ after, plus.value = .symbol .plus) → (∀ first ∈ ts.head?, Solid first.value) →
      Settles true ts xs →
      Settles true (before ++ ⟨s, .symbol .minus, t⟩ :: (after ++ ts)) (⟨s, .lead .negate, t⟩ :: xs)

theorem settle_pluses {pluses : Tokens} (h : ∀ plus ∈ pluses, plus.value = .symbol .plus) :
    settle true minus (pluses ++ us) = settle true minus us := by
  induction pluses with
  | nil => rfl
  | cons plus pluses ih =>
    obtain ⟨s, _, t⟩ := plus
    obtain ⟨rfl, hpluses⟩ := List.forall_mem_cons.1 h
    exact settle_plus.trans (ih hpluses)

theorem Settles.eq (h : Settles leading ts xs) : xs = settle leading none ts := by
  induction h with
  | @done leading => cases leading <;> rfl
  | keep hkeep _ ih => rw [settle_keep hkeep, ← ih]
  | even hrun _ heven _ _ ih => rw [settle_even hrun heven, ← ih]
  | @number before after ts signs s t s' t' v xs hbefore heven hafter _ ih =>
    calc _ = settle true (some ⟨s, (), t'⟩) (⟨s', .number v, t⟩ :: ts) := by rw [ih]; rfl
      _ = settle true none (⟨s, .symbol .minus, t'⟩ :: (after ++ ⟨s', .number v, t⟩ :: ts)) :=
        (settle_pluses hafter).symm
      _ = _ := (settle_even hbefore heven).symm
  | @negate before after ts signs s t xs hbefore heven hafter hsolid _ ih =>
    calc _ = settle true (some ⟨s, (), t⟩) ts := by rw [ih, settle_negate hsolid]
      _ = settle true none (⟨s, .symbol .minus, t⟩ :: (after ++ ts)) := (settle_pluses hafter).symm
      _ = _ := (settle_even hbefore heven).symm

theorem negates_concat (signs : List Sign) (σ : Sign) :
    negates (signs ++ [σ]) = (negates signs ^^ decide (σ = .minus)) := by
  induction signs with
  | nil => cases σ <;> rfl
  | cons σ' signs ih =>
    cases σ' with
    | plus => rw [List.cons_append, negates_plus, negates_plus, ih]
    | minus => rw [List.cons_append, negates_minus, negates_minus, ih, Bool.not_xor]

/-- Signs that negate have a last minus, in front of which they do not. -/
theorem exists_last_minus {run : Tokens} (h : Signed run signs) (hodd : negates signs = true) :
    ∃ before signs' s t after, run = before ++ ⟨s, .symbol .minus, t⟩ :: after ∧
      Signed before signs' ∧ negates signs' = false ∧
        ∀ plus ∈ after, plus.value = .symbol .plus := by
  -- from the end, since what counts is the parity in front of the last minus
  induction signs using List.reverseRecOn generalizing run with
  | nil => cases hodd
  | append_singleton signs σ ih =>
    obtain ⟨front, last, rfl, hfront, hlast⟩ := List.map_eq_append_iff.1 (h.trans List.map_append)
    obtain ⟨⟨s, _, t⟩, rfl, hσ⟩ := List.map_eq_singleton_iff.1 hlast
    obtain rfl : _ = Token.symbol σ.symbol := hσ
    rw [negates_concat] at hodd
    cases σ with
    | plus =>
      obtain ⟨before, signs', s', t', after, rfl, hbefore, heven, hafter⟩ :=
        ih hfront (by simpa using hodd)
      refine ⟨before, signs', s', t', after ++ [⟨s, .symbol .plus, t⟩], by simp [Sign.symbol],
        hbefore, heven, ?_⟩
      simpa [or_imp, forall_and] using hafter
    | minus => exact ⟨front, signs, s, t, [], rfl, hfront, by simpa using hodd, nofun⟩

/-- The signs that open tokens, up to where another token follows. -/
theorem exists_signs (ts : Tokens) : ∃ run signs us, ts = run ++ us ∧ Signed run signs ∧
    ∀ first ∈ us.head?, ∀ σ : Sign, first.value ≠ .symbol σ.symbol := by
  obtain ⟨run, signs, us, -, hts, hrun, -, -, hus⟩ := exists_run ts none
  exact ⟨run, signs, us, hts, hrun, hus⟩

theorem Settles.to_settle (h : Settles leading ts xs) :
    Settles leading ts (settle leading none ts) :=
  h.eq ▸ h

theorem settles_settle (ts : Tokens) (leading : Bool) :
    Settles leading ts (settle leading none ts) := by
  by_cases hkeep : ∀ first ∈ ts.head?, leading = true → ∀ σ : Sign, first.value ≠ .symbol σ.symbol
  · obtain _ | ⟨⟨s, token, t⟩, us⟩ := ts
    · exact Settles.done.to_settle
    · exact (Settles.keep (hkeep _ rfl) (settles_settle us _)).to_settle
  · obtain ⟨run, signs, us, rfl, hrun, hus⟩ := exists_signs ts
    obtain ⟨rfl, hne⟩ : leading = true ∧ run ≠ [] := by
      constructor
      · by_contra hleading
        exact hkeep fun _ _ h => absurd h hleading
      · rintro rfl
        exact hkeep fun first hfirst _ => hus first hfirst
    have hshorter : us.length < (run ++ us).length := by
      simpa [List.length_append] using List.length_pos_iff.2 hne
    cases hparity : negates signs with
    | false => exact (Settles.even hrun hne hparity hus (settles_settle us true)).to_settle
    | true =>
      obtain ⟨before, signs', s, t, after, rfl, hbefore, heven, hafter⟩ :=
        exists_last_minus hrun hparity
      rw [List.append_assoc, List.cons_append]
      by_cases hnumber : ∃ first ∈ us.head?, ∃ v, first.value = .number v
      · obtain ⟨⟨s', _, t'⟩, hfirst, v, rfl⟩ := hnumber
        obtain ⟨us, rfl⟩ : ∃ us', us = ⟨s', .number v, t'⟩ :: us' := by
          cases us <;> simp_all
        exact (Settles.number hbefore heven hafter (settles_settle us false)).to_settle
      · have hsolid : ∀ first ∈ us.head?, Solid first.value := fun first hfirst =>
          ⟨hus first hfirst, fun v hv => hnumber ⟨first, hfirst, v, hv⟩⟩
        exact (Settles.negate hbefore heven hafter hsolid (settles_settle us true)).to_settle
termination_by ts.length

theorem settles_iff : Settles leading ts xs ↔ xs = settle leading none ts :=
  ⟨Settles.eq, fun h => h ▸ settles_settle ts leading⟩

/-! ### Where signs are left -/

/-- Every sign is where it is what it is, from the first item on, which is in front of an operand or
not. -/
def Tidy : Bool → Items → Prop
  | _, [] => True
  | leading, x :: xs => (x.value.isSign = true → leading = false) ∧
    (x.value = .lead .negate → leading = true ∧ ∀ y ∈ xs.head?, y.value.IsSolid) ∧
    Tidy x.value.leads xs

theorem head_settle (h : ∀ first ∈ ts.head?, Solid first.value) :
    ∀ y ∈ (settle true none ts).head?, y.value.IsSolid := by
  obtain _ | ⟨⟨s, token, t⟩, ts⟩ := ts
  · exact fun _ hy => nomatch hy
  · rw [settle_solid (h _ rfl)]
    rintro _ ⟨⟩
    exact (h _ rfl).ofToken

theorem Settles.tidy (h : Settles leading ts xs) : Tidy leading xs := by
  induction h with
  | done => trivial
  | @keep leading s t token ts xs hkeep _ ih =>
    refine ⟨fun hsign => ?_, fun h => absurd h (ofToken_ne_negate token), ?_⟩
    · by_contra hleading
      have := isSign_ofToken (hkeep (by simpa using hleading))
      simp_all
    · rwa [← leads_ofToken] at ih
  | even _ _ _ _ _ ih => exact ih
  | number _ _ _ _ ih => exact ⟨nofun, nofun, ih⟩
  | negate _ _ _ hsolid h ih =>
    exact ⟨nofun, fun _ => ⟨rfl, h.eq ▸ head_settle hsolid⟩, ih⟩

/-- What is tidy is tidy from everywhere on. -/
theorem Tidy.behind : ∀ {ys passed : Items}, Tidy (unary passed) (ys ++ xs) →
    Tidy (unary (passed ++ ys)) xs
  | [], passed, h => by rwa [List.append_nil]
  | y :: ys, passed, h => by
    have hrest : Tidy (unary (passed ++ [y])) (ys ++ xs) := by
      rw [unary_concat]
      exact h.2.2
    rw [List.append_cons]
    exact Tidy.behind hrest

/-- Every plus and minus is between two operands, and every negation is in front of an operand, but
of neither a number nor a sign. -/
structure SignsPlaced (xs : Items) : Prop where
  sign (before after : Items) (x : Spanned Item) : xs = before ++ x :: after →
    x.value.isSign = true → unary before = false
  negation (before after : Items) (x : Spanned Item) : xs = before ++ x :: after →
    x.value = .lead .negate → unary before = true ∧ ∀ y ∈ after.head?, y.value.IsSolid

theorem Tidy.placed (h : Tidy true xs) : SignsPlaced xs where
  sign before after x hxs hsign := by
    subst hxs
    exact (@Tidy.behind _ before [] h).1 hsign
  negation before after x hxs hnegate := by
    subst hxs
    exact (@Tidy.behind _ before [] h).2.1 hnegate

/-- Editing tidy items goes on over each of them. -/
theorem Tidy.iterate : ∀ {ys passed : Items} {n : Nat}, Tidy (unary passed) ys → ys.length ≤ n →
    Edit.step^[n] ⟨passed, ys⟩ = ⟨passed ++ ys, []⟩
  | [], passed, n, _, _ => by
    rw [List.append_nil]
    exact Function.iterate_fixed rfl n
  | y :: ys, passed, n + 1, h, hn => by
    have hstep : Edit.step ⟨passed, y :: ys⟩ = ⟨passed ++ [y], ys⟩ := by
      refine Edit.step_keep fun hunary => ?_
      by_contra hsign
      have := h.1 (by simpa using hsign)
      simp_all
    have hrest : Tidy (unary (passed ++ [y])) ys := by
      rw [unary_concat]
      exact h.2.2
    rw [Function.iterate_succ_apply, hstep, List.append_cons passed y ys]
    exact Tidy.iterate hrest (Nat.le_of_succ_le_succ hn)

/-! ### Runs that count alike -/

/-- What settles of one token is the same whatever follows it. -/
theorem settle_cons (h : leading = true ∨ minus = none) : ∃ front minus',
    (leadsOn token = true ∨ minus' = none) ∧ ∀ ts, settle leading minus (⟨s, token, t⟩ :: ts) =
      front ++ settle (leadsOn token) minus' ts := by
  cases leading with
  | false =>
    obtain rfl := h.resolve_left Bool.false_ne_true
    exact ⟨[_], none, .inr rfl, fun _ => settle_follow⟩
  | true =>
    obtain ⟨σ, rfl⟩ | ⟨v, rfl⟩ | hsolid := sign_or_number_or_solid token
    · cases σ with
      | plus => exact ⟨[], minus, .inl rfl, fun _ => settle_plus⟩
      | minus => cases minus <;> exact ⟨[], _, .inl rfl, fun _ => rfl⟩
    · exact ⟨[_], none, .inr rfl, fun _ => settle_number⟩
    · refine ⟨negation minus ++ [⟨s, ofToken token, t⟩], none, .inr rfl, fun ts => ?_⟩
      rw [settle_solid hsolid, List.append_assoc]
      rfl

/-- What settles of tokens is the same whatever follows them. -/
theorem settle_before : ∀ {before : Tokens} {passed : Items} {minus : Option (Spanned Unit)},
    unary passed = true ∨ minus = none → ∃ front minus', ∀ ts,
      settle (unary passed) minus (before ++ ts) =
        front ++ settle (unary (passed ++ unsettled before)) minus' ts
  | [], passed, minus, _ => by
    refine ⟨[], minus, fun ts => ?_⟩
    rw [unsettled, List.map_nil, List.append_nil]
    rfl
  | ⟨s, token, t⟩ :: before, passed, minus, hminus => by
    have hpassed : unary (passed ++ [⟨s, ofToken token, t⟩]) = leadsOn token := by
      rw [unary_concat, leads_ofToken]
    obtain ⟨front, minus', hminus', hfirst⟩ := @settle_cons (unary passed) token minus s t hminus
    rw [← hpassed] at hminus'
    obtain ⟨front', minus'', hrest⟩ := @settle_before before _ _ hminus'
    refine ⟨front ++ front', minus'', fun ts => ?_⟩
    rw [List.cons_append, hfirst, ← hpassed, hrest, ← List.append_assoc, List.append_assoc passed]
    rfl

theorem moved_refl {α : Type} (xs : List (Spanned α)) : Moved xs xs :=
  List.forall₂_same.2 fun _ _ => rfl

/-- Runs of signs in front of an operand that both negate or both do not settle to the same items,
perhaps elsewhere. -/
theorem moved_signs {before run run' after : Tokens} (hunary : unary (unsettled before) = true)
    (hrun : Signed run signs) (hrun' : Signed run' signs')
    (hparity : negates signs = negates signs') :
    Moved (ofTokens (before ++ (run ++ after))) (ofTokens (before ++ (run' ++ after))) := by
  obtain ⟨front, minus, hsettle⟩ := @settle_before before [] none (.inl rfl)
  obtain ⟨m, hm, hsigns⟩ := settle_signs hrun minus
  obtain ⟨m', hm', hsigns'⟩ := settle_signs hrun' minus
  have hsome : m.isSome = m'.isSome := by rw [hm, hm', hparity]
  rw [List.nil_append, hunary] at hsettle
  have htokens (us : Tokens) : ofTokens (before ++ us) = front ++ settle true minus us := hsettle us
  rw [htokens, htokens, hsigns, hsigns']
  exact List.rel_append (moved_refl front) ((moved_refl after).settle hsome).1

end Item

open Item

/-- A run of signs in front of an operand compiles, or breaks the rule, that one minus does if it
negates and that nothing does if it does not. -/
theorem compileTokens_signs {text : String} {settings : Settings} {before run after : Tokens}
    {signs : List Sign} (hunary : unary (unsettled before) = true)
    (hrun : Signed run signs) (s t : Nat) :
    (compileTokens text settings (before ++ (run ++ after))).mapError Fault.rule =
      (compileTokens text settings (before ++ ((if ParseTree.negates signs then
        [⟨s, .symbol .minus, t⟩] else []) ++ after))).mapError Fault.rule := by
  refine compileTokens_moved ?_
  split
  · next hodd =>
    have hminus : Signed [⟨s, .symbol .minus, t⟩] [.minus] := rfl
    exact moved_signs hunary hrun hminus hodd
  · next heven =>
    have hnone : Signed [] [] := rfl
    exact moved_signs hunary hrun hnone (Bool.eq_false_iff.2 heven)

/-- Editing the signs of tokens in place comes to an end within as many steps as there are tokens.
It leaves every longest run of signs in front of an operand as its parity says and any other token
as it is, every sign where it is what it is, and nothing to edit again. A run of signs in front of
an operand can be replaced by one minus, if it negates, or by nothing, and the same table is
compiled or the same rule broken. -/
theorem signs_cancel (tokens : Tokens) :
    (∀ n, tokens.length ≤ n →
      Edit.step^[n] ⟨[], unsettled tokens⟩ = ⟨ofTokens tokens, []⟩) ∧
    (∀ xs, Settles true tokens xs ↔ xs = ofTokens tokens) ∧
    SignsPlaced (ofTokens tokens) ∧
    (∀ n, (ofTokens tokens).length ≤ n →
      Edit.step^[n] ⟨[], ofTokens tokens⟩ = ⟨ofTokens tokens, []⟩) ∧
    ∀ text settings, (tokenize text settings = .ok tokens →
        compile text settings = compileTokens text settings tokens) ∧
      ∀ before run after signs, tokens = before ++ (run ++ after) →
        unary (unsettled before) = true → Signed run signs → ∀ s t,
        (compileTokens text settings tokens).mapError Fault.rule =
          (compileTokens text settings (before ++ ((if ParseTree.negates signs then
            [⟨s, .symbol .minus, t⟩] else []) ++ after))).mapError Fault.rule := by
  have htidy : Tidy true (ofTokens tokens) := (settles_settle tokens true).tidy
  refine ⟨fun n => Edit.edits_to, fun xs => settles_iff, htidy.placed,
    fun n => @Tidy.iterate _ [] n htidy, fun text settings => ⟨fun htokens => ?_, ?_⟩⟩
  · rw [compile_eq_compileTokens, htokens]
    rfl
  · rintro before run after signs rfl hunary hrun s t
    exact compileTokens_signs hunary hrun s t

theorem signs_cancel_product :
    tokenize "2*-+-x" {} = .ok [⟨0, .number 2, 1⟩, ⟨1, .symbol .times, 2⟩, ⟨2, .symbol .minus, 3⟩,
      ⟨3, .symbol .plus, 4⟩, ⟨4, .symbol .minus, 5⟩, ⟨5, .name "x", 6⟩] ∧
    (compile "2*-+-x" {}).mapError Fault.rule = (compileTokens "2*-+-x" {}
      [⟨0, .number 2, 1⟩, ⟨1, .symbol .times, 2⟩, ⟨5, .name "x", 6⟩]).mapError Fault.rule := by
  have htokens : tokenize "2*-+-x" {} = .ok [⟨0, .number 2, 1⟩, ⟨1, .symbol .times, 2⟩,
      ⟨2, .symbol .minus, 3⟩, ⟨3, .symbol .plus, 4⟩, ⟨4, .symbol .minus, 5⟩,
      ⟨5, .name "x", 6⟩] := by decide +kernel
  obtain ⟨hcompile, hsigns⟩ := (signs_cancel [⟨0, .number 2, 1⟩, ⟨1, .symbol .times, 2⟩,
    ⟨2, .symbol .minus, 3⟩, ⟨3, .symbol .plus, 4⟩, ⟨4, .symbol .minus, 5⟩,
    ⟨5, .name "x", 6⟩]).2.2.2.2 "2*-+-x" {}
  refine ⟨htokens, ?_⟩
  rw [hcompile htokens]
  exact hsigns [⟨0, .number 2, 1⟩, ⟨1, .symbol .times, 2⟩]
    [⟨2, .symbol .minus, 3⟩, ⟨3, .symbol .plus, 4⟩, ⟨4, .symbol .minus, 5⟩] [⟨5, .name "x", 6⟩]
    [.minus, .plus, .minus] rfl rfl rfl 0 0

end Behavioral
