import Behavioral.Proofs.Settling

/-!
# Settling signs

Tokens are a phrase just when their items, the signs settled, derive a settled tree
(`derives_ofTokens`). A phrase settles on its own, whatever follows it (`settle_phrase`), and items
that derive a tree are those of a phrase (`phrase_of_settle`): the signs in front of an operand are
one run, of which only the parity counts.
-/

namespace Behavioral.Item

open ParseTree

variable {ts us : Tokens} {xs rest : Items} {minus : Option (Spanned Unit)} {token : Token}
  {item : Item} {start stop : Nat}

/-- Neither a sign nor a literal, so a minus in front of it stays. -/
def Solid (token : Token) : Prop :=
  (∀ σ : Sign, token ≠ .symbol σ.symbol) ∧ ∀ x, token ≠ .number x

theorem settle_solid (h : Solid token) (leading : Bool) :
    settle leading minus (⟨start, token, stop⟩ :: ts) =
      negation minus ++ ⟨start, ofToken token, stop⟩ :: settle (leadsOn token) none ts := by
  rw [settle]
  · exact fun _ => h.1 .plus
  · exact fun _ x _ => h.2 x
  · exact fun _ _ => h.1 .minus
  · exact fun _ _ _ => h.1 .minus

theorem settle_follow : settle false none (⟨start, token, stop⟩ :: ts) =
    ⟨start, ofToken token, stop⟩ :: settle (leadsOn token) none ts := by
  rw [settle] <;> first | rfl | nofun

theorem settle_number {x : Float} : settle true minus (⟨start, .number x, stop⟩ :: ts) =
    ⟨(minus.map (·.start)).getD start, .number (if minus.isSome then -x else x), stop⟩ ::
      settle false none ts := by
  cases minus <;> rfl

theorem solid_name (n : String) : Solid (.name n) :=
  ⟨nofun, nofun⟩

theorem solid_symbol {s : Symbol} (h : ∀ σ : Sign, s ≠ σ.symbol) : Solid (.symbol s) :=
  ⟨fun σ heq => h σ (Token.symbol.inj heq), nofun⟩

theorem ofSymbol_symbol (op : BinaryOp) : ofSymbol op.symbol = .join op := by
  cases op <;> rfl

theorem leadsOn_symbol (op : BinaryOp) : leadsOn (.symbol op.symbol) = true := by
  cases op <;> rfl

theorem derives_negation {a : ParseTree} (h : Derives 0 xs a) :
    Derives 0 (negation minus ++ xs) (negated minus.isSome a) := by
  cases minus
  · exact h
  · exact @Derives.lead _ _ .negate _ _ h

mutual

/-- A phrase settles on its own. -/
theorem settle_phrase : ∀ {k : Nat} {ts : Tokens} {t : ParseTree}, Parses k ts t →
    ∀ minus : Option (Spanned Unit), k = 0 ∨ minus = none →
      ∃ xs, Derives k xs (t.settle minus.isSome) ∧
        ∀ rest, settle true minus (ts ++ rest) = xs ++ settle false none rest
  | _, _, _, .number, minus, _ => ⟨_, .number, fun rest => settle_number⟩
  | _, _, _, .name, minus, _ => ⟨_, derives_negation .name, fun rest => by
    rw [List.append_assoc]
    exact settle_solid (solid_name _) true⟩
  | _, _, _, @Parses.sign s t .plus _ a h, minus, _ => by
    obtain ⟨xs, hxs, hrest⟩ := settle_phrase h minus (.inl rfl)
    exact ⟨xs, hxs, hrest⟩
  | _, _, _, @Parses.sign s t .minus _ a h, none, _ => by
    obtain ⟨xs, hxs, hrest⟩ := settle_phrase h (some ⟨s, (), t⟩) (.inl rfl)
    exact ⟨xs, hxs, hrest⟩
  | _, _, _, @Parses.sign s t .minus _ a h, some m, _ => by
    obtain ⟨xs, hxs, hrest⟩ := settle_phrase h none (.inl rfl)
    exact ⟨xs, hxs, hrest⟩
  | _, _, _, @Parses.not s t _ _ h, minus, _ => by
    have solid : Solid (.symbol .not) := solid_symbol fun σ => by cases σ <;> decide
    obtain ⟨xs, hxs, hrest⟩ := settle_phrase h none (.inl rfl)
    refine ⟨_, derives_negation (@Derives.lead s t .not _ _ hxs), fun rest => ?_⟩
    rw [List.cons_append, settle_solid solid, List.append_assoc]
    exact congrArg _ (congrArg _ (hrest rest))
  | _, _, _, @Parses.bracket s t s' t' ts _ h, minus, _ => by
    have solid : Solid (.symbol .opening) := solid_symbol fun σ => by cases σ <;> decide
    obtain ⟨xs, hxs, hrest⟩ := settle_phrase h none (.inr rfl)
    refine ⟨_, derives_negation (@Derives.bracket s t s' t' _ _ hxs), fun rest => ?_⟩
    rw [List.cons_append, List.append_assoc, settle_solid solid]
    simp only [leadsOn, ofToken, ofSymbol, hrest, List.cons_append, List.nil_append, settle_follow,
      List.append_assoc]
  | _, _, _, @Parses.call s t s' t' s'' t'' f op ts a hop h, minus, _ => by
    obtain ⟨xs, hxs, hrest⟩ := settle_phrase h none (.inr rfl)
    refine ⟨_, derives_negation (@Derives.call s t s' t' s'' t'' f op _ _ hop hxs), fun rest => ?_⟩
    rw [List.cons_append, List.cons_append, List.append_assoc, settle_solid (solid_name f)]
    simp only [leadsOn, ofToken, ofSymbol, hrest, List.cons_append, List.nil_append, settle_follow,
      List.append_assoc]
  | _, _, _, @Parses.list s t s' t' s'' t'' f op ts args hop three takes h, minus, _ => by
    obtain ⟨xs, hxs, hrest⟩ := settle_arguments h
    have hlength : (settleAll args).length = args.length := by
      rw [settleAll_eq_map, List.length_map]
    refine ⟨_, derives_negation (@Derives.list s t s' t' s'' t'' f op _ _ hop (hlength ▸ three)
      (hlength ▸ takes) hxs), fun rest => ?_⟩
    rw [List.cons_append, List.cons_append, List.append_assoc, settle_solid (solid_name f)]
    simp only [leadsOn, ofToken, ofSymbol, hrest, List.cons_append, List.nil_append, settle_follow,
      List.append_assoc]
  | _, _, _, .up h, minus, hminus => by
    have hbelow := hminus.resolve_left (Nat.succ_ne_zero _)
    obtain ⟨xs, hxs, hrest⟩ := settle_phrase h minus (.inr hbelow)
    exact ⟨xs, hxs.up, hrest⟩
  | _, _, _, @Parses.join s t op ts us a b h h', minus, hminus => by
    obtain rfl := hminus.resolve_left (Nat.succ_ne_zero _)
    obtain ⟨xs, hxs, hrest⟩ := settle_phrase h none (.inr rfl)
    obtain ⟨ys, hys, hrest'⟩ := settle_phrase h' none (.inr rfl)
    refine ⟨_, .join (s := s) (t := t) hxs hys, fun rest => ?_⟩
    rw [List.append_assoc, hrest, List.cons_append, settle_follow, leadsOn_symbol, hrest',
      List.append_assoc, List.cons_append, ofToken, ofSymbol_symbol]

theorem settle_arguments : ∀ {ts : Tokens} {args : List ParseTree}, ParsesList ts args →
    ∃ xs, DerivesList xs (settleAll args) ∧
      ∀ rest, settle true none (ts ++ rest) = xs ++ settle false none rest
  | _, _, .last h => by
    obtain ⟨xs, hxs, hrest⟩ := settle_phrase h none (.inr rfl)
    exact ⟨xs, .last hxs, hrest⟩
  | _, _, @ParsesList.more s t _ _ _ _ h h' => by
    obtain ⟨xs, hxs, hrest⟩ := settle_phrase h none (.inr rfl)
    obtain ⟨ys, hys, hrest'⟩ := settle_arguments h'
    refine ⟨_, .more (s := s) (t := t) hxs hys, fun rest => ?_⟩
    rw [List.append_assoc, hrest, List.cons_append, settle_follow]
    simp only [leadsOn, ofToken, ofSymbol, hrest', List.append_assoc, List.cons_append]

end

/-- The tokens are the signs. -/
def Signed (ts : Tokens) (signs : List Sign) : Prop :=
  ts.map (·.value) = signs.map fun σ => .symbol σ.symbol

theorem Signed.cons {signs : List Sign} (h : Signed ts signs) (σ : Sign) :
    Signed (⟨start, .symbol σ.symbol, stop⟩ :: ts) (σ :: signs) := by
  simp only [Signed, List.map_cons]
  rw [h]

theorem Signed.parses : ∀ {ts : Tokens} {signs : List Sign}, Signed ts signs →
    ∀ {us : Tokens} {a : ParseTree}, Parses 0 us a → Parses 0 (ts ++ us) (signs.foldr sign a)
  | [], [], _, _, _, h => h
  | ⟨_, token, _⟩ :: ts, σ :: signs, hs, us, a, h => by
    simp only [Signed, List.map_cons, List.cons.injEq] at hs
    obtain ⟨rfl, hs⟩ := hs
    exact .sign (Signed.parses hs h)

/-- A sign run in front of an operand leaves a minus just when it negates. -/
theorem exists_run : ∀ (ts : Tokens) (minus : Option (Spanned Unit)), ∃ run signs us minus',
    ts = run ++ us ∧ Signed run signs ∧ minus'.isSome = (minus.isSome ^^ negates signs) ∧
      settle true minus ts = settle true minus' us ∧
      ∀ first ∈ us.head?, ∀ σ : Sign, first.value ≠ .symbol σ.symbol
  | [], minus => ⟨[], [], [], minus, rfl, rfl, by simp [negates], rfl, nofun⟩
  | first :: ts, minus => by
    by_cases h : ∃ σ : Sign, first.value = .symbol σ.symbol
    · obtain ⟨start, token, stop⟩ := first
      obtain ⟨σ, rfl⟩ := h
      have step : ∃ minus' : Option (Spanned Unit),
          minus'.isSome = (minus.isSome ^^ decide (σ = .minus)) ∧
            settle true minus (⟨start, .symbol σ.symbol, stop⟩ :: ts) = settle true minus' ts := by
        cases σ with
        | plus => exact ⟨minus, by simp, rfl⟩
        | minus =>
          obtain _ | m := minus
          · exact ⟨some ⟨start, (), stop⟩, rfl, rfl⟩
          · exact ⟨none, rfl, rfl⟩
      obtain ⟨minus', hminus, hsettle⟩ := step
      obtain ⟨run, signs, us, minus'', rfl, hrun, hodd, heq, hus⟩ := exists_run ts minus'
      refine ⟨_, _, us, minus'', rfl, hrun.cons σ, ?_, hsettle.trans heq, hus⟩
      rw [hodd, hminus, Bool.xor_assoc]
      cases σ
      · rw [negates_plus]
        simp
      · rw [negates_minus]
        simp
    · exact ⟨[], [], first :: ts, minus, rfl, rfl, by simp [negates], rfl,
        by simpa using h⟩

/-- How tokens settle to items of which the first is `item`: behind a run of signs. -/
inductive Opens (item : Item) (rest : Items) : Tokens → Prop
  | number {run us : Tokens} {signs : List Sign} {x : Float} {start stop : Nat} : Signed run signs →
      .number (if negates signs then -x else x) = item → settle false none us = rest →
      Opens item rest (run ++ ⟨start, .number x, stop⟩ :: us)
  | solid {run us : Tokens} {signs : List Sign} {token : Token} {start stop : Nat} :
      Signed run signs → negates signs = false → Solid token → ofToken token = item →
      settle (leadsOn token) none us = rest → Opens item rest (run ++ ⟨start, token, stop⟩ :: us)
  | negate {run us : Tokens} {signs : List Sign} : Signed run signs → negates signs = true →
      (∀ first ∈ us.head?, Solid first.value) → .lead .negate = item →
      settle true none us = rest → Opens item rest (run ++ us)

theorem opens (h : settle true none ts = ⟨start, item, stop⟩ :: rest) : Opens item rest ts := by
  obtain ⟨run, signs, us, minus, rfl, hrun, hodd, hsettle, hus⟩ := exists_run ts none
  rw [hsettle] at h
  rw [Option.isSome_none, Bool.false_xor] at hodd
  obtain _ | ⟨⟨s, token, t⟩, us⟩ := us
  · obtain _ | m := minus
    · cases h
    · injection h with hfirst hrest
      cases hfirst
      exact .negate hrun hodd.symm nofun rfl hrest
  · by_cases hnumber : ∃ x, token = .number x
    · obtain ⟨x, rfl⟩ := hnumber
      rw [settle_number] at h
      injection h with hfirst hrest
      cases hfirst
      exact .number hrun (by rw [hodd]) hrest
    · have hsolid : Solid token := ⟨hus _ rfl, fun x hx => hnumber ⟨x, hx⟩⟩
      rw [settle_solid hsolid] at h
      obtain _ | m := minus
      · injection h with hfirst hrest
        cases hfirst
        exact .solid hrun hodd.symm hsolid rfl hrest
      · injection h with hfirst hrest
        cases hfirst
        exact .negate hrun hodd.symm (by simpa using hsolid) rfl
          ((settle_solid hsolid true).trans hrest)

theorem ofToken_injective {token token' : Token} (h : ofToken token = ofToken token') :
    token = token' := by
  match token, token', h with
  | .number _, .number _, h => cases h; rfl
  | .name _, .name _, h => cases h; rfl
  | .symbol s, .symbol s', h => cases s <;> cases s' <;> first | rfl | cases h
  | .number _, .symbol s, h | .name _, .symbol s, h => cases s <;> cases h
  | .symbol s, .number _, h | .symbol s, .name _, h => cases s <;> cases h

theorem ofToken_ne_negate (token : Token) : ofToken token ≠ .lead .negate := by
  match token with
  | .number _ | .name _ => nofun
  | .symbol s => cases s <;> nofun

/-- An item that is neither a literal nor a negation is that of a token behind signs that cancel. -/
theorem opens_solid (h : settle true none ts = ⟨start, ofToken token, stop⟩ :: rest)
    (hsolid : Solid token) : ∃ run signs s t us, ts = run ++ ⟨s, token, t⟩ :: us ∧
      Signed run signs ∧ negates signs = false ∧ settle (leadsOn token) none us = rest := by
  obtain ⟨hrun, hitem, hrest⟩ | ⟨hrun, heven, -, hitem, hrest⟩ | ⟨hrun, hodd, -, hitem, hrest⟩ :=
    opens h
  · exact absurd (@ofToken_injective token (.number _) hitem.symm) (hsolid.2 _)
  · cases ofToken_injective hitem
    exact ⟨_, _, _, _, _, rfl, hrun, heven, hrest⟩
  · exact absurd hitem.symm (ofToken_ne_negate token)

theorem follows (h : settle false none ts = ⟨start, item, stop⟩ :: rest) :
    ∃ token us, ts = ⟨start, token, stop⟩ :: us ∧ ofToken token = item ∧
      settle (leadsOn token) none us = rest := by
  obtain _ | ⟨⟨s, token, t⟩, us⟩ := ts
  · cases h
  · rw [settle_follow] at h
    cases h
    exact ⟨token, us, rfl, rfl, rfl⟩

theorem follows_opening (h : settle false none ts = ⟨start, .opening, stop⟩ :: rest) :
    ∃ s t us, ts = ⟨s, .symbol .opening, t⟩ :: us ∧ settle true none us = rest := by
  obtain ⟨token, us, rfl, htoken, hrest⟩ := follows h
  cases @ofToken_injective token (.symbol .opening) htoken
  exact ⟨_, _, us, rfl, hrest⟩

theorem follows_closing (h : settle false none ts = ⟨start, .closing, stop⟩ :: rest) :
    ∃ s t us, ts = ⟨s, .symbol .closing, t⟩ :: us ∧ settle false none us = rest := by
  obtain ⟨token, us, rfl, htoken, hrest⟩ := follows h
  cases @ofToken_injective token (.symbol .closing) htoken
  exact ⟨_, _, us, rfl, hrest⟩

/-- A minus in front of an operand without signs of its own stays. -/
theorem settle_solid_operand {a : ParseTree} (h : Parses 0 ts a)
    (hsolid : ∀ first ∈ ts.head?, Solid first.value) :
    a.settle true = .sign .minus (a.settle false) := by
  cases h with
  | number => exact absurd rfl ((hsolid _ rfl).2 _)
  | @sign _ _ σ => exact absurd rfl ((hsolid _ rfl).1 σ)
  | _ => rfl

theorem Parses.ne_nil : ∀ {k : Nat} {ts : Tokens} {a : ParseTree}, Parses k ts a → ts ≠ []
  | _, _, _, .number | _, _, _, .name | _, _, _, .sign _ | _, _, _, .not _ | _, _, _, .bracket _
  | _, _, _, .call _ _ | _, _, _, .list _ _ _ _ => nofun
  | _, _, _, .up h => Parses.ne_nil h
  | _, _, _, .join _ _ => by simp

theorem head?_append {a : ParseTree} (h : Parses 0 ts a) : (ts ++ us).head? = ts.head? := by
  obtain ⟨first, ts, rfl⟩ := List.exists_cons_of_ne_nil (Parses.ne_nil h)
  rfl

mutual

/-- Items that derive a tree come from a phrase, and what follows them from what follows it. -/
theorem phrase_of_settle : ∀ {k : Nat} {xs : Items} {e : ParseTree}, Derives k xs e →
    ∀ {ts : Tokens} {rest : Items}, settle true none ts = xs ++ rest →
      ∃ us vs t, ts = us ++ vs ∧ Parses k us t ∧ t.settle false = e ∧ settle false none vs = rest
  | _, _, _, .number, ts, rest, h => by
    obtain ⟨hrun, hitem, hrest⟩ | ⟨-, -, hsolid, hitem, -⟩ | ⟨-, -, -, hitem, -⟩ := opens h
    · refine ⟨_, _, _, List.append_cons .., hrun.parses .number, ?_, hrest⟩
      rw [settle_run, Bool.false_xor, ParseTree.settle]
      exact congrArg _ (Item.number.inj hitem)
    · exact absurd (ofToken_injective hitem) (hsolid.2 _)
    · cases hitem
  | _, _, _, @Derives.name _ _ n, ts, rest, h => by
    obtain ⟨run, signs, s, t, us, rfl, hrun, heven, hrest⟩ := opens_solid h (solid_name n)
    refine ⟨_, _, _, List.append_cons .., hrun.parses .name, ?_, hrest⟩
    rw [settle_run, heven]
    rfl
  | _, _, _, @Derives.lead _ _ .not _ _ hd, ts, rest, h => by
    have hsolid : Solid (.symbol .not) := solid_symbol fun σ => by cases σ <;> decide
    obtain ⟨run, signs, s, t, us, rfl, hrun, heven, hrest⟩ := opens_solid h hsolid
    obtain ⟨us, vs, a, rfl, hparses, rfl, hrest⟩ := phrase_of_settle hd hrest
    refine ⟨run ++ ⟨s, .symbol .not, t⟩ :: us, vs, _, by simp, hrun.parses hparses.not, ?_, hrest⟩
    rw [settle_run, heven]
    rfl
  | _, _, _, @Derives.lead _ _ .negate _ _ hd, ts, rest, h => by
    obtain ⟨-, hitem, -⟩ | ⟨-, -, -, hitem, -⟩ | ⟨hrun, hodd, hsolid, -, hrest⟩ := opens h
    · cases hitem
    · exact absurd hitem (ofToken_ne_negate _)
    · obtain ⟨us, vs, a, rfl, hparses, rfl, hrest⟩ := phrase_of_settle hd hrest
      refine ⟨_, vs, _, (List.append_assoc ..).symm, hrun.parses hparses, ?_, hrest⟩
      rw [settle_run, hodd]
      refine settle_solid_operand hparses fun first hfirst => hsolid first ?_
      rwa [head?_append hparses]
  | _, _, _, @Derives.bracket _ _ _ _ xs _ hd, ts, rest, h => by
    have hsolid : Solid (.symbol .opening) := solid_symbol fun σ => by cases σ <;> decide
    obtain ⟨run, signs, s, t, us, rfl, hrun, heven, hrest⟩ := opens_solid h hsolid
    obtain ⟨us, vs, a, rfl, hparses, rfl, hclose⟩ :=
      phrase_of_settle hd (hrest.trans (List.append_assoc ..))
    obtain ⟨s', t', vs, rfl, hafter⟩ := follows_closing hclose
    refine ⟨run ++ ⟨s, .symbol .opening, t⟩ :: (us ++ [⟨s', .symbol .closing, t'⟩]), vs, _, by simp,
      hrun.parses hparses.bracket, ?_, hafter⟩
    rw [settle_run, heven]
    rfl
  | _, _, _, @Derives.call _ _ _ _ _ _ f op xs _ hop hd, ts, rest, h => by
    obtain ⟨run, signs, s, t, us, rfl, hrun, heven, hrest⟩ := opens_solid h (solid_name f)
    obtain ⟨s', t', us, rfl, hinner⟩ := follows_opening hrest
    obtain ⟨us, vs, a, rfl, hparses, rfl, hclose⟩ :=
      phrase_of_settle hd (hinner.trans (List.append_assoc ..))
    obtain ⟨s'', t'', vs, rfl, hafter⟩ := follows_closing hclose
    refine ⟨run ++ ⟨s, .name f, t⟩ :: ⟨s', .symbol .opening, t'⟩ ::
      (us ++ [⟨s'', .symbol .closing, t''⟩]), vs, _, by simp, hrun.parses (.call hop hparses), ?_,
      hafter⟩
    rw [settle_run, heven]
    rfl
  | _, _, _, @Derives.list _ _ _ _ _ _ f op xs _ hop three takes hd, ts, rest, h => by
    obtain ⟨run, signs, s, t, us, rfl, hrun, heven, hrest⟩ := opens_solid h (solid_name f)
    obtain ⟨s', t', us, rfl, hinner⟩ := follows_opening hrest
    obtain ⟨us, vs, args, rfl, hparses, rfl, hclose⟩ :=
      arguments_of_settle hd (hinner.trans (List.append_assoc ..))
    obtain ⟨s'', t'', vs, rfl, hafter⟩ := follows_closing hclose
    rw [settleAll_eq_map, List.length_map] at three takes
    refine ⟨run ++ ⟨s, .name f, t⟩ :: ⟨s', .symbol .opening, t'⟩ ::
      (us ++ [⟨s'', .symbol .closing, t''⟩]), vs, _, by simp,
      hrun.parses (.list hop three takes hparses), ?_, hafter⟩
    rw [settle_run, heven]
    rfl
  | _, _, _, .up hd, ts, rest, h => by
    obtain ⟨us, vs, t, hsplit, hparses, hsettle, hrest⟩ := phrase_of_settle hd h
    exact ⟨us, vs, t, hsplit, hparses.up, hsettle, hrest⟩
  | _, _, _, @Derives.join s t op xs ys _ _ hd hd', ts, rest, h => by
    obtain ⟨us, vs, a, rfl, hparses, rfl, hjoin⟩ :=
      phrase_of_settle hd (h.trans (List.append_assoc ..))
    obtain ⟨token, vs, rfl, htoken, hrest⟩ := follows hjoin
    cases @ofToken_injective token (.symbol op.symbol) (htoken.trans (ofSymbol_symbol op).symm)
    rw [leadsOn_symbol] at hrest
    obtain ⟨vs, ws, b, rfl, hparses', rfl, hafter⟩ := phrase_of_settle hd' hrest
    exact ⟨us ++ ⟨s, .symbol op.symbol, t⟩ :: vs, ws, _, by simp, hparses.join hparses', rfl,
      hafter⟩

theorem arguments_of_settle : ∀ {xs : Items} {es : List ParseTree}, DerivesList xs es →
    ∀ {ts : Tokens} {rest : Items}, settle true none ts = xs ++ rest →
      ∃ us vs args, ts = us ++ vs ∧ ParsesList us args ∧ settleAll args = es ∧
        settle false none vs = rest
  | _, _, .last hd, ts, rest, h => by
    obtain ⟨us, vs, t, hsplit, hparses, hsettle, hrest⟩ := phrase_of_settle hd h
    exact ⟨us, vs, [t], hsplit, .last hparses, congrArg (· :: []) hsettle, hrest⟩
  | _, _, @DerivesList.more s t _ _ _ _ hd hd', ts, rest, h => by
    obtain ⟨us, vs, a, rfl, hparses, rfl, hmore⟩ :=
      phrase_of_settle hd (h.trans (List.append_assoc ..))
    obtain ⟨token, vs, rfl, htoken, hrest⟩ := follows hmore
    cases @ofToken_injective token (.symbol .comma) htoken
    obtain ⟨vs, ws, args, rfl, hparses', rfl, hafter⟩ := arguments_of_settle hd' hrest
    exact ⟨us ++ ⟨s, .symbol .comma, t⟩ :: vs, ws, _, by simp, .more hparses hparses', rfl, hafter⟩

end

/-- What the items of tokens derive are the settled trees of the tokens. -/
theorem derives_ofTokens {e : ParseTree} :
    Derives 7 (ofTokens ts) e ↔ ∃ t, Parses 7 ts t ∧ t.settle false = e := by
  constructor
  · intro h
    obtain ⟨us, vs, t, rfl, hparses, hsettle, hrest⟩ :=
      phrase_of_settle h (List.append_nil (ofTokens ts)).symm
    obtain _ | ⟨⟨s, token, t⟩, vs⟩ := vs
    · exact ⟨t, by rwa [List.append_nil], hsettle⟩
    · rw [settle_follow] at hrest
      cases hrest
  · rintro ⟨t, hparses, rfl⟩
    obtain ⟨xs, hxs, hrest⟩ := settle_phrase hparses none (.inr rfl)
    have hsettle : ofTokens ts = xs := by simpa [ofTokens, settle, negation] using hrest []
    exact hsettle ▸ hxs

end Behavioral.Item
