import Behavioral.Proofs.Replaying

/-!
# Positions

Where the items stand says only where a fault is. The same items somewhere else reduce to the same
operand and leave the same state, or break the same rule (`run_moved`), with any algebra whose
operators use positions for faults only. Assembling atoms is such an algebra
(`placeless_assembly`), so tokens that settle to the same items elsewhere compile to the same table
(`compileTokens_moved`).
-/

namespace Behavioral

open Item Reduction

variable {σ α β γ δ : Type}

/-- The rule that a fault breaks, wherever it does: its kind and its code. -/
def Fault.rule (f : Fault) : String × String :=
  (f.kind, f.code)

/-- Two steps have yielded what `R` relates and left the same state, or broken the same rule. -/
inductive Ends (R : β → γ → Prop) : Except Fault (β × σ) → Except Fault (γ × σ) → Prop
  | ok {b : β} {c : γ} {s : σ} : R b c → Ends R (.ok (b, s)) (.ok (c, s))
  | fault {f g : Fault} : f.rule = g.rule → Ends R (.error f) (.error g)

theorem Ends.refl (p : Except Fault (β × σ)) : Ends Eq p p := by
  rcases p with f | ⟨b, s⟩
  · exact .fault rfl
  · exact .ok rfl

/-- Two steps end alike from every state. -/
def Parallel (R : β → γ → Prop) (x : Build σ β) (y : Build σ γ) : Prop :=
  ∀ s, Ends R (x s) (y s)

namespace Parallel

variable {R : β → γ → Prop} {x : Build σ β} {y : Build σ γ}

theorem pure {b : β} {c : γ} (h : R b c) : Parallel R (Pure.pure b : Build σ β) (Pure.pure c) :=
  fun _ => .ok h

theorem fail {f g : SyntaxFault} (h : f.code = g.code) :
    Parallel R (Reduction.fail f : Build σ β) (Reduction.fail g) :=
  fun _ => .fault (congrArg (Prod.mk _) h)

theorem refl (x : Build σ β) : Parallel Eq x x :=
  fun s => .refl (x s)

theorem bind {β' γ' : Type} {S : β' → γ' → Prop} {f : β → Build σ β'} {g : γ → Build σ γ'}
    (h : Parallel R x y) (hf : ∀ b c, R b c → Parallel S (f b) (g c)) :
    Parallel S (x >>= f) (y >>= g) := by
  intro s
  have hxy := h s
  show Ends S ((x s).bind fun r => f r.1 r.2) ((y s).bind fun r => g r.1 r.2)
  generalize x s = p at hxy ⊢
  generalize y s = q at hxy ⊢
  rcases hxy with hbc | hrule
  · exact hf _ _ hbc _
  · exact .fault hrule

/-- Steps that yield the same go on with the same. -/
theorem bind_same {β' γ' : Type} {S : β' → γ' → Prop} {x y : Build σ β} {f : β → Build σ β'}
    {g : β → Build σ γ'} (h : Parallel Eq x y) (hf : ∀ b, Parallel S (f b) (g b)) :
    Parallel S (x >>= f) (y >>= g) :=
  h.bind fun b _ hbc => hbc ▸ hf b

end Parallel

/-- The operators and calls use positions for faults only. -/
structure Placeless (alg : Algebra σ α) : Prop where
  lead (op : LeadOp) (a : α) (start start' : Nat) :
    Parallel Eq (alg.lead op a start) (alg.lead op a start')
  join (op : BinaryOp) (a b : α) (start start' : Nat) :
    Parallel Eq (alg.join op a b start) (alg.join op a b start')
  call (op : UnaryOp) (f : String) (a : α) (start start' : Nat) :
    Parallel Eq (alg.call op f a start) (alg.call op f a start')
  callList (op : ListOp) (f : String) (as : List α) (start start' : Nat) :
    Parallel Eq (alg.callList op f as start) (alg.callList op f as start')

theorem moved_cons {b : β} {s t : Nat} {ys zs : List (Spanned β)} (h : Moved (⟨s, b, t⟩ :: ys) zs) :
    ∃ s' t' zs', zs = ⟨s', b, t'⟩ :: zs' ∧ Moved ys zs' := by
  obtain _ | @⟨_, ⟨s', _, t'⟩, _, zs', rfl, h⟩ := h
  exact ⟨s', t', zs', rfl, h⟩

namespace Reduction

variable {alg : Algebra σ α} (hp : Placeless alg)
include hp

theorem applyLeads_moved : ∀ {ps qs : List (Spanned (Part α))}, Moved ps qs →
    Parallel Moved (applyLeads alg ps) (applyLeads alg qs)
  | [], _, .nil => .pure .nil
  | ⟨s, .lead op, _⟩ :: ps, qs, h => by
    obtain ⟨s', t', qs, rfl, htail⟩ := moved_cons h
    refine (applyLeads_moved htail).bind fun ps qs hps => ?_
    rcases ps with _ | ⟨⟨_, p, _⟩, after⟩
    · cases hps
      exact .fail rfl
    · obtain ⟨_, _, after', rfl, hafter⟩ := moved_cons hps
      cases p with
      | operand a =>
        refine (hp.lead op a s s').bind_same fun b => ?_
        exact .pure (.cons rfl hafter)
      | lead | join | comma => exact .fail rfl
  | ⟨_, .operand _, _⟩ :: ps, qs, h
  | ⟨_, .join _, _⟩ :: ps, qs, h
  | ⟨_, .comma, _⟩ :: ps, qs, h => by
    obtain ⟨_, _, qs, rfl, htail⟩ := moved_cons h
    exact (applyLeads_moved htail).bind fun _ _ hps => .pure (.cons rfl hps)

theorem applyLevel_moved {level : Nat} {passed rest : List (Spanned (Part α))} :
    ∀ {passed' rest' : List (Spanned (Part α))}, Moved passed passed' → Moved rest rest' →
      Parallel Moved (applyLevel alg level passed rest) (applyLevel alg level passed' rest') := by
  fun_induction applyLevel alg level passed rest with
  | case1 passed =>
    intro passed' _ hpassed hrest
    cases hrest
    exact .pure (List.forall₂_reverse_iff.2 hpassed)
  | case2 start op stop hop first a _ before _ b last after ih =>
    intro passed' rest' hpassed hrest
    obtain ⟨_, _, before', rfl, hbefore⟩ := moved_cons hpassed
    obtain ⟨start', _, _, rfl, htail⟩ := moved_cons hrest
    obtain ⟨_, _, after', rfl, hafter⟩ := moved_cons htail
    rw [applyLevel, if_pos hop]
    refine (hp.join op a b start start').bind_same fun c => ?_
    exact ih c (.cons rfl hbefore) hafter
  | case3 passed start op stop rest hop hshape =>
    intro passed' rest' hpassed hrest
    obtain ⟨_, _, rest', rfl, htail⟩ := moved_cons hrest
    rw [applyLevel.eq_def alg]
    simp only [if_pos hop]
    split
    · obtain _ | @⟨⟨_, _, _⟩, _, _, _, rfl, _⟩ := hpassed
      obtain _ | @⟨⟨_, _, _⟩, _, _, _, rfl, _⟩ := htail
      exact absurd rfl (hshape _ _ _ _ _ _ _ _ rfl)
    · exact .fail rfl
  | case4 passed start op stop rest hop ih =>
    intro passed' rest' hpassed hrest
    obtain ⟨_, _, rest', rfl, htail⟩ := moved_cons hrest
    rw [applyLevel.eq_def alg _ passed']
    simp only [if_neg hop]
    exact ih (.cons rfl hpassed) htail
  | case5 passed p rest hne ih =>
    intro passed' rest' hpassed hrest
    obtain ⟨_, p, _⟩ := p
    obtain ⟨s, t, rest', rfl, htail⟩ := moved_cons hrest
    rw [applyLevel]
    · exact ih (.cons rfl hpassed) htail
    · rintro start op stop hjoin
      cases hjoin
      exact hne _ _ _ rfl

theorem levels_moved : ∀ (levels : List Nat) {ps qs : List (Spanned (Part α))}, Moved ps qs →
    Parallel Moved (levels.foldlM (fun ps level => applyLevel alg level [] ps) ps)
      (levels.foldlM (fun qs level => applyLevel alg level [] qs) qs)
  | [], _, _, h => .pure h
  | _ :: levels, _, _, h => by
    rw [List.foldlM_cons, List.foldlM_cons]
    exact (applyLevel_moved hp .nil h).bind fun _ _ h' => levels_moved levels h'

theorem segment_moved {start start' : Nat} {ps qs : List (Spanned (Part α))} (h : Moved ps qs) :
    Parallel Eq (segment alg start ps) (segment alg start' qs) := by
  obtain _ | ⟨hvalue, h⟩ := h
  · exact .fail rfl
  · refine (applyLeads_moved hp (.cons hvalue h)).bind fun ps' qs' h' => ?_
    refine (levels_moved hp levels h').bind fun ps'' qs'' h'' => ?_
    obtain _ | @⟨⟨_, p, _⟩, ⟨_, _, _⟩, _, _, rfl, _ | _⟩ := h''
    · exact .fail rfl
    · cases p with
      | operand a => exact .pure rfl
      | lead | join | comma => exact .fail rfl
    · cases p <;> exact .fail rfl

theorem segments_moved : ∀ {ps run qs run' : List (Spanned (Part α))} {start start' : Nat},
    Moved run run' → Moved ps qs →
      Parallel Eq (segments alg start run ps) (segments alg start' run' qs)
  | [], _, _, _, _, _, hrun, .nil => by
    refine (segment_moved hp (List.forall₂_reverse_iff.2 hrun)).bind_same fun a => ?_
    exact .pure rfl
  | ⟨_, .comma, _⟩ :: ps, _, qs, _, _, _, hrun, h => by
    obtain ⟨_, _, qs, rfl, htail⟩ := moved_cons h
    refine (segment_moved hp (List.forall₂_reverse_iff.2 hrun)).bind_same fun a => ?_
    refine (segments_moved .nil htail).bind_same fun as => ?_
    exact .pure rfl
  | ⟨_, .operand _, _⟩ :: ps, _, qs, _, _, _, hrun, h
  | ⟨_, .lead _, _⟩ :: ps, _, qs, _, _, _, hrun, h
  | ⟨_, .join _, _⟩ :: ps, _, qs, _, _, _, hrun, h => by
    obtain ⟨_, _, qs, rfl, htail⟩ := moved_cons h
    simp only [segments]
    exact segments_moved (.cons rfl hrun) htail

theorem bracket_moved {callee callee' : Option (Spanned String)} {start start' : Nat}
    (hcallee : SameCallee callee callee') (args : List α) :
    Parallel Eq (bracket alg callee start args) (bracket alg callee' start' args) := by
  cases callee with
  | none =>
    obtain rfl : callee' = none := by simpa [SameCallee] using hcallee.symm
    rcases args with _ | ⟨a, _ | ⟨b, args⟩⟩
    · exact .fail rfl
    · exact .pure rfl
    · exact .fail rfl
  | some f =>
    obtain ⟨f', rfl, hf⟩ : ∃ f', callee' = some f' ∧ f'.value = f.value := by
      simpa [SameCallee] using hcallee.symm
    unfold bracket
    simp only [hf]
    split
    · split
      · exact hp.call _ _ _ _ _
      · exact .fail rfl
    · split
      · exact .fail rfl
      · split
        · exact .fail rfl
        · split
          · exact hp.callList _ _ _ _ _
          · exact .fail rfl

/-- The same piece, wherever the function that it calls stands. -/
inductive SamePiece : Piece α → Piece α → Prop
  | part {p : Part α} : SamePiece (.part p) (.part p)
  | opening {callee callee' : Option (Spanned String)} : SameCallee callee callee' →
      SamePiece (.opening callee) (.opening callee')
  | closing : SamePiece .closing .closing

abbrev SamePieces : List (Spanned (Piece α)) → List (Spanned (Piece α)) → Prop :=
  List.Forall₂ fun x y => SamePiece x.value y.value

/-- The same open bracket, wherever it and what stood in front of it are. -/
def SameFrame (f g : Frame α) : Prop :=
  SameCallee f.callee g.callee ∧ Moved f.before g.before

theorem reduce_moved {outer : List (Frame α)} {inner : List (Spanned (Part α))}
    {ps : List (Spanned (Piece α))} : ∀ {outer' : List (Frame α)}
      {inner' : List (Spanned (Part α))} {qs : List (Spanned (Piece α))},
      List.Forall₂ SameFrame outer outer' → Moved inner inner' → SamePieces ps qs →
      Parallel Eq (reduce alg outer inner ps) (reduce alg outer' inner' qs) := by
  fun_induction reduce alg outer inner ps with
  | case1 =>
    intro outer' inner' qs houter hinner hps
    cases houter
    cases hinner
    cases hps
    exact .fail rfl
  | case2 inner hne =>
    intro outer' inner' qs houter hinner hps
    cases houter
    cases hps
    have hne' : inner' ≠ [] := by
      rintro rfl
      exact hne (List.forall₂_nil_right_iff.1 hinner)
    rw [reduce]
    · refine (segments_moved hp .nil (List.forall₂_reverse_iff.2 hinner)).bind_same fun args => ?_
      exact .refl _
    · exact hne'
  | case3 f outer inner =>
    intro outer' inner' qs houter hinner hps
    obtain _ | ⟨-, -⟩ := houter
    cases hps
    exact .fail rfl
  | case4 outer inner start callee stop rest ih =>
    intro outer' inner' qs houter hinner hps
    obtain _ | @⟨_, ⟨_, _, _⟩, _, _, _ | hcallee, hps⟩ := hps
    rw [reduce]
    exact ih (.cons ⟨hcallee, hinner⟩ houter) .nil hps
  | case5 inner start stop rest =>
    intro outer' inner' qs houter hinner hps
    cases houter
    obtain _ | @⟨_, ⟨_, _, _⟩, _, _, _ | _ | _, hps⟩ := hps
    rw [reduce]
    exact .fail rfl
  | case6 f outer inner start stop rest hempty =>
    intro outer' inner' qs houter hinner hps
    obtain _ | ⟨-, -⟩ := houter
    obtain _ | @⟨_, ⟨_, _, _⟩, _, _, _ | _ | _, hps⟩ := hps
    rw [reduce, if_pos]
    · exact .fail rfl
    · rw [List.isEmpty_iff] at hempty ⊢
      exact List.forall₂_nil_left_iff.1 (hempty ▸ hinner)
  | case7 f outer inner start stop rest hne ih =>
    intro outer' inner' qs houter hinner hps
    obtain _ | @⟨_, g, _, _, ⟨hcallee, hbefore⟩, houter⟩ := houter
    obtain _ | @⟨_, ⟨_, _, _⟩, _, _, _ | _ | _, hps⟩ := hps
    rw [reduce, if_neg]
    · refine (segments_moved hp .nil (List.forall₂_reverse_iff.2 hinner)).bind_same fun args => ?_
      refine (bracket_moved hp hcallee args).bind_same fun a => ?_
      exact ih a houter (.cons rfl hbefore) hps
    · rw [List.isEmpty_iff] at hne ⊢
      rintro rfl
      exact hne (List.forall₂_nil_right_iff.1 hinner)
  | case8 outer inner start p stop rest ih =>
    intro outer' inner' qs houter hinner hps
    obtain _ | @⟨_, ⟨_, _, _⟩, _, _, _ | _ | _, hps⟩ := hps
    rw [reduce]
    exact ih houter (.cons rfl hinner) hps

omit hp in
theorem readItem_moved (item : Item) :
    Parallel SamePiece (readItem alg item) (readItem alg item) := by
  have operand (x : Build σ α) : Parallel SamePiece ((Piece.part <| .operand ·) <$> x)
      ((Piece.part <| .operand ·) <$> x) := by
    rw [← bind_pure_comp]
    refine (Parallel.refl x).bind_same fun a => ?_
    exact .pure .part
  cases item with
  | number x => exact operand (alg.number x)
  | name n => exact operand (alg.name n)
  | lead | join | comma => exact .pure .part
  | opening => exact .pure (.opening rfl)
  | closing => exact .pure .closing

omit hp in
theorem pieces_moved {xs : Items} : ∀ {ys : Items}, Moved xs ys →
    Parallel SamePieces (pieces alg xs) (pieces alg ys) := by
  fun_induction spell xs with
  | case1 =>
    rintro _ ⟨⟩
    exact .pure .nil
  | case2 s f e s' e' rest ih =>
    intro ys h
    obtain ⟨_, _, _, rfl, htail⟩ := moved_cons h
    obtain ⟨_, _, _, rfl, hinner⟩ := moved_cons htail
    simp only [pieces]
    exact (ih hinner).bind fun _ _ hps => .pure (.cons (.opening rfl) hps)
  | case3 s item e rest hname ih =>
    intro ys h
    obtain ⟨_, _, _, rfl, htail⟩ := moved_cons h
    rw [pieces_cons _ hname, pieces_cons]
    · exact (readItem_moved item).bind fun _ _ hpiece =>
        (ih htail).bind fun _ _ hps => .pure (.cons hpiece hps)
    · rintro f so eo after rfl
      obtain _ | @⟨⟨_, _, _⟩, _, _, _, rfl, _⟩ := htail
      exact hname f _ _ _ rfl

/-- The same items somewhere else reduce to the same operand, or break the same rule. -/
theorem run_moved {xs ys : Items} (h : Moved xs ys) : Parallel Eq (run alg xs) (run alg ys) :=
  (pieces_moved h).bind fun _ _ hps => reduce_moved hp .nil .nil hps

end Reduction

/-! ### Assembling -/

namespace Assembly

variable {fold : Bool}

theorem typeFault?_code (op : BinaryOp) (x y : Bool) (start start' : Nat) :
    (typeFault? op x y start).map (·.code) = (typeFault? op x y start').map (·.code) := by
  cases op <;> cases x <;> cases y <;> rfl

/-- Operators and calls that assemble atoms use positions for faults only. -/
theorem placeless_assembly (fold : Bool) : Placeless (algebra fold) where
  lead op a start start' t := by
    simp only [algebra, applyLead_eq]
    split
    · exact .refl _
    · cases op <;> exact .fault rfl
  join op a b start start' t := by
    have hcode := typeFault?_code op (t.get a).isBoolean (t.get b).isBoolean start start'
    simp only [algebra, applyJoin_eq]
    cases hfault : typeFault? op (t.get a).isBoolean (t.get b).isBoolean start with
    | some f =>
      obtain ⟨g, hfault', hfg⟩ : ∃ g, typeFault? op (t.get a).isBoolean (t.get b).isBoolean start' =
          some g ∧ g.code = f.code := by simpa [hfault] using hcode.symm
      rw [hfault']
      exact .fault (congrArg (Prod.mk _) hfg.symm)
    | none =>
      have hfault' : typeFault? op (t.get a).isBoolean (t.get b).isBoolean start' = none := by
        simpa [hfault] using hcode.symm
      rw [hfault']
      dsimp only
      split
      · exact .refl _
      · split
        · exact .fault rfl
        · exact .refl _
  call op f a start start' t := by
    simp only [algebra, applyCall_eq]
    split
    · exact .fault rfl
    · exact .refl _
  callList op f as start start' t := by
    cases as with
    | nil => exact .refl _
    | cons first rest =>
      simp only [algebra, applyList_cons]
      split
      · exact .fault rfl
      · exact .refl _

end Assembly

/-! ### Compiling -/

variable {xs ys : Items} {tokens tokens' : Tokens} {text : String} {settings : Settings}

/-- Compiles items whose signs are settled and whose reciprocals of literals are replaced. -/
def compileItems (settings : Settings) (items : Items) : Except Fault AtomTable := do
  checkBrackets items
  let table ← assemble settings.foldConstants items
  return table.optimize settings

/-- Compiles what the text has been split into. -/
def compileTokens (text : String) (settings : Settings) (tokens : Tokens) :
    Except Fault AtomTable :=
  if tokens.isEmpty then throw (.grammar (.emptyText text))
  else compileItems settings (prepare tokens)

theorem compile_eq_compileTokens :
    compile text settings = tokenize text settings >>= compileTokens text settings := by
  rw [compile, itemsOf, bind_assoc]
  refine congrArg (tokenize text settings >>= ·) (funext fun tokens => ?_)
  cases tokens with
  | nil => rfl
  | cons first rest =>
    simp only [compileTokens, compileItems, List.isEmpty_cons, Bool.false_eq_true, ↓reduceIte,
      bind_assoc, pure_bind]
    rfl

theorem Moved.checkFrom (h : Moved xs ys) (depth last last' : Nat) :
    (checkFrom depth last xs).mapError Fault.rule =
      (Item.checkFrom depth last' ys).mapError Fault.rule := by
  induction h generalizing depth last last' with
  | nil => cases depth <;> rfl
  | @cons x y xs ys hvalue _ ih =>
    obtain ⟨s, item, t⟩ := x
    obtain ⟨s', _, t'⟩ := y
    obtain rfl : item = _ := hvalue
    cases item with
    | closing =>
      cases depth with
      | zero => rfl
      | succ depth => exact ih depth last last'
    | opening => cases depth <;> exact ih _ s s'
    | number | name | lead | join | comma => cases depth <;> exact ih _ last last'

theorem Ends.mapError {p q : Except Fault (β × σ)} (h : Ends Eq p q) :
    p.mapError Fault.rule = q.mapError Fault.rule := by
  cases h with
  | ok h => rw [h]
  | fault h => exact congrArg Except.error h

theorem mapError_bind {f g : β → Except Fault γ} {p q : Except Fault β}
    (h : p.mapError Fault.rule = q.mapError Fault.rule)
    (hf : ∀ b, (f b).mapError Fault.rule = (g b).mapError Fault.rule) :
    (p >>= f).mapError Fault.rule = (q >>= g).mapError Fault.rule := by
  rcases p with e | b <;> rcases q with e' | c
  · exact congrArg Except.error (Except.error.inj h)
  · cases h
  · cases h
  · rw [Except.ok.inj h]
    exact hf c

/-- The same items somewhere else compile to the same table, or break the same rule. -/
theorem compileItems_moved (h : Moved xs ys) : (compileItems settings xs).mapError Fault.rule =
    (compileItems settings ys).mapError Fault.rule := by
  refine mapError_bind (h.checkFrom 0 0 0) fun _ => mapError_bind ?_ fun _ => rfl
  exact mapError_bind (run_moved (Assembly.placeless_assembly _) h AtomTable.empty).mapError
    fun _ => rfl

/-- No tokens break the same rule as tokens of which no items are left. -/
theorem compileTokens_rule : (compileTokens text settings tokens).mapError Fault.rule =
    (compileItems settings (prepare tokens)).mapError Fault.rule := by
  cases tokens <;> rfl

/-- Tokens that settle to the same items elsewhere compile to the same table, or break the same
rule. -/
theorem compileTokens_moved (h : Moved (ofTokens tokens) (ofTokens tokens')) :
    (compileTokens text settings tokens).mapError Fault.rule =
      (compileTokens text settings tokens').mapError Fault.rule := by
  rw [compileTokens_rule, compileTokens_rule]
  exact compileItems_moved h.expandReciprocals

end Behavioral
