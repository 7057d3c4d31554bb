import Behavioral.Proofs.ReductionSound

/-!
# Reductions side by side

The same reduction, with two algebras: where their operators yield related operands from related
ones, so do whole reductions, and where one fails the other does too, with the same fault
(`run_agrees`). A `Correspondence` says what is related, in states that only grow, and which faults
the left or the right may have on its own. The left may also read the value of a reciprocal where
the right still calls the function.
-/

namespace Behavioral

variable {σ τ α β γ δ : Type}

/-- A relation between operands, in states that go together and only grow. -/
structure Correspondence (σ τ α β : Type) where
  Inv : σ × τ → Prop
  Grows : σ × τ → σ × τ → Prop
  Rel : σ × τ → α → β → Prop
  /-- The faults that the left may have on its own. -/
  Excused : Fault → Prop
  /-- The faults that the right may have on its own. -/
  Pardoned : Fault → Prop := fun _ => False
  refl (w : σ × τ) : Grows w w
  trans {u v w : σ × τ} : Grows u v → Grows v w → Grows u w
  mono {w w' : σ × τ} {a : α} {b : β} : Grows w w' → Rel w a b → Rel w' a b

namespace Correspondence

variable (C : Correspondence σ τ α β)

/-- How two steps from the states `w` may end. -/
inductive Outcome (w : σ × τ) (P : σ × τ → γ → δ → Prop) :
    Except Fault (γ × σ) → Except Fault (δ × τ) → Prop
  | ok {s : σ} {t : τ} {a : γ} {b : δ} : C.Grows w (s, t) → C.Inv (s, t) → P (s, t) a b →
      Outcome w P (.ok (a, s)) (.ok (b, t))
  | fault {f : Fault} : Outcome w P (.error f) (.error f)
  | excused {f : Fault} {y : Except Fault (δ × τ)} : C.Excused f → Outcome w P (.error f) y
  | pardoned {f : Fault} {x : Except Fault (γ × σ)} : C.Pardoned f → Outcome w P x (.error f)

/-- Two steps yield what `P` relates, or fail alike. -/
def Agrees (w : σ × τ) (x : Build σ γ) (y : Build τ δ) (P : σ × τ → γ → δ → Prop) : Prop :=
  C.Inv w → C.Outcome w P (x w.1) (y w.2)

variable {C} {w : σ × τ} {x : Build σ γ} {y : Build τ δ} {P Q : σ × τ → γ → δ → Prop}

theorem agrees_pure {a : γ} {b : δ} (h : P w a b) : C.Agrees w (pure a) (pure b) P :=
  fun hw => .ok (C.refl w) hw h

theorem agrees_fail {f : SyntaxFault} :
    C.Agrees w (Reduction.fail f : Build σ γ) (Reduction.fail f : Build τ δ) P :=
  fun _ => .fault

theorem Outcome.since {w' : σ × τ} {p : Except Fault (γ × σ)} {q : Except Fault (δ × τ)}
    (h : C.Grows w w') : C.Outcome w' P p q → C.Outcome w P p q
  | .ok hg hi hp => .ok (C.trans h hg) hi hp
  | .fault => .fault
  | .excused hf => .excused hf
  | .pardoned hf => .pardoned hf

theorem Agrees.bind {γ' δ' : Type} {k : γ → Build σ γ'} {l : δ → Build τ δ'}
    {R : σ × τ → γ' → δ' → Prop} (h : C.Agrees w x y P)
    (hk : ∀ w' a b, C.Grows w w' → P w' a b → C.Agrees w' (k a) (l b) R) :
    C.Agrees w (x >>= k) (y >>= l) R := by
  intro hw
  have hxy := h hw
  show C.Outcome w R ((x w.1).bind fun r => k r.1 r.2) ((y w.2).bind fun r => l r.1 r.2)
  generalize x w.1 = p at hxy ⊢
  generalize y w.2 = q at hxy ⊢
  rcases hxy with ⟨hg, hi, hp⟩ | _ | hf | hf
  · exact (hk _ _ _ hg hp hi).since hg
  · exact .fault
  · exact .excused hf
  · exact .pardoned hf

/-- Parts that differ in their operands only, which are related. -/
inductive Alike (C : Correspondence σ τ α β) (w : σ × τ) :
    Spanned (Part α) → Spanned (Part β) → Prop
  | operand {s t : Nat} {a : α} {b : β} :
      C.Rel w a b → Alike C w ⟨s, .operand a, t⟩ ⟨s, .operand b, t⟩
  | lead {s t : Nat} {op : LeadOp} : Alike C w ⟨s, .lead op, t⟩ ⟨s, .lead op, t⟩
  | join {s t : Nat} {op : BinaryOp} : Alike C w ⟨s, .join op, t⟩ ⟨s, .join op, t⟩
  | comma {s t : Nat} : Alike C w ⟨s, .comma, t⟩ ⟨s, .comma, t⟩

theorem Alike.mono {w' : σ × τ} (h : C.Grows w w') {p : Spanned (Part α)} {q : Spanned (Part β)} :
    Alike C w p q → Alike C w' p q
  | .operand hr => .operand (C.mono h hr)
  | .lead => .lead
  | .join => .join
  | .comma => .comma

abbrev AllAlike (C : Correspondence σ τ α β) (w : σ × τ) :
    List (Spanned (Part α)) → List (Spanned (Part β)) → Prop :=
  List.Forall₂ (Alike C w)

theorem AllAlike.mono {w' : σ × τ} (h : C.Grows w w') {ps : List (Spanned (Part α))}
    {qs : List (Spanned (Part β))} (hps : AllAlike C w ps qs) : AllAlike C w' ps qs :=
  hps.imp fun _ _ => Alike.mono h

end Correspondence

open Correspondence

/-- The operators of two algebras, and the operands that `Leaf` admits, correspond. -/
structure Simulates (C : Correspondence σ τ α β) (A : Algebra σ α) (B : Algebra τ β)
    (Leaf : ParseTree → Prop) (IsReciprocal : String → Prop) : Prop where
  number (w : σ × τ) (x : Float) : Leaf (.number x) → C.Agrees w (A.number x) (B.number x) C.Rel
  name (w : σ × τ) (n : String) : Leaf (.name n) → C.Agrees w (A.name n) (B.name n) C.Rel
  reciprocal (w : σ × τ) (f : String) (x : Float) (start : Nat) : IsReciprocal f →
    Leaf (.number (inverse x)) → C.Agrees w (A.number (inverse x)) (B.number x) fun w a b =>
      ∀ w', C.Grows w w' → ∃ c, B.call .inv f b start w'.2 = .ok (c, w'.2) ∧ C.Rel w' a c
  lead (w : σ × τ) (op : LeadOp) (a : α) (b : β) (start : Nat) : C.Rel w a b →
    C.Agrees w (A.lead op a start) (B.lead op b start) C.Rel
  join (w : σ × τ) (op : BinaryOp) (a a' : α) (b b' : β) (start : Nat) :
    C.Rel w a b → C.Rel w a' b' →
    C.Agrees w (A.join op a a' start) (B.join op b b' start) C.Rel
  call (w : σ × τ) (op : UnaryOp) (f : String) (a : α) (b : β) (start : Nat) :
    UnaryOp.ofFunctionName? f = some op → C.Rel w a b →
    C.Agrees w (A.call op f a start) (B.call op f b start) C.Rel
  callList (w : σ × τ) (op : ListOp) (f : String) (as : List α) (bs : List β) (start : Nat) :
    List.Forall₂ (C.Rel w) as bs → 3 ≤ as.length → op.takes as.length = true →
    C.Agrees w (A.callList op f as start) (B.callList op f bs start) C.Rel

namespace Reduction

variable {C : Correspondence σ τ α β} {A : Algebra σ α} {B : Algebra τ β} {Leaf : ParseTree → Prop}
  {IsReciprocal : String → Prop} (sim : Simulates C A B Leaf IsReciprocal)
include sim

theorem applyLeads_agrees : ∀ {ps : List (Spanned (Part α))} {qs : List (Spanned (Part β))}
    {w : σ × τ}, AllAlike C w ps qs →
      C.Agrees w (applyLeads A ps) (applyLeads B qs) (AllAlike C)
  | [], _, w, .nil => agrees_pure .nil
  | ⟨s, .lead op, t⟩ :: ps, _, w, .cons .lead h => by
    refine (applyLeads_agrees h).bind fun w' ps' qs' hg hps => ?_
    rcases hps with _ | @⟨_, _, _, _, hp, hafter⟩
    · exact agrees_fail
    · cases hp with
      | operand hr =>
        refine (sim.lead w' op _ _ s hr).bind fun w'' a b hg' hr' => agrees_pure ?_
        exact .cons (.operand hr') (AllAlike.mono hg' hafter)
      | lead | join | comma => exact agrees_fail
  | ⟨_, .operand _, _⟩ :: ps, _, w, .cons (.operand hr) h => by
    refine (applyLeads_agrees h).bind fun w' ps' qs' hg hps => agrees_pure ?_
    exact .cons (.operand (C.mono hg hr)) hps
  | ⟨_, .join _, _⟩ :: ps, _, w, .cons .join h => by
    exact (applyLeads_agrees h).bind fun w' ps' qs' _ hps => agrees_pure (.cons .join hps)
  | ⟨_, .comma, _⟩ :: ps, _, w, .cons .comma h => by
    exact (applyLeads_agrees h).bind fun w' ps' qs' _ hps => agrees_pure (.cons .comma hps)

theorem applyLevel_agrees {k : Nat} {passed rest : List (Spanned (Part α))} :
    ∀ {passed' rest' : List (Spanned (Part β))} {w : σ × τ}, AllAlike C w passed passed' →
      AllAlike C w rest rest' →
      C.Agrees w (applyLevel A k passed rest) (applyLevel B k passed' rest') (AllAlike C) := by
  fun_induction applyLevel A k passed rest with
  | case1 passed =>
    intro passed' _ w hpassed hrest
    cases hrest
    exact agrees_pure (List.forall₂_reverse_iff.2 hpassed)
  | case2 start op stop hop first a _ before _ b last after ih =>
    intro passed' _ w hpassed hrest
    rcases hpassed with _ | @⟨_, _, _, _, hp, hbefore⟩
    rcases hrest with _ | @⟨_, _, _, _, hj, _ | @⟨_, _, _, _, hq, hafter⟩⟩
    cases hp with
    | operand ha =>
      cases hj
      cases hq with
      | operand hb =>
        rw [applyLevel, if_pos hop]
        refine (sim.join w op a b _ _ start ha hb).bind fun w' c d hg hc => ?_
        exact ih c (.cons (.operand hc) (AllAlike.mono hg hbefore)) (AllAlike.mono hg hafter)
  | case3 passed start op stop rest hop hshape =>
    intro passed' _ w hpassed hrest
    rcases hrest with _ | @⟨_, _, _, _, hj, hrest⟩
    cases hj
    rw [applyLevel.eq_def B]
    simp only [if_pos hop]
    split
    · rcases hpassed with _ | @⟨_, _, _, _, hp, _⟩
      rcases hrest with _ | @⟨_, _, _, _, hq, _⟩
      cases hp
      cases hq
      exact absurd rfl (hshape _ _ _ _ _ _ _ _ rfl)
    · exact agrees_fail
  | case4 passed start op stop rest hop ih =>
    intro passed' _ w hpassed hrest
    rcases hrest with _ | @⟨_, _, _, _, hj, hrest⟩
    cases hj
    rw [applyLevel.eq_def B]
    simp only [if_neg hop]
    exact ih (.cons .join hpassed) hrest
  | case5 passed p rest hp ih =>
    intro passed' _ w hpassed hrest
    rcases hrest with _ | @⟨_, q, _, _, hpq, hrest⟩
    rw [applyLevel]
    · exact ih (.cons hpq hpassed) hrest
    · rintro start op stop rfl
      cases hpq
      exact hp _ _ _ rfl

theorem levels_agrees : ∀ (levels : List Nat) {ps : List (Spanned (Part α))}
    {qs : List (Spanned (Part β))} {w : σ × τ}, AllAlike C w ps qs →
      C.Agrees w (levels.foldlM (fun ps level => applyLevel A level [] ps) ps)
        (levels.foldlM (fun qs level => applyLevel B level [] qs) qs) (AllAlike C)
  | [], _, _, _, h => agrees_pure h
  | k :: levels, _, _, w, h => by
    rw [List.foldlM_cons, List.foldlM_cons]
    exact (applyLevel_agrees sim .nil h).bind fun _ _ _ _ h' => levels_agrees levels h'

theorem segment_agrees {start : Nat} {ps : List (Spanned (Part α))} {qs : List (Spanned (Part β))}
    {w : σ × τ} (h : AllAlike C w ps qs) :
    C.Agrees w (segment A start ps) (segment B start qs) C.Rel := by
  rcases h with _ | ⟨hp, h⟩
  · exact agrees_fail
  · refine (applyLeads_agrees sim (.cons hp h)).bind fun w' ps' qs' _ h' => ?_
    refine (levels_agrees sim levels h').bind fun w'' ps'' qs'' _ h'' => ?_
    rcases h'' with _ | @⟨_, _, _, _, hp', _ | @⟨_, _, _, _, hq', _⟩⟩
    · exact agrees_fail
    · cases hp' with
      | operand hr => exact agrees_pure hr
      | lead | join | comma => exact agrees_fail
    · cases hq' <;> cases hp' <;> exact agrees_fail

theorem segments_agrees : ∀ {ps run : List (Spanned (Part α))}
    {qs run' : List (Spanned (Part β))} {start : Nat} {w : σ × τ}, AllAlike C w run run' →
      AllAlike C w ps qs → C.Agrees w (segments A start run ps) (segments B start run' qs)
        fun w => List.Forall₂ (C.Rel w)
  | [], _, _, _, start, w, hrun, .nil => by
    refine (segment_agrees sim (List.forall₂_reverse_iff.2 hrun)).bind fun w' a b _ hr => ?_
    exact agrees_pure (.cons hr .nil)
  | ⟨s, .comma, t⟩ :: ps, _, _, _, start, w, hrun, .cons .comma h => by
    refine (segment_agrees sim (List.forall₂_reverse_iff.2 hrun)).bind fun w' a b hg hr => ?_
    refine (segments_agrees .nil (AllAlike.mono hg h)).bind fun w'' as bs hg' hrs => ?_
    exact agrees_pure (.cons (C.mono hg' hr) hrs)
  | ⟨s, .operand _, t⟩ :: ps, _, _, _, start, w, hrun, .cons (.operand hr) h => by
    simp only [segments]
    exact segments_agrees (.cons (.operand hr) hrun) h
  | ⟨s, .lead op, t⟩ :: ps, _, _, _, start, w, hrun, .cons .lead h => by
    simp only [segments]
    exact segments_agrees (.cons .lead hrun) h
  | ⟨s, .join op, t⟩ :: ps, _, _, _, start, w, hrun, .cons .join h => by
    simp only [segments]
    exact segments_agrees (.cons .join hrun) h

theorem bracket_agrees {callee : Option (Spanned String)} {start : Nat} {as : List α} {bs : List β}
    {w : σ × τ} (h : List.Forall₂ (C.Rel w) as bs) :
    C.Agrees w (bracket A callee start as) (bracket B callee start bs) C.Rel := by
  rcases h with
    _ | @⟨a, b, as, bs, ha, _ | @⟨a', b', as, bs, ha', _ | @⟨a'', b'', as, bs, ha'', h⟩⟩⟩
  · cases callee with
    | none => exact agrees_fail
    | some f =>
      have none_takes (op : ListOp) : op.takes 0 = false := by cases op <;> rfl
      simp only [bracket, List.length_nil, none_takes]
      split
      · exact agrees_fail
      · split <;> exact agrees_fail
  · cases callee with
    | none => exact agrees_pure ha
    | some f =>
      simp only [bracket]
      split
      · rename_i hop
        exact sim.call _ _ _ _ _ _ hop ha
      · exact agrees_fail
  · cases callee <;> exact agrees_fail
  · cases callee with
    | none => exact agrees_fail
    | some f =>
      have hlength := h.length_eq
      simp only [bracket, List.length_cons, hlength]
      split
      · exact agrees_fail
      · split
        · exact agrees_fail
        · split
          · rename_i htakes
            rw [← hlength] at htakes
            exact sim.callList _ _ _ _ _ _ (.cons ha (.cons ha' (.cons ha'' h))) (by simp) htakes
          · exact agrees_fail

/-- Frames that differ in what stood in front only, which is related. -/
def Framed (C : Correspondence σ τ α β) (w : σ × τ) (f : Frame α) (g : Frame β) : Prop :=
  f.callee = g.callee ∧ f.start = g.start ∧ AllAlike C w f.before g.before

omit sim in
theorem Framed.mono {w w' : σ × τ} (hg : C.Grows w w') {f : Frame α} {g : Frame β}
    (h : Framed C w f g) : Framed C w' f g :=
  ⟨h.1, h.2.1, AllAlike.mono hg h.2.2⟩

/-- Pieces that differ in operands only, except for reciprocals that the left has read already. -/
inductive Matches (C : Correspondence σ τ α β) (B : Algebra τ β) (w : σ × τ) :
    List (Spanned (Piece α)) → List (Spanned (Piece β)) → Prop
  | nil : Matches C B w [] []
  | part {s t : Nat} {p : Part α} {q : Part β} {ps : List (Spanned (Piece α))}
      {qs : List (Spanned (Piece β))} : Alike C w ⟨s, p, t⟩ ⟨s, q, t⟩ → Matches C B w ps qs →
      Matches C B w (⟨s, .part p, t⟩ :: ps) (⟨s, .part q, t⟩ :: qs)
  | opening {s t : Nat} {callee : Option (Spanned String)} {ps : List (Spanned (Piece α))}
      {qs : List (Spanned (Piece β))} : Matches C B w ps qs →
      Matches C B w (⟨s, .opening callee, t⟩ :: ps) (⟨s, .opening callee, t⟩ :: qs)
  | closing {s t : Nat} {ps : List (Spanned (Piece α))} {qs : List (Spanned (Piece β))} :
      Matches C B w ps qs → Matches C B w (⟨s, .closing, t⟩ :: ps) (⟨s, .closing, t⟩ :: qs)
  | reciprocal {s t u v s' t' : Nat} {f : Spanned String} {a : α} {b : β}
      {ps : List (Spanned (Piece α))} {qs : List (Spanned (Piece β))} :
      UnaryOp.ofFunctionName? f.value = some .inv →
      (∀ w', C.Grows w w' → ∃ c, B.call .inv f.value b s w'.2 = .ok (c, w'.2) ∧ C.Rel w' a c) →
      Matches C B w ps qs →
      Matches C B w (⟨f.start, .part (.operand a), t'⟩ :: ps)
        (⟨s, .opening (some f), t⟩ :: ⟨u, .part (.operand b), v⟩ :: ⟨s', .closing, t'⟩ :: qs)

omit sim in
theorem Matches.mono {w w' : σ × τ} (hg : C.Grows w w') : ∀ {ps : List (Spanned (Piece α))}
    {qs : List (Spanned (Piece β))}, Matches C B w ps qs → Matches C B w' ps qs
  | _, _, .nil => .nil
  | _, _, .part hp h => .part (hp.mono hg) (h.mono hg)
  | _, _, .opening h => .opening (h.mono hg)
  | _, _, .closing h => .closing (h.mono hg)
  | _, _, .reciprocal hf hc h =>
    .reciprocal hf (fun w'' hg' => hc w'' (C.trans hg hg')) (h.mono hg)

omit sim in
theorem matches_self {C : Correspondence σ τ α α} {B : Algebra τ α} {w : σ × τ} :
    ∀ {ps : List (Spanned (Piece α))},
      (∀ s a e, ⟨s, .part (.operand a), e⟩ ∈ ps → C.Rel w a a) → Matches C B w ps ps
  | [], _ => .nil
  | ⟨_, .part p, _⟩ :: ps, h => by
    have hrest : Matches C B w ps ps :=
      matches_self fun s a e hmem => h s a e (List.mem_cons_of_mem _ hmem)
    cases p with
    | operand a => exact .part (.operand (h _ a _ (List.mem_cons_self ..))) hrest
    | lead op => exact .part .lead hrest
    | join op => exact .part .join hrest
    | comma => exact .part .comma hrest
  | ⟨_, .opening _, _⟩ :: ps, h =>
    .opening (matches_self fun s a e hmem => h s a e (List.mem_cons_of_mem _ hmem))
  | ⟨_, .closing, _⟩ :: ps, h =>
    .closing (matches_self fun s a e hmem => h s a e (List.mem_cons_of_mem _ hmem))

omit sim in
/-- A call of one operand is made as soon as its bracket closes. -/
theorem reduce_call {f : Spanned String} {op : UnaryOp}
    (hf : UnaryOp.ofFunctionName? f.value = some op) (outer : List (Frame β))
    (inner : List (Spanned (Part β))) (b : β) (s t u v s' t' : Nat)
    (qs : List (Spanned (Piece β))) :
    reduce B outer inner (⟨s, .opening (some f), t⟩ :: ⟨u, .part (.operand b), v⟩ ::
        ⟨s', .closing, t'⟩ :: qs) =
      B.call op f.value b s >>= fun c =>
        reduce B outer (⟨f.start, .operand c, t'⟩ :: inner) qs := by
  simp [reduce, segments, segment, applyLeads, levels, applyLevel, bracket, hf, Frame.first]

theorem reduce_agrees {outer : List (Frame α)} {inner : List (Spanned (Part α))}
    {ps : List (Spanned (Piece α))} : ∀ {outer' : List (Frame β)} {inner' : List (Spanned (Part β))}
      {qs : List (Spanned (Piece β))} {w : σ × τ}, List.Forall₂ (Framed C w) outer outer' →
      AllAlike C w inner inner' → Matches C B w ps qs →
      C.Agrees w (reduce A outer inner ps) (reduce B outer' inner' qs) C.Rel := by
  fun_induction reduce A outer inner ps with
  | case1 =>
    intro outer' inner' qs w houter hinner hps
    cases houter
    cases hinner
    cases hps
    exact agrees_fail
  | case2 inner hne =>
    intro outer' inner' qs w houter hinner hps
    cases houter
    cases hps
    rcases hinner with _ | @⟨p, q, ps, qs, hp, hinner⟩
    · exact absurd rfl hne
    rw [reduce]
    · have hargs := List.forall₂_reverse_iff.2 (.cons hp hinner)
      refine (segments_agrees sim .nil hargs).bind fun w' as bs _ has => ?_
      rcases has with _ | @⟨_, _, _, _, ha, _ | ⟨_, _⟩⟩
      · exact agrees_fail
      · exact agrees_pure ha
      · exact agrees_fail
    · simp
  | case3 f outer inner =>
    intro outer' inner' qs w houter hinner hps
    rcases houter with _ | @⟨_, g, _, _, ⟨-, hstart, -⟩, houter⟩
    cases hps
    rw [reduce, ← hstart]
    exact agrees_fail
  | case4 outer inner start callee stop rest ih =>
    intro outer' inner' qs w houter hinner hps
    rcases hps with _ | _ | hps | _ | _
    rw [reduce]
    exact ih (.cons ⟨rfl, rfl, hinner⟩ houter) .nil hps
  | case5 inner start stop rest =>
    intro outer' inner' qs w houter hinner hps
    cases houter
    rcases hps with _ | _ | _ | hps | _
    rw [reduce]
    exact agrees_fail
  | case6 f outer inner start stop rest hne =>
    intro outer' inner' qs w houter hinner hps
    rcases houter with _ | @⟨_, g, _, _, ⟨-, hstart, -⟩, houter⟩
    rcases hps with _ | _ | _ | hps | _
    cases hinner with
    | nil =>
      rw [reduce, ← hstart]
      exact agrees_fail
    | cons => exact absurd hne (by simp)
  | case7 f outer inner start stop rest hne ih =>
    intro outer' inner' qs w houter hinner hps
    rcases houter with _ | @⟨_, g, _, _, ⟨hcallee, hstart, hbefore⟩, houter⟩
    rcases hps with _ | _ | _ | hps | _
    have hne' : ¬inner'.isEmpty = true := by
      cases hinner with
      | nil => exact hne
      | cons => simp
    have hfirst : f.first = g.first := by rw [Frame.first, Frame.first, hcallee, hstart]
    rw [reduce, if_neg hne', ← hcallee, ← hstart, ← hfirst]
    have hargs := List.forall₂_reverse_iff.2 hinner
    refine (segments_agrees sim .nil hargs).bind fun w' as bs hg has => ?_
    refine (bracket_agrees sim has).bind fun w'' a b hg' hr => ?_
    have hg'' := C.trans hg hg'
    have houter' := houter.imp fun _ _ h => Framed.mono hg'' h
    exact ih a houter' (.cons (.operand hr) (AllAlike.mono hg'' hbefore)) (hps.mono hg'')
  | case8 outer inner start p stop rest ih =>
    intro outer' inner' qs w houter hinner hps
    rcases hps with _ | ⟨hp, hps⟩ | _ | _ | @⟨s, t, u, v, s', t', f, a, b, _, qs, hf, hc, hps⟩
    · rw [reduce]
      exact ih houter (.cons hp hinner) hps
    · intro hw
      obtain ⟨c, hcall, hr⟩ := hc w (C.refl w)
      rw [reduce_call hf]
      show C.Outcome w C.Rel _ ((B.call .inv f.value b s w.2).bind fun r =>
        reduce B outer' (⟨f.start, .operand r.1, stop⟩ :: inner') qs r.2)
      rw [hcall]
      exact ih houter (.cons (.operand hr) hinner) hps hw

/-- The items on the right are those on the left, where some reciprocals of literals have been
replaced by their values. -/
inductive Expanded (IsReciprocal : String → Prop) : Items → Items → Prop
  | nil : Expanded IsReciprocal [] []
  | reciprocal {s t s' t' u v x y : Nat} {f : String} {z : Float} {xs ys : Items} : IsReciprocal f →
      Expanded IsReciprocal xs ys →
      Expanded IsReciprocal (⟨s, .name f, t⟩ :: ⟨s', .opening, t'⟩ :: ⟨u, .number z, v⟩ ::
        ⟨x, .closing, y⟩ :: xs) (⟨s, .number (inverse z), y⟩ :: ys)
  | call {s t s' t' : Nat} {f : String} {xs ys : Items} : Expanded IsReciprocal xs ys →
      Expanded IsReciprocal (⟨s, .name f, t⟩ :: ⟨s', .opening, t'⟩ :: xs)
        (⟨s, .name f, t⟩ :: ⟨s', .opening, t'⟩ :: ys)
  | item {i : Spanned Item} {xs ys : Items} :
      (∀ f s t zs, i.value = .name f → xs ≠ ⟨s, .opening, t⟩ :: zs ∧ ys ≠ ⟨s, .opening, t⟩ :: zs) →
      Expanded IsReciprocal xs ys → Expanded IsReciprocal (i :: xs) (i :: ys)

omit sim in
theorem Expanded.opening {xs ys zs : Items} {s t : Nat}
    (h : Expanded IsReciprocal xs ys) (hys : ys = ⟨s, .opening, t⟩ :: zs) :
    ∃ ws, xs = ⟨s, .opening, t⟩ :: ws ∧ Expanded IsReciprocal ws zs := by
  cases h with
  | nil | reciprocal | call => cases hys
  | item _ h =>
    cases hys
    exact ⟨_, rfl, h⟩

omit sim in
theorem expanded_expandReciprocals (xs : Items) :
    Expanded (fun f => Item.isReciprocal f = true) xs (Item.expandReciprocals xs) := by
  fun_induction Item.expandReciprocals xs with
  | case1 _ f _ _ _ _ _ _ _ _ _ hf ih => exact .reciprocal hf ih
  | case2 _ f _ _ _ _ _ _ _ _ _ _ ih => exact .call (.item nofun (.item nofun ih))
  | case3 i rest hshape ih =>
    by_cases hcall : ∃ f s t zs, i.value = .name f ∧ rest = ⟨s, .opening, t⟩ :: zs
    · obtain ⟨f, s, t, zs, hi, rfl⟩ := hcall
      obtain ⟨start, value, stop⟩ := i
      subst hi
      have hopen : Item.expandReciprocals (⟨s, .opening, t⟩ :: zs) =
          ⟨s, .opening, t⟩ :: Item.expandReciprocals zs := by
        rw [Item.expandReciprocals]
        nofun
      obtain ⟨ws, hws, h⟩ := ih.opening hopen
      cases hws
      rw [hopen]
      exact .call h
    · refine .item (fun f s t zs hi => ⟨fun h => hcall ⟨f, s, t, zs, hi, h⟩, fun h => ?_⟩) ih
      obtain ⟨ws, hrest, -⟩ := ih.opening h
      exact hcall ⟨f, s, t, ws, hi, hrest⟩
  | case4 => exact .nil

omit sim in
/-- No reciprocal has to be replaced. -/
theorem expanded_self (xs : Items) : Expanded IsReciprocal xs xs := by
  fun_induction spell xs with
  | case1 => exact .nil
  | case2 start f stop openStart openStop rest ih => exact .call ih
  | case3 start item stop rest hname ih =>
    have hshape : ∀ f s t zs, item = .name f → rest ≠ ⟨s, .opening, t⟩ :: zs :=
      fun f s t zs hitem hrest => hname f s t zs hrest hitem
    exact .item (fun f s t zs hf => ⟨hshape f s t zs hf, hshape f s t zs hf⟩) ih

omit sim in
theorem inv_of_isReciprocal {f : String} (h : Item.isReciprocal f = true) :
    UnaryOp.ofFunctionName? f = some .inv := by
  have capitals_inv : capitals "INV" = "INV" := by decide
  have capitals_dot : capitals ".INV" = ".INV" := by decide
  simp only [Item.isReciprocal, sameLetters, capitals_inv, capitals_dot, Bool.or_eq_true,
    beq_iff_eq] at h
  rcases h with h | h <;> rw [UnaryOp.ofFunctionName?, h] <;> rfl

theorem pieces_agrees (inv : ∀ f, IsReciprocal f → UnaryOp.ofFunctionName? f = some .inv)
    {xs ys : Items} (h : Expanded IsReciprocal xs ys) (w : σ × τ) :
    (∀ a ∈ leaves ys, Leaf a) → C.Agrees w (pieces A ys) (pieces B xs) (Matches C B) := by
  induction h generalizing w with
  | nil => exact fun _ => agrees_pure .nil
  | @reciprocal s t s' t' u v x y f z xs ys hf h ih =>
    intro hleaf
    simp only [leaves, List.mem_cons, forall_eq_or_imp] at hleaf
    simp only [pieces, bind_map_left, pure_bind, bind_assoc]
    refine (sim.reciprocal w f z s' hf hleaf.1).bind fun w₁ a b _ hr => ?_
    refine (ih w₁ hleaf.2).bind fun w₂ ps qs hg hps => agrees_pure ?_
    exact .reciprocal (f := ⟨s, f, t⟩) (inv f hf) (fun w₃ hg' => hr w₃ (C.trans hg hg')) hps
  | call h ih =>
    intro hleaf
    simp only [pieces]
    exact (ih w hleaf).bind fun w' ps qs _ hps => agrees_pure (.opening hps)
  | @item i xs ys hi h ih =>
    intro hleaf
    obtain ⟨s, i, t⟩ := i
    cases i with
    | number x =>
      simp only [leaves, List.mem_cons, forall_eq_or_imp] at hleaf
      simp only [pieces, bind_map_left]
      refine (sim.number w x hleaf.1).bind fun w₁ a b _ hr => ?_
      refine (ih w₁ hleaf.2).bind fun w₂ ps qs hg hps => agrees_pure ?_
      exact .part (.operand (C.mono hg hr)) hps
    | name n =>
      rw [leaves, List.forall_mem_cons] at hleaf
      · rw [pieces, pieces]
        · simp only [bind_map_left]
          refine (sim.name w n hleaf.1).bind fun w₁ a b _ hr => ?_
          refine (ih w₁ hleaf.2).bind fun w₂ ps qs hg hps => agrees_pure ?_
          exact .part (.operand (C.mono hg hr)) hps
        · intro f u v zs hzs hf
          exact (hi f u v zs hf).1 hzs
        · intro f u v zs hzs hf
          exact (hi f u v zs hf).2 hzs
      · intro u v zs hzs
        exact (hi n u v zs rfl).2 hzs
    | lead op | join op | comma | opening | closing =>
      simp only [leaves] at hleaf
      simp only [pieces, pure_bind]
      refine (ih w hleaf).bind fun w' ps qs _ hps => agrees_pure ?_
      first
        | exact .part .lead hps
        | exact .part .join hps
        | exact .part .comma hps
        | exact .opening hps
        | exact .closing hps

/-- Whole reductions agree where their operators do. -/
theorem run_agrees (inv : ∀ f, IsReciprocal f → UnaryOp.ofFunctionName? f = some .inv)
    {xs ys : Items} (w : σ × τ) (h : Expanded IsReciprocal xs ys)
    (hleaf : ∀ a ∈ leaves ys, Leaf a) :
    C.Agrees w (run A ys) (run B xs) C.Rel :=
  (pieces_agrees sim inv h w hleaf).bind fun _ _ _ _ hps => reduce_agrees sim .nil .nil hps

end Reduction

end Behavioral
