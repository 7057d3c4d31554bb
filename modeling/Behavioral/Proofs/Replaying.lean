import Behavioral.Proofs.Enclosing
import Behavioral.Proofs.Interning

/-!
# Reducing again

What a reduction has assembled is found again: at a table that has grown past it, the same reduction
leads to the same atom and leaves the table as it is, wherever its items stand (`reduce_replays`).
Interning finds the first atom of a content, which stays the first however the table grows
(`intern_again`), and an operator reads nothing of a table but its operands.
-/

namespace Behavioral

open AtomTable Assembly Reduction

variable {fold : Bool} {t t' u : AtomTable} {a b c id : AtomId} {atom : Atom} {start start' : Nat}
  {α β γ δ ε : Type}

/-! ### Interning again -/

namespace AtomTable

theorem getElem_atoms (hid : id < t.size) : t.get id = t.atoms[id] := by
  rw [get, Array.getElem?_eq_getElem hid]
  rfl

theorem intern_of_first (hid : id < u.size) (hsame : (u.get id).sameContent atom = true)
    (hfirst : ∀ j < id, (u.get j).sameContent atom = false) : u.intern atom = .ok (id, u) := by
  have hfind : u.atoms.findIdx? (·.sameContent atom) = some id := by
    refine Array.findIdx?_eq_some_iff_getElem.2 ⟨hid, ?_, fun j hj hsame' => ?_⟩
    · rwa [← getElem_atoms hid]
    · have hother := hfirst j hj
      rw [getElem_atoms (hj.trans hid)] at hother
      exact Bool.eq_false_iff.1 hother hsame'
  rw [intern, hfind]

/-- The first atom of a content stays the first. -/
theorem intern_again (hatom : atom ≠ .sentinel) (h : t.intern atom = .ok (id, t')) :
    Extends t t' ∧ ∀ u, Extends t' u → u.intern atom = .ok (id, u) := by
  have found (hext : Extends t t') (hid : id < t'.size)
      (hsame : (t'.get id).sameContent atom = true)
      (hfirst : ∀ j < id, (t'.get j).sameContent atom = false) :
      Extends t t' ∧ ∀ u, Extends t' u → u.intern atom = .ok (id, u) := by
    refine ⟨hext, fun u hu => intern_of_first (hid.trans_le hu.size) ?_ fun j hj => ?_⟩
    · rwa [hu.get id hid]
    · rw [hu.get j (hj.trans hid), hfirst j hj]
  unfold intern at h
  split at h
  · rename_i i hfind
    cases h
    obtain ⟨hid, hsame, hfirst⟩ := Array.findIdx?_eq_some_iff_getElem.1 hfind
    refine found (.refl _) hid (by rwa [getElem_atoms hid]) fun j hj => ?_
    rw [getElem_atoms (hj.trans hid)]
    exact Bool.eq_false_iff.2 (hfirst j hj)
  · rename_i hfind
    split at h
    · cases h
      refine found extends_push (size_push ▸ Nat.lt_succ_self _) ?_ fun j hj => ?_
      · rw [get_push_size, Atom.sameContent_self hatom]
      · rw [get_push_lt hj, getElem_atoms hj]
        exact Array.findIdx?_eq_none_iff.1 hfind _ (Array.getElem_mem hj)
    · cases h

end AtomTable

/-! ### Operators again -/

/-- Where `x` adds an atom, `y` adds the same one, and finds it in every larger table. -/
def Again (t : AtomTable) (x y : Build AtomTable AtomId) : Prop :=
  ∀ a t', x t = .ok (a, t') → Extends t t' ∧ y t = .ok (a, t') ∧
    ∀ u, Extends t' u → y u = .ok (a, u)

namespace Again

variable {x y z : Build AtomTable AtomId}

theorem pure (t : AtomTable) (a : AtomId) : Again t (pure a) (pure a) := by
  intro b t' h
  cases h
  exact ⟨.refl t, rfl, fun _ _ => rfl⟩

theorem error {f : Fault} (h : x t = .error f) : Again t x y := by
  intro a t' hx
  rw [h] at hx
  cases hx

/-- It is enough to know what the steps do at the table and at larger ones. -/
theorem of_eq (hx : x t = z t) (hy : ∀ u, Extends t u → y u = z u) (h : Again t z z) :
    Again t x y := by
  intro a t' hok
  obtain ⟨hext, hsame, hagain⟩ := h a t' (hx.symm.trans hok)
  exact ⟨hext, (hy t (.refl t)).trans hsame, fun u hu => (hy u (hext.trans hu)).trans (hagain u hu)⟩

theorem addAtom (hatom : atom ≠ .sentinel) : Again t (addAtom atom) (addAtom atom) := by
  intro a t' h
  obtain ⟨hext, hagain⟩ := intern_again hatom h
  exact ⟨hext, h, hagain⟩

/-- The second step follows where the first has come to an end. -/
theorem bind {f g : AtomId → Build AtomTable AtomId} (hx : Again t x y)
    (hf : ∀ a t', Extends t t' → Again t' (f a) (g a)) : Again t (x >>= f) (y >>= g) := by
  intro b t'' h
  obtain ⟨a, t', ha, hb⟩ := build_bind_eq_ok.1 h
  obtain ⟨hext, hsame, hagain⟩ := hx a t' ha
  obtain ⟨hext', hsame', hagain'⟩ := hf a t' hext b t'' hb
  refine ⟨hext.trans hext', build_bind_eq_ok.2 ⟨a, t', hsame, hsame'⟩, fun u hu => ?_⟩
  exact build_bind_eq_ok.2 ⟨a, u, hagain u (hext'.trans hu), hagain' u hu⟩

end Again

namespace Assembly

theorem unary_again (ha : a < t.size) (op : UnaryOp) (isBoolean : Bool) :
    Again t (applyOp fold (.unary op) a none isBoolean)
      (applyOp fold (.unary op) a none isBoolean) := by
  refine .of_eq (applyOp_unary op a isBoolean t) (fun u hu => ?_) (.addAtom nofun)
  rw [applyOp_unary, hu.get a ha]
  rfl

theorem binary_again (ha : a < t.size) (hb : b < t.size) (op : BinaryOp) (isBoolean : Bool) :
    Again t (applyOp fold (.binary op) a (some b) isBoolean)
      (applyOp fold (.binary op) a (some b) isBoolean) := by
  refine .of_eq (applyOp_binary op a b isBoolean t) (fun u hu => ?_) (.addAtom nofun)
  rw [applyOp_binary, hu.get a ha, hu.get b hb]
  rfl

theorem lead_again (ha : a < t.size) (op : LeadOp) :
    Again t (applyLead fold op a start) (applyLead fold op a start') := by
  by_cases hkind : (t.get a).isBoolean = decide (op.unary = .not)
  · cases hinner : operandOf? op.unary (t.get a) with
    | some inner =>
      have hrun (start : Nat) (u : AtomTable) (hu : Extends t u) :
          applyLead fold op a start u = .ok (inner, u) := by
        simp only [applyLead_eq, hu.get a ha, if_pos hkind, hinner]
        rfl
      exact .of_eq (hrun start t (.refl t)) (hrun start') (.pure t inner)
    | none =>
      have hrun (start : Nat) (u : AtomTable) (hu : Extends t u) : applyLead fold op a start u =
          applyOp fold (.unary op.unary) a none (decide (op.unary = .not)) u := by
        simp only [applyLead_eq, hu.get a ha, if_pos hkind, hinner]
      exact .of_eq (hrun start t (.refl t)) (hrun start') (unary_again ha op.unary _)
  · exact .error (by rw [applyLead_eq, if_neg hkind])

theorem join_again (ha : a < t.size) (hb : b < t.size) (op : BinaryOp) :
    Again t (applyJoin fold op a b start) (applyJoin fold op a b start') := by
  cases hfits : typeFault? op (t.get a).isBoolean (t.get b).isBoolean start with
  | some fault => exact .error (by rw [applyJoin_eq, hfits])
  | none =>
    have hrun (start : Nat) (u : AtomTable) (hu : Extends t u) : applyJoin fold op a b start u =
        if op = .pow ∧ (t.get b).constant? = some 2 then
          applyOp fold (.unary .square) a none false u
        else if op = .div ∧ (t.get b).constant?.any (· == 0) = true then
          .error (.arithmetic (.divisionByZero start))
        else applyOp fold (.binary op) a (some b) op.isBoolean u := by
      have hfits' := (ParseTree.typeFault?_eq_none start).2
        ((ParseTree.typeFault?_eq_none _).1 hfits)
      rw [applyJoin_eq, hu.get a ha, hu.get b hb, hfits']
    by_cases hpow : op = .pow ∧ (t.get b).constant? = some 2
    · simp only [if_pos hpow] at hrun
      exact .of_eq (hrun start t (.refl t)) (hrun start') (unary_again ha .square false)
    · simp only [if_neg hpow] at hrun
      by_cases hdiv : op = .div ∧ (t.get b).constant?.any (· == 0) = true
      · exact .error (by rw [hrun start t (.refl t), if_pos hdiv])
      · simp only [if_neg hdiv] at hrun
        exact .of_eq (hrun start t (.refl t)) (hrun start') (binary_again ha hb op _)

theorem call_again (ha : a < t.size) (op : UnaryOp) (name name' : String) :
    Again t (applyCall fold op name a start) (applyCall fold op name' a start') := by
  cases hkind : (t.get a).isBoolean with
  | true => exact .error (by rw [applyCall_eq, if_pos hkind])
  | false =>
    have hrun (name : String) (start : Nat) (u : AtomTable) (hu : Extends t u) :
        applyCall fold op name a start u = applyOp fold (.unary op) a none false u := by
      rw [applyCall_eq, hu.get a ha, if_neg (Bool.eq_false_iff.1 hkind)]
    exact .of_eq (hrun name start t (.refl t)) (hrun name' start') (unary_again ha op false)

theorem chain_again : ∀ (as : List AtomId) {t : AtomTable}, Again t (addChain as) (addChain as)
  | [], t => .pure t 0
  | [last], t => .pure t last
  | _ :: b :: as, _ => (chain_again (b :: as)).bind fun _ _ _ => .addAtom nofun

theorem list_again {as : List AtomId} (has : ∀ a ∈ as, a < t.size) (op : ListOp)
    (name name' : String) :
    Again t (applyList op name as start) (applyList op name' as start') := by
  have hkinds (u : AtomTable) (hu : Extends t u) :
      (as.any fun a => (u.get a).isBoolean) = as.any fun a => (t.get a).isBoolean := by
    rw [Bool.eq_iff_iff, List.any_eq_true, List.any_eq_true]
    exact exists_congr fun a => and_congr_right fun ha => by rw [hu.get a (has a ha)]
  cases as with
  | nil => exact .pure t 0
  | cons first rest =>
    cases hkind : (first :: rest).any fun a => (t.get a).isBoolean with
    | true => exact .error (by rw [applyList_cons, if_pos hkind])
    | false =>
      have hrun (name : String) (start : Nat) (u : AtomTable) (hu : Extends t u) :
          applyList op name (first :: rest) start u = (addChain rest >>= fun tail =>
            addAtom (.apply (.list op) first (some tail) none false)) u := by
        rw [applyList_cons, hkinds u hu, if_neg (Bool.eq_false_iff.1 hkind)]
        rfl
      refine .of_eq (hrun name start t (.refl t)) (hrun name' start') ?_
      exact (chain_again rest).bind fun _ _ _ => .addAtom nofun

end Assembly

/-! ### Reductions again -/

/-- Where `x` comes to an end, `y` goes on as `k` does with what `R` relates to the result of `x`,
and does so from every larger table, which it has left as it is. -/
def Replays (fold : Bool) (t : AtomTable) (x : Build AtomTable α) (y : Build AtomTable γ)
    (R : AtomTable → α → β → Prop) (k : β → Build AtomTable γ) : Prop :=
  Assembled fold t → ∀ a t', x t = .ok (a, t') → Extends t t' ∧ Assembled fold t' ∧
    ∃ b, R t' a b ∧ y t = k b t' ∧ ∀ u, Extends t' u → y u = k b u

/-- The same atom, which may be an operand. -/
def Same (t : AtomTable) (a b : AtomId) : Prop :=
  a = b ∧ t.IsOperand t.size a

theorem Same.mono (hext : Extends t t') (h : Same t a b) : Same t' a b :=
  ⟨h.1, h.2.mono hext le_rfl hext.size⟩

namespace Replays

variable {x : Build AtomTable α} {y : Build AtomTable γ} {R : AtomTable → α → β → Prop}
  {k : β → Build AtomTable γ}

theorem done {a : α} {b : β} (h : R t a b) : Replays fold t (pure a) (k b) R k := by
  intro ht a' t' hx
  cases hx
  exact ⟨.refl t, ht, b, h, rfl, fun _ _ => rfl⟩

theorem pure {a : α} {b : β} (h : R t a b) :
    Replays fold t (Pure.pure a) (Pure.pure b) R Pure.pure :=
  done h

theorem fail {f : SyntaxFault} : Replays fold t (Reduction.fail f) y R k :=
  nofun

theorem bind {y : Build AtomTable β} {f : α → Build AtomTable δ} {g : β → Build AtomTable γ}
    {S : AtomTable → δ → ε → Prop} {k : ε → Build AtomTable γ}
    (hx : Replays fold t x y R Pure.pure)
    (hf : ∀ t' a b, Extends t t' → R t' a b → Replays fold t' (f a) (g b) S k) :
    Replays fold t (x >>= f) (y >>= g) S k := by
  intro ht c t'' h
  obtain ⟨a, t', ha, hc⟩ := build_bind_eq_ok.1 h
  obtain ⟨hext, ht', b, hab, hy, hagain⟩ := hx ht a t' ha
  obtain ⟨hext', ht'', d, hcd, hg, hagain'⟩ := hf t' a b hext hab ht' c t'' hc
  have hrun {u u' : AtomTable} (hyu : y u = .ok (b, u')) : (y >>= g) u = g b u' := by
    show (y u).bind _ = _
    rw [hyu]
    rfl
  refine ⟨hext.trans hext', ht'', d, hcd, (hrun hy).trans hg, fun u hu => ?_⟩
  exact (hrun (hagain u (hext'.trans hu))).trans (hagain' u hu)

theorem of_again {x y : Build AtomTable AtomId} (h : Again t x y)
    (hkeeps : Assembled fold t → AtomTable.Keeps fold t (x t)) :
    Replays fold t x y Same Pure.pure := by
  intro ht a t' hx
  obtain ⟨hext, ht', ha⟩ := hkeeps ht a t' hx
  obtain ⟨-, hsame, hagain⟩ := h a t' hx
  exact ⟨hext, ht', a, ⟨rfl, ha⟩, hsame, hagain⟩

end Replays

namespace Reduction

/-- The same part with an operand of the table, perhaps somewhere else. -/
inductive Twin (t : AtomTable) : Spanned (Part AtomId) → Spanned (Part AtomId) → Prop
  | operand {s e s' e' : Nat} {a : AtomId} : t.IsOperand t.size a →
      Twin t ⟨s, .operand a, e⟩ ⟨s', .operand a, e'⟩
  | lead {s e s' e' : Nat} {op : LeadOp} : Twin t ⟨s, .lead op, e⟩ ⟨s', .lead op, e'⟩
  | join {s e s' e' : Nat} {op : BinaryOp} : Twin t ⟨s, .join op, e⟩ ⟨s', .join op, e'⟩
  | comma {s e s' e' : Nat} : Twin t ⟨s, .comma, e⟩ ⟨s', .comma, e'⟩

abbrev Twins (t : AtomTable) : List (Spanned (Part AtomId)) → List (Spanned (Part AtomId)) → Prop :=
  List.Forall₂ (Twin t)

theorem Twin.mono (hext : Extends t t') {p q : Spanned (Part AtomId)} : Twin t p q → Twin t' p q
  | .operand ha => .operand (ha.mono hext le_rfl hext.size)
  | .lead => .lead
  | .join => .join
  | .comma => .comma

theorem Twins.mono (hext : Extends t t') {ps qs : List (Spanned (Part AtomId))}
    (h : Twins t ps qs) : Twins t' ps qs :=
  h.imp fun _ _ => Twin.mono hext

theorem applyLeads_replays : ∀ {ps qs : List (Spanned (Part AtomId))} {t : AtomTable},
    Twins t ps qs →
      Replays fold t (applyLeads (algebra fold) ps) (applyLeads (algebra fold) qs) Twins pure
  | [], _, _, .nil => .pure .nil
  | ⟨s, .lead op, e⟩ :: ps, _, t, .cons .lead h => by
    refine (applyLeads_replays h).bind fun t' ps' qs' hext hps => ?_
    obtain _ | ⟨_ | _ | _ | _, hafter⟩ := hps
    · exact .fail
    · rename_i a ha
      refine (Replays.of_again (lead_again ha.within.2 op) fun ht => keeps_lead ht ha op s).bind ?_
      rintro t'' b _ hext' ⟨rfl, hb⟩
      exact .pure (.cons (.operand hb) (Twins.mono hext' hafter))
    all_goals exact .fail
  | ⟨_, .operand _, _⟩ :: ps, _, t, .cons (.operand ha) h =>
    (applyLeads_replays h).bind fun t' ps' qs' hext hps =>
      .pure (.cons (.operand (ha.mono hext le_rfl hext.size)) hps)
  | ⟨_, .join _, _⟩ :: ps, _, t, .cons .join h =>
    (applyLeads_replays h).bind fun t' ps' qs' hext hps => .pure (.cons .join hps)
  | ⟨_, .comma, _⟩ :: ps, _, t, .cons .comma h =>
    (applyLeads_replays h).bind fun t' ps' qs' hext hps => .pure (.cons .comma hps)

theorem applyLevel_replays {level : Nat} {passed rest : List (Spanned (Part AtomId))} :
    ∀ {passed' rest' : List (Spanned (Part AtomId))} {t : AtomTable}, Twins t passed passed' →
      Twins t rest rest' → Replays fold t (applyLevel (algebra fold) level passed rest)
        (applyLevel (algebra fold) level passed' rest') Twins pure := by
  fun_induction applyLevel (algebra fold) level passed rest with
  | case1 passed =>
    intro passed' _ t hpassed hrest
    cases hrest
    exact .pure (List.forall₂_reverse_iff.2 hpassed)
  | case2 start op stop hop first a _ before _ b last after ih =>
    intro passed' _ t hpassed hrest
    obtain _ | @⟨_, _, _, _, hp, hbefore⟩ := hpassed
    obtain _ | @⟨_, _, _, _, hj, _ | @⟨_, _, _, _, hq, hafter⟩⟩ := hrest
    cases hp with
    | operand ha =>
      cases hj
      cases hq with
      | operand hb =>
        rw [applyLevel, if_pos hop]
        refine (Replays.of_again (join_again ha.within.2 hb.within.2 op) fun ht =>
          keeps_join ht ha hb op start).bind ?_
        rintro t' c _ hext ⟨rfl, hc⟩
        exact ih c (.cons (.operand hc) (Twins.mono hext hbefore)) (Twins.mono hext hafter)
  | case3 passed start op stop rest hop hshape => exact fun _ _ => .fail
  | case4 passed start op stop rest hop ih =>
    intro passed' _ t hpassed hrest
    obtain _ | @⟨_, _, _, _, hj, hrest⟩ := hrest
    cases hj
    rw [applyLevel.eq_def _ _ passed']
    simp only [if_neg hop]
    exact ih (.cons .join hpassed) hrest
  | case5 passed p rest hp ih =>
    intro passed' _ t hpassed hrest
    obtain _ | @⟨_, q, _, _, hpq, hrest⟩ := hrest
    rw [applyLevel.eq_def _ _ passed']
    cases hpq
    case join => exact absurd rfl (hp _ _ _)
    all_goals exact ih (.cons (by constructor <;> assumption) hpassed) hrest

theorem levels_replays : ∀ (levels : List Nat) {ps qs : List (Spanned (Part AtomId))}
    {t : AtomTable}, Twins t ps qs →
      Replays fold t (levels.foldlM (fun ps level => applyLevel (algebra fold) level [] ps) ps)
        (levels.foldlM (fun qs level => applyLevel (algebra fold) level [] qs) qs) Twins pure
  | [], _, _, _, h => .pure h
  | _ :: levels, _, _, _, h => by
    rw [List.foldlM_cons, List.foldlM_cons]
    exact (applyLevel_replays .nil h).bind fun _ _ _ _ h' => levels_replays levels h'

theorem segment_replays {start' : Nat} {ps qs : List (Spanned (Part AtomId))} (h : Twins t ps qs) :
    Replays fold t (segment (algebra fold) start ps) (segment (algebra fold) start' qs) Same
      pure := by
  obtain _ | ⟨hp, h⟩ := h
  · exact .fail
  · refine (applyLeads_replays (.cons hp h)).bind fun t' ps' qs' _ h' => ?_
    refine (levels_replays levels h').bind fun t'' ps'' qs'' _ h'' => ?_
    obtain _ | @⟨_, _, _, _, hp', _ | @⟨_, _, _, _, hq', _⟩⟩ := h''
    · exact .fail
    · cases hp' with
      | operand ha => exact .pure ⟨rfl, ha⟩
      | lead | join | comma => exact .fail
    · cases hq' <;> cases hp' <;> exact .fail

abbrev Sames (t : AtomTable) : List AtomId → List AtomId → Prop :=
  List.Forall₂ (Same t)

theorem Sames.eq {as bs : List AtomId} (h : Sames t as bs) :
    as = bs ∧ ∀ a ∈ as, t.IsOperand t.size a := by
  induction h with
  | nil => exact ⟨rfl, nofun⟩
  | cons ha _ ih => exact ⟨by rw [ha.1, ih.1], List.forall_mem_cons.2 ⟨ha.2, ih.2⟩⟩

theorem segments_replays : ∀ {ps run qs run' : List (Spanned (Part AtomId))} {start start' : Nat}
    {t : AtomTable}, Twins t run run' → Twins t ps qs →
      Replays fold t (segments (algebra fold) start run ps) (segments (algebra fold) start' run' qs)
        Sames pure
  | [], _, _, _, start, start', t, hrun, .nil =>
    (segment_replays (List.forall₂_reverse_iff.2 hrun)).bind fun _ _ _ _ ha =>
      .pure (.cons ha .nil)
  | ⟨_, .comma, _⟩ :: ps, _, _, _, start, start', t, hrun, .cons .comma h => by
    refine (segment_replays (List.forall₂_reverse_iff.2 hrun)).bind fun t' a b hext ha => ?_
    refine (segments_replays .nil (Twins.mono hext h)).bind fun t'' as bs hext' has => ?_
    exact .pure (.cons (ha.mono hext') has)
  | ⟨_, .operand _, _⟩ :: ps, _, _, _, start, start', t, hrun, .cons (.operand ha) h => by
    simp only [segments]
    exact segments_replays (.cons (.operand ha) hrun) h
  | ⟨_, .lead _, _⟩ :: ps, _, _, _, start, start', t, hrun, .cons .lead h => by
    simp only [segments]
    exact segments_replays (.cons .lead hrun) h
  | ⟨_, .join _, _⟩ :: ps, _, _, _, start, start', t, hrun, .cons .join h => by
    simp only [segments]
    exact segments_replays (.cons .join hrun) h

/-- The same function is called, if any. -/
def SameCallee (callee callee' : Option (Spanned String)) : Prop :=
  callee.map (·.value) = callee'.map (·.value)

theorem bracket_replays {callee callee' : Option (Spanned String)} {as bs : List AtomId}
    (hcallee : SameCallee callee callee') (h : Sames t as bs) :
    Replays fold t (bracket (algebra fold) callee start as)
      (bracket (algebra fold) callee' start' bs) Same pure := by
  obtain ⟨rfl, has⟩ := h.eq
  cases callee with
  | none =>
    obtain rfl : callee' = none := by simpa [SameCallee] using hcallee.symm
    rcases as with _ | ⟨a, _ | ⟨b, as⟩⟩
    · exact .fail
    · exact .pure ⟨rfl, has a List.mem_cons_self⟩
    · exact .fail
  | some f =>
    obtain ⟨f', rfl, hf⟩ : ∃ f', callee' = some f' ∧ f'.value = f.value := by
      simpa [SameCallee] using hcallee.symm
    rcases as with _ | ⟨a, _ | ⟨b, _ | ⟨c, as⟩⟩⟩
    · have none_takes (op : ListOp) : op.takes 0 = false := by cases op <;> rfl
      simp only [bracket, List.length_nil, none_takes]
      split
      · exact .fail
      · split <;> exact .fail
    · simp only [bracket, hf]
      split
      · rename_i op hop
        exact .of_again (call_again (has a List.mem_cons_self).within.2 op _ _)
          fun ht => keeps_call ht (has a List.mem_cons_self) hop start
      · exact .fail
    · exact .fail
    · simp only [bracket, List.length_cons, hf]
      split
      · exact .fail
      · split
        · exact .fail
        · split
          · rename_i htakes
            exact .of_again (list_again (fun x hx => (has x hx).within.2) _ _ _)
              fun ht => keeps_list ht has (by simp) htakes _ start
          · exact .fail

/-- The same piece, perhaps somewhere else. -/
inductive PieceTwin (t : AtomTable) : Spanned (Piece AtomId) → Spanned (Piece AtomId) → Prop
  | part {s e s' e' : Nat} {p q : Part AtomId} : Twin t ⟨s, p, e⟩ ⟨s', q, e'⟩ →
      PieceTwin t ⟨s, .part p, e⟩ ⟨s', .part q, e'⟩
  | opening {s e s' e' : Nat} {callee callee' : Option (Spanned String)} :
      SameCallee callee callee' → PieceTwin t ⟨s, .opening callee, e⟩ ⟨s', .opening callee', e'⟩
  | closing {s e s' e' : Nat} : PieceTwin t ⟨s, .closing, e⟩ ⟨s', .closing, e'⟩

abbrev PieceTwins (t : AtomTable) :
    List (Spanned (Piece AtomId)) → List (Spanned (Piece AtomId)) → Prop :=
  List.Forall₂ (PieceTwin t)

theorem PieceTwins.mono (hext : Extends t t') {ps qs : List (Spanned (Piece AtomId))}
    (h : PieceTwins t ps qs) : PieceTwins t' ps qs := by
  refine h.imp fun p q hpq => ?_
  cases hpq with
  | part hpq => exact .part (hpq.mono hext)
  | opening hcallee => exact .opening hcallee
  | closing => exact .closing

/-- The same open bracket, perhaps somewhere else. -/
def FrameTwin (t : AtomTable) (f g : Frame AtomId) : Prop :=
  SameCallee f.callee g.callee ∧ Twins t f.before g.before

theorem FrameTwin.mono (hext : Extends t t') {f g : Frame AtomId} (h : FrameTwin t f g) :
    FrameTwin t' f g :=
  ⟨h.1, Twins.mono hext h.2⟩

/-- A reduction happens again inside of a bracket, which becomes its operand. -/
theorem reduce_replays {f : Frame AtomId} {outer : List (Frame AtomId)} {s e : Nat}
    {rest : List (Spanned (Piece AtomId))} (hcallee : f.callee = none)
    {fs : List (Frame AtomId)} {inner : List (Spanned (Part AtomId))}
    {ps : List (Spanned (Piece AtomId))} : ∀ {gs : List (Frame AtomId)}
      {inner' : List (Spanned (Part AtomId))} {qs : List (Spanned (Piece AtomId))} {t : AtomTable},
      List.Forall₂ (FrameTwin t) fs gs → Twins t inner inner' → PieceTwins t ps qs →
      Replays fold t (reduce (algebra fold) fs inner ps)
        (reduce (algebra fold) (gs ++ f :: outer) inner' (qs ++ ⟨s, .closing, e⟩ :: rest)) Same
        fun a => reduce (algebra fold) outer (⟨f.first, .operand a, e⟩ :: f.before) rest := by
  fun_induction reduce (algebra fold) fs inner ps with
  | case1 => exact fun _ _ _ => .fail
  | case2 inner hne =>
    intro gs inner' qs t hfs hinner hps
    cases hfs
    cases hps
    have hne' : inner' ≠ [] := by
      rintro rfl
      cases hinner
      exact hne rfl
    rw [List.nil_append, List.nil_append, reduce, if_neg (by simpa using hne'), hcallee]
    have hargs := List.forall₂_reverse_iff.2 hinner
    refine (segments_replays .nil hargs).bind fun t' as bs _ has => ?_
    obtain _ | ⟨⟨rfl, ha⟩, _ | _⟩ := has
    · exact .fail
    · rename_i a
      have hsame : Same t' a a := ⟨rfl, ha⟩
      exact Replays.done (k := fun a => reduce (algebra fold) outer
        (⟨f.first, .operand a, e⟩ :: f.before) rest) hsame
    · exact .fail
  | case3 => exact fun _ _ _ => .fail
  | case4 fs inner start callee stop rest ih =>
    intro gs inner' qs t hfs hinner hps
    obtain _ | ⟨_ | hcallee' | _, hps⟩ := hps
    rw [List.cons_append, reduce, ← List.cons_append]
    exact ih (.cons ⟨hcallee', hinner⟩ hfs) .nil hps
  | case5 inner start stop rest => exact fun _ _ _ => .fail
  | case6 f outer inner start stop rest hne => exact fun _ _ _ => .fail
  | case7 g fs inner start stop rest hne ih =>
    intro gs inner' qs t hfs hinner hps
    obtain _ | @⟨_, g', _, _, ⟨hcallee', hbefore⟩, hfs⟩ := hfs
    obtain _ | ⟨_ | _ | _, hps⟩ := hps
    have hne' : inner' ≠ [] := by
      rintro rfl
      cases hinner
      exact hne rfl
    rw [List.cons_append, List.cons_append, reduce, if_neg (by simpa using hne')]
    have hargs := List.forall₂_reverse_iff.2 hinner
    refine (segments_replays .nil hargs).bind fun t' as bs hext has => ?_
    refine (bracket_replays hcallee' has).bind ?_
    rintro t'' a _ hext' ⟨rfl, ha⟩
    have hgrow := hext.trans hext'
    exact ih a (hfs.imp fun _ _ => FrameTwin.mono hgrow)
      (.cons (.operand ha) (Twins.mono hgrow hbefore)) (PieceTwins.mono hgrow hps)
  | case8 fs inner start p stop rest ih =>
    intro gs inner' qs t hfs hinner hps
    obtain _ | ⟨@⟨_, _, _, _, _, _, hp⟩ | _ | _, hps⟩ := hps
    rw [List.cons_append, reduce]
    exact ih hfs (.cons hp hinner) hps

/-! ### Literals and names again -/

theorem number_replays (x : Float) :
    Replays fold t (addAtom (.const x false)) (addAtom (.const x false)) Same pure :=
  .of_again (.addAtom nofun) fun ht => ht.keeps_const x

theorem name_replays (n : String) :
    Replays fold t (addAtom (.name n)) (addAtom (.name n)) Same pure :=
  .of_again (.addAtom nofun) fun ht => ht.keeps_intern trivial trivial nofun nofun

/-- What an item is read as on its own. -/
def readItem {σ α : Type} (alg : Algebra σ α) : Item → Build σ (Piece α)
  | .number x => (Piece.part <| .operand ·) <$> alg.number x
  | .name n => (Piece.part <| .operand ·) <$> alg.name n
  | .lead op => return .part (.lead op)
  | .join op => return .part (.join op)
  | .comma => return .part .comma
  | .opening => return .opening none
  | .closing => return .closing

theorem pieces_cons {σ α : Type} (alg : Algebra σ α) {s e : Nat} {item : Item} {rest : Items}
    (hname : ∀ f so eo after, rest = ⟨so, .opening, eo⟩ :: after → item = .name f → False) :
    pieces alg (⟨s, item, e⟩ :: rest) = do
      let p ← readItem alg item
      let ps ← pieces alg rest
      return ⟨s, p, e⟩ :: ps := by
  cases item with
  | name n =>
    rw [pieces]
    · rfl
    · exact hname
  | _ => rfl

theorem readItem_replays (item : Item) (s e s' e' : Nat) :
    Replays fold t (readItem (algebra fold) item) (readItem (algebra fold) item)
      (fun t p q => PieceTwin t ⟨s, p, e⟩ ⟨s', q, e'⟩) pure := by
  have operand {x : Build AtomTable AtomId} (hx : Replays fold t x x Same pure) :
      Replays fold t ((Piece.part <| .operand ·) <$> x) ((Piece.part <| .operand ·) <$> x)
        (fun t p q => PieceTwin t ⟨s, p, e⟩ ⟨s', q, e'⟩) pure := by
    rw [← bind_pure_comp]
    refine hx.bind ?_
    rintro t' a _ - ⟨rfl, ha⟩
    exact .pure (.part (.operand ha))
  cases item with
  | number x => exact operand (number_replays x)
  | name n => exact operand (name_replays n)
  | lead => exact .pure (.part .lead)
  | join => exact .pure (.part .join)
  | comma => exact .pure (.part .comma)
  | opening => exact .pure (.opening rfl)
  | closing => exact .pure .closing

theorem pieces_replays {xs : Items} : ∀ {ys : Items} {t : AtomTable}, Moved xs ys →
    Replays fold t (pieces (algebra fold) xs) (pieces (algebra fold) ys) PieceTwins pure := by
  fun_induction spell xs with
  | case1 =>
    rintro _ t ⟨⟩
    exact .pure .nil
  | case2 s f e s' e' rest ih =>
    rintro ys t h
    obtain _ | @⟨_, ⟨_, _, _⟩, _, _, rfl, _ | @⟨_, ⟨_, _, _⟩, _, _, rfl, h⟩⟩ := h
    simp only [pieces]
    exact (ih h).bind fun t' ps qs _ hps => .pure (.cons (.opening rfl) hps)
  | case3 s item e rest hname ih =>
    rintro ys t h
    obtain _ | @⟨_, ⟨s', _, e'⟩, _, ys, rfl, h⟩ := h
    rw [pieces_cons _ hname, pieces_cons]
    · refine (readItem_replays item s e s' e').bind fun t' p q hext hp => ?_
      refine (ih h).bind fun t'' ps qs hext' hps => ?_
      have hfirst : PieceTwins t' [⟨s, p, e⟩] [⟨s', q, e'⟩] := .cons hp .nil
      exact .pure (List.rel_append (hfirst.mono hext') hps)
    · rintro f so eo after rfl
      obtain _ | @⟨⟨_, _, _⟩, _, _, _, rfl, _⟩ := h
      exact hname f _ _ _ rfl

/-- A name is the bracket's only where one opens behind it. -/
theorem pieces_append {σ α : Type} {alg : Algebra σ α} {xs ys : Items} (h : Apart ys) :
    pieces alg (xs ++ ys) = do
      let ps ← pieces alg xs
      let qs ← pieces alg ys
      return ps ++ qs := by
  fun_induction spell xs with
  | case1 => simp [pieces]
  | case2 s f e s' e' rest ih => simp [pieces, ih]
  | case3 s item e rest hname ih =>
    rw [List.cons_append, pieces_cons _ hname, pieces_cons, ih]
    · simp
    · rintro f so eo after hafter rfl
      cases rest with
      | nil => exact h ⟨so, .opening, eo⟩ (by rw [← List.nil_append ys, hafter]; rfl) rfl
      | cons first rest =>
        obtain ⟨rfl, -⟩ := List.cons.inj hafter
        exact hname f _ _ _ rfl rfl

theorem moved_append {xs xs' ys : Items} (h : Moved (xs ++ xs') ys) :
    ∃ zs zs', ys = zs ++ zs' ∧ Moved xs zs ∧ Moved xs' zs' := by
  induction xs generalizing ys with
  | nil => exact ⟨[], ys, rfl, .nil, h⟩
  | cons x xs ih =>
    obtain _ | ⟨hvalue, h⟩ := h
    obtain ⟨zs, zs', rfl, hxs, hxs'⟩ := ih h
    exact ⟨_ :: zs, zs', rfl, .cons hvalue hxs, hxs'⟩

/-- The pieces of two runs of items in brackets with `+` between. -/
theorem pieces_repeated {σ α : Type} {alg : Algebra σ α} {xs ys : Items}
    {ps qs : List (Spanned (Piece α))} {u u' u'' : σ} {s e s₁ e₁ s₂ e₂ s₃ e₃ s₄ e₄ : Nat}
    (hxs : pieces alg xs u = .ok (ps, u')) (hys : pieces alg ys u' = .ok (qs, u'')) :
    pieces alg (⟨s, .opening, e⟩ :: (xs ++ ⟨s₁, .closing, e₁⟩ :: ⟨s₂, .join .add, e₂⟩ ::
      ⟨s₃, .opening, e₃⟩ :: (ys ++ [⟨s₄, .closing, e₄⟩]))) u =
      .ok (⟨s, .opening none, e⟩ :: (ps ++ ⟨s₁, .closing, e₁⟩ :: ⟨s₂, .part (.join .add), e₂⟩ ::
        ⟨s₃, .opening none, e₃⟩ :: (qs ++ [⟨s₄, .closing, e₄⟩])), u'') := by
  have hend : Apart [⟨s₄, .closing, e₄⟩] := apart_cons _ _ (by simp)
  have hmiddle : Apart (⟨s₁, .closing, e₁⟩ :: ⟨s₂, .join .add, e₂⟩ :: ⟨s₃, .opening, e₃⟩ ::
      (ys ++ [⟨s₄, .closing, e₄⟩])) := apart_cons _ _ (by simp)
  simp only [pieces, pieces_append hend, pieces_append hmiddle, pure_bind, bind_assoc]
  exact build_bind_eq_ok.2 ⟨ps, u', hxs, build_bind_eq_ok.2 ⟨qs, u'', hys, rfl⟩⟩

theorem reduce_sum (a : AtomId) (s e s' e' s'' e'' : Nat) :
    reduce (algebra fold) [] [⟨s'', .operand a, e''⟩, ⟨s', .join .add, e'⟩, ⟨s, .operand a, e⟩] [] =
      applyJoin fold .add a a s' := by
  simp [reduce, segments, segment, applyLeads, levels, applyLevel, algebra, BinaryOp.level]

/-- The sum of what items stand for and itself joins the same atom twice. -/
theorem run_repeated {xs ys : Items} (hmoved : Moved (⟨0, .opening, 0⟩ :: (xs ++ ⟨0, .closing, 0⟩ ::
      ⟨0, .join .add, 0⟩ :: ⟨0, .opening, 0⟩ :: (xs ++ [⟨0, .closing, 0⟩]))) ys)
    (hempty : Assembled fold t) (hrun : run (algebra fold) xs t = .ok (a, t')) :
    ∃ start, run (algebra fold) ys t = applyJoin fold .add a a start t' := by
  obtain _ | @⟨_, ⟨s, _, e⟩, _, _, rfl, hmoved⟩ := hmoved
  obtain ⟨zs, _, rfl, hzs, hbehind⟩ := moved_append hmoved
  obtain _ | @⟨_, ⟨s₁, _, e₁⟩, _, _, rfl, _ | @⟨_, ⟨s₂, _, e₂⟩, _, _, rfl,
    _ | @⟨_, ⟨s₃, _, e₃⟩, _, _, rfl, hsecond⟩⟩⟩ := hbehind
  obtain ⟨zs', _, rfl, hzs', hend⟩ := moved_append hsecond
  obtain _ | @⟨_, ⟨s₄, _, e₄⟩, _, _, rfl, _ | _⟩ := hend
  obtain ⟨ps, t₀, hps, hreduce⟩ := build_bind_eq_ok.1 hrun
  obtain ⟨-, ht₀, qs, hqs, hfirst, -⟩ := pieces_replays hzs hempty ps t₀ hps
  obtain ⟨-, -, qs', hqs', -, hsecond⟩ := pieces_replays hzs' hempty ps t₀ hps
  obtain ⟨-, -, _, ⟨rfl, -⟩, hin, -⟩ := @reduce_replays fold ⟨none, s, []⟩ [] s₁ e₁
    (⟨s₂, .part (.join .add), e₂⟩ :: ⟨s₃, .opening none, e₃⟩ :: (qs' ++ [⟨s₄, .closing, e₄⟩])) rfl
    _ _ _ _ _ _ _ .nil .nil hqs ht₀ a t' hreduce
  -- the second time, at a table that has all of it already
  obtain ⟨-, -, _, ⟨rfl, -⟩, -, hagain⟩ := @reduce_replays fold
    ⟨none, s₃, [⟨s₂, .join .add, e₂⟩, ⟨s, .operand a, e₁⟩]⟩ [] s₄ e₄ [] rfl
    _ _ _ _ _ _ _ .nil .nil hqs' ht₀ a t' hreduce
  refine ⟨s₂, ?_⟩
  have hrun' : run (algebra fold) (⟨s, .opening, e⟩ :: (zs ++ ⟨s₁, .closing, e₁⟩ ::
      ⟨s₂, .join .add, e₂⟩ :: ⟨s₃, .opening, e₃⟩ :: (zs' ++ [⟨s₄, .closing, e₄⟩]))) t =
      reduce (algebra fold) [] [] (⟨s, .opening none, e⟩ :: (qs ++ ⟨s₁, .closing, e₁⟩ ::
        ⟨s₂, .part (.join .add), e₂⟩ :: ⟨s₃, .opening none, e₃⟩ ::
          (qs' ++ [⟨s₄, .closing, e₄⟩]))) t₀ := by
    show (pieces (algebra fold) _ t).bind _ = _
    rw [pieces_repeated hfirst (hsecond t₀ (.refl t₀))]
    rfl
  refine hrun'.trans ?_
  rw [reduce]
  refine hin.trans ?_
  show reduce (algebra fold) [] _ _ t' = _
  rw [reduce, reduce]
  exact (hagain t' (.refl t')).trans (congrFun (reduce_sum a s e₁ s₂ e₂ s₃ e₄) t')

end Reduction

end Behavioral
