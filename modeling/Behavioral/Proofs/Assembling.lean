import Behavioral.Proofs.Simulation
import Behavioral.Proofs.Valuation

/-!
# Assembling atoms and building trees

Assembling atoms goes side by side with building the tree (`simulates`): the atom that an operator
adds stands for the tree, with its kind, what it folds to, and its value under any valuation. On the
way a double negation becomes its operand, a power with exponent two a square, and an atom that is
there already is used again. A function of a list is added for a call of the tree only
(`Admitted.lists`).
-/

namespace Behavioral

namespace LeadOp

/-- The operator of one operand that it applies. -/
def unary : LeadOp → UnaryOp
  | not => .not
  | negate => .neg

variable {e : ParseTree} {bindings : Bindings}

theorem isBoolean_tree (op : LeadOp) : (op.tree e).isBoolean = decide (op.unary = .not) := by
  cases op <;> rfl

theorem folded_tree (op : LeadOp) : (op.tree e).folded = e.folded.map op.unary.apply := by
  cases op <;> rfl

theorem value_tree (op : LeadOp) :
    (op.tree e).value bindings = (e.value bindings).map op.unary.apply := by
  cases op <;> rfl

theorem unary_unary (op : LeadOp) {x : Float} (h : op.unary = .not → ∃ b, x = ofBool b) :
    op.unary.apply (op.unary.apply x) = x := by
  cases op with
  | not =>
    obtain ⟨b, rfl⟩ := h rfl
    exact Double.not_not_ofBool b
  | negate => exact Double.neg_neg x

end LeadOp

namespace Assembly

open AtomTable Correspondence

variable {fold : Bool} {Leaf Admits : ParseTree → Prop} {t t' : AtomTable} {a id : Nat}
  {e : ParseTree} {bindings : Bindings}

/-- The atom has the kind and the value of the tree, and carries what the tree folds to. -/
structure Stands (fold : Bool) (t : AtomTable) (a : Nat) (e : ParseTree) : Prop where
  operand : t.IsOperand t.size a
  kind : (t.get a).isBoolean = e.isBoolean
  folded : fold = true → (t.get a).constant? = e.folded
  value : ∀ t' bindings f, Extends t t' → Valuation t' bindings f → e.SquaresPowers bindings →
    f a = e.value bindings

theorem Stands.mono (hext : Extends t t') (h : Stands fold t a e) : Stands fold t' a e where
  operand := h.operand.mono hext (Nat.le_refl _) hext.size
  kind := by rw [hext.get a h.operand.within.2, h.kind]
  folded := by rw [hext.get a h.operand.within.2]; exact h.folded
  value t'' bindings f hext' := h.value t'' bindings f (hext.trans hext')

/-- Assembling may fail where building a tree does not: when the table is full, and, without
folding, at a divisor that is zero already. -/
def Excused (fold : Bool) (f : Fault) : Prop :=
  f = .grammar (.tooManyAtoms limit) ∨
    fold = false ∧ ∃ start, f = .arithmetic (.divisionByZero start)

/-- A sound table whose functions of a list stand for admitted trees. -/
structure Admitted (fold : Bool) (Leaf Admits : ParseTree → Prop) (t : AtomTable) : Prop where
  sound : Sound fold Leaf t
  lists : ∀ id, (t.get id).appliesList = true → ∃ e, Admits e ∧ Stands fold t id e

theorem Admitted.grow (h : Admitted fold Leaf Admits t) (hext : Extends t t')
    (hsound : Sound fold Leaf t') (hnew : Adds t t' fun atom => atom.appliesList = true →
      ∀ id, Within t'.size id → t'.get id = atom → ∃ e, Admits e ∧ Stands fold t' id e) :
    Admitted fold Leaf Admits t' where
  sound := hsound
  lists id hlist := by
    have hid := hsound.within_of_get rfl (Atom.ne_sentinel_of_appliesList hlist)
    rcases Nat.lt_or_ge id t.size with hlt | hge
    · rw [hext.get id hlt] at hlist
      obtain ⟨e, he, hstands⟩ := h.lists id hlist
      exact ⟨e, he, hstands.mono hext⟩
    · exact hnew id hge hid.2 hlist id hid rfl

/-- Atoms beside trees whose functions of a list are admitted. -/
def correspondence (fold : Bool) (Leaf Admits : ParseTree → Prop) :
    Correspondence AtomTable Unit AtomId ParseTree where
  Inv w := Admitted fold Leaf Admits w.1
  Grows w w' := Extends w.1 w'.1
  Rel w a e := Stands fold w.1 a e
  Excused := Excused fold
  Pardoned _ := ¬∀ e, Admits e
  refl w := .refl w.1
  trans := Extends.trans
  mono := Stands.mono

theorem addAtom_agrees (hdistinct : Distinct Leaf) {w : AtomTable × Unit} {atom : Atom}
    (hformed : Formed fold Leaf w.1 w.1.size atom) (hadmits : atom.appliesList = true → Admits e)
    (hstands : ∀ t' id, Extends w.1 t' → Sound fold Leaf t' → Within t'.size id →
      t'.get id = atom → Stands fold t' id e) :
    (correspondence fold Leaf Admits).Agrees w (addAtom atom) (pure e)
      (correspondence fold Leaf Admits).Rel := by
  intro h
  have h : Admitted fold Leaf Admits w.1 := h
  show Outcome _ w _ (w.1.intern atom) (.ok (e, w.2))
  rcases h.sound.intern (fun _ _ _ => hdistinct) hformed with
    ⟨id, t', hrun, hext, hsound, hid, hget, hadds⟩ | hrun
  · rw [hrun]
    refine .ok hext (h.grow hext hsound (hadds.imp ?_)) (hstands t' id hext hsound hid hget)
    rintro _ rfl hlist i hi hgeti
    exact ⟨e, hadmits hlist, hstands t' i hext hsound hi hgeti⟩
  · rw [hrun]
    exact .excused (.inl rfl)

/-- The valuations of larger tables give the tree's value. -/
abbrev Values (t : AtomTable) (e : ParseTree) (v : (AtomId → Option Float) → Option Float) : Prop :=
  ∀ t' bindings f, Extends t t' → Valuation t' bindings f → e.SquaresPowers bindings →
    v f = e.value bindings

theorem Stands.of_get {atom : Atom} (hid : Within t.size id) (hget : t.get id = atom)
    (helement : ∀ x y, atom ≠ .element x y) (hkind : atom.isBoolean = e.isBoolean)
    (hfolded : fold = true → atom.constant? = e.folded)
    (hvalue : ∀ t' bindings f, Extends t t' → Valuation t' bindings f → e.SquaresPowers bindings →
      t'.meaning bindings f atom = e.value bindings) : Stands fold t id e where
  operand := ⟨hid, by rw [hget]; exact helement⟩
  kind := by rw [hget, hkind]
  folded := by rw [hget]; exact hfolded
  value t' bindings f hext hf hpow := by
    rw [hf id (Nat.lt_of_lt_of_le hid.2 hext.size), hext.get id hid.2, hget]
    exact hvalue t' bindings f hext hf hpow

theorem foldedValue_unary (op : UnaryOp) (x : Option Float) :
    foldedValue (.unary op) x none = x.map op.apply := by
  cases x <;> rfl

theorem foldedValue_binary (op : BinaryOp) (x y : Option Float) :
    foldedValue (.binary op) x (some y) = x.bind fun x => y.map (op.apply x) := by
  cases x <;> cases y <;> rfl

/-- An operator of one operand is added with what it folds to. -/
theorem applyOp_unary (op : UnaryOp) (a : AtomId) (isBoolean : Bool) (t : AtomTable) :
    applyOp fold (.unary op) a none isBoolean t = t.intern (.apply (.unary op) a none
      (if fold then (t.get a).constant?.map op.apply else none) isBoolean) := by
  rw [← foldedValue_unary]
  rfl

theorem applyOp_binary (op : BinaryOp) (a b : AtomId) (isBoolean : Bool) (t : AtomTable) :
    applyOp fold (.binary op) a (some b) isBoolean t = t.intern (.apply (.binary op) a (some b)
      (if fold then (t.get a).constant?.bind fun x => (t.get b).constant?.map (op.apply x) else none)
      isBoolean) := by
  rw [← foldedValue_binary]
  rfl

theorem get_of_operandOf? {op : UnaryOp} {atom : Atom} {inner : AtomId}
    (h : operandOf? op atom = some inner) :
    ∃ folded isBoolean, atom = .apply (.unary op) inner none folded isBoolean := by
  unfold operandOf? at h
  split at h
  · split at h
    · rename_i hop
      cases h
      rw [hop]
      exact ⟨_, _, rfl⟩
    · cases h
  · cases h

theorem isConstant_two (atom : Atom) : isConstant atom 2 = true ↔ atom.constant? = some 2 := by
  unfold isConstant
  split
  · rename_i x hx
    rw [hx, Option.some_inj]
    refine ⟨Double.eq_two_of_beq, ?_⟩
    rintro rfl
    decide +kernel
  · rename_i hx
    simp [hx]

theorem isConstant_zero (atom : Atom) : isConstant atom 0 = atom.constant?.any (· == 0) := by
  unfold isConstant
  split <;> rename_i hx <;> simp [hx]

/-- What joining does in a table. -/
theorem applyJoin_eq (op : BinaryOp) (a b : AtomId) (start : Nat) (t : AtomTable) :
    applyJoin fold op a b start t =
      match typeFault? op (t.get a).isBoolean (t.get b).isBoolean start with
      | some fault => .error (.typing fault)
      | none =>
        if op = .pow ∧ (t.get b).constant? = some 2 then
          applyOp fold (.unary .square) a none false t
        else if op = .div ∧ (t.get b).constant?.any (· == 0) = true then
          .error (.arithmetic (.divisionByZero start))
        else applyOp fold (.binary op) a (some b) op.isBoolean t := by
  have hrun : applyJoin fold op a b start t =
      (match typeFault? op (t.get a).isBoolean (t.get b).isBoolean start with
      | some fault => fail (.typing fault)
      | none =>
        if op = BinaryOp.pow && isConstant (t.get b) 2 then
          applyOp fold (.unary .square) a none false
        else if op = BinaryOp.div && isConstant (t.get b) 0 then
          fail (.arithmetic (.divisionByZero start))
        else applyOp fold (.binary op) a (some b) op.isBoolean : Build AtomTable AtomId) t := rfl
  rw [hrun]
  cases typeFault? op (t.get a).isBoolean (t.get b).isBoolean start with
  | some fault => rfl
  | none =>
    simp only [Bool.and_eq_true, decide_eq_true_eq, isConstant_two, isConstant_zero]
    split
    · rfl
    · split <;> rfl

/-- The fault of a leading operator whose operand is of the other kind. -/
def leadFault : LeadOp → Nat → Fault
  | .not, start => .typing (.notNeedsBoolean start)
  | .negate, start => .typing (.minusNeedsNumber start)

/-- What a leading operator does in a table. -/
theorem applyLead_eq (op : LeadOp) (a : AtomId) (start : Nat) (t : AtomTable) :
    applyLead fold op a start t =
      if (t.get a).isBoolean = decide (op.unary = .not) then
        (match operandOf? op.unary (t.get a) with
          | some inner => pure inner
          | none => applyOp fold (.unary op.unary) a none (decide (op.unary = .not)) :
            Build AtomTable AtomId) t
      else .error (leadFault op start) := by
  have hrun : applyLead fold op a start t = (match op with
      | .not => if !(t.get a).isBoolean then fail (.typing (.notNeedsBoolean start)) else
        match operandOf? .not (t.get a) with
        | some inner => pure inner
        | none => applyOp fold (.unary .not) a none true
      | .negate => if (t.get a).isBoolean then fail (.typing (.minusNeedsNumber start)) else
        match operandOf? .neg (t.get a) with
        | some inner => pure inner
        | none => applyOp fold (.unary .neg) a none false : Build AtomTable AtomId) t := by
    cases op <;> rfl
  rw [hrun]
  cases op <;> cases (t.get a).isBoolean <;> rfl

/-- What a call of one operand does in a table. -/
theorem applyCall_eq (op : UnaryOp) (name : String) (a : AtomId) (start : Nat) (t : AtomTable) :
    applyCall fold op name a start t =
      if (t.get a).isBoolean then .error (.typing (.functionNeedsNumber name start))
      else applyOp fold (.unary op) a none false t := by
  have hrun : applyCall fold op name a start t =
      (if (t.get a).isBoolean then fail (.typing (.functionNeedsNumber name start)) else
        applyOp fold (.unary op) a none false : Build AtomTable AtomId) t := rfl
  rw [hrun]
  split <;> rfl

theorem ne_not_of_ofFunctionName? {f : String} {op : UnaryOp}
    (h : UnaryOp.ofFunctionName? f = some op) : op ≠ .not := by
  rintro rfl
  unfold UnaryOp.ofFunctionName? at h
  split at h <;> cases h

theorem applyList_cons (op : ListOp) (name : String) (first : AtomId) (rest : List AtomId)
    (start : Nat) (t : AtomTable) :
    applyList op name (first :: rest) start t =
      if (first :: rest).any fun a => (t.get a).isBoolean then
        .error (.typing (.functionNeedsNumbers name start))
      else (addChain rest t).bind fun r =>
        addAtom (.apply (.list op) first (some r.1) none false) r.2 := by
  have hrun : applyList op name (first :: rest) start t =
      (if (first :: rest).any fun a => (t.get a).isBoolean then
        fail (.typing (.functionNeedsNumbers name start))
      else do
        let tail ← addChain rest
        addAtom (.apply (.list op) first (some tail) none false) : Build AtomTable AtomId) t := rfl
  rw [hrun]
  split <;> rfl

theorem any_isBoolean {as : List AtomId} {es : List ParseTree}
    (h : List.Forall₂ (Stands fold t) as es) :
    (as.any fun a => (t.get a).isBoolean) = es.any ParseTree.isBoolean := by
  induction h with
  | nil => rfl
  | cons ha _ ih => rw [List.any_cons, List.any_cons, ha.kind, ih]

theorem values_eq_allValues (es : List ParseTree) :
    ParseTree.values bindings es = allValues (es.map (ParseTree.value bindings)) := by
  induction es with
  | nil => rfl
  | cons e es ih => rw [ParseTree.values, ih, List.map_cons, allValues]

theorem values_agree {f : AtomId → Option Float} (hext : Extends t t')
    (hf : Valuation t' bindings f) {as : List AtomId} {es : List ParseTree}
    (h : List.Forall₂ (Stands fold t) as es) (hsquares : ∀ e ∈ es, e.SquaresPowers bindings) :
    as.map f = es.map (ParseTree.value bindings) := by
  induction h with
  | nil => rfl
  | cons ha _ ih =>
    obtain ⟨hfirst, hrest⟩ := List.forall_mem_cons.1 hsquares
    rw [List.map_cons, List.map_cons, ha.value t' bindings f hext hf hfirst, ih hrest]

/-- Arguments are chained behind the first of them, or the table is full. -/
theorem addChain_spec : ∀ {args : List AtomId} {t : AtomTable}, Sound fold Leaf t → args ≠ [] →
    (∀ a ∈ args, t.IsOperand t.size a) →
    (∃ (tail : Nat) (t' : AtomTable), addChain args t = .ok (tail, t') ∧ Extends t t' ∧
      Sound fold Leaf t' ∧ Within t'.size tail ∧ t'.chain t'.size tail = args ∧
      Adds t t' fun atom => ∃ x y, atom = .element x y) ∨
    addChain args t = .error (.grammar (.tooManyAtoms limit))
  | [], _, _, hne, _ => absurd rfl hne
  | [last], t, hsound, _, hargs => by
    have hlast := hargs last (by simp)
    exact .inl ⟨last, t, rfl, .refl t, hsound, hlast.within, chain_single hlast.value _, adds_refl⟩
  | a :: b :: rest, t, hsound, _, hargs => by
    have ha := hargs a (by simp)
    have hrun : addChain (a :: b :: rest) t =
        (addChain (b :: rest) t).bind fun r => r.2.intern (.element a r.1) := rfl
    rw [hrun]
    have hrest (x : AtomId) (hx : x ∈ b :: rest) := hargs x (List.mem_cons_of_mem a hx)
    rcases addChain_spec hsound (List.cons_ne_nil b rest) hrest with
      ⟨tail, t', h, hext, hsound', htail, hchain, hadds⟩ | h
    · rw [h]
      have helement : Formed fold Leaf t' t'.size (.element a tail) :=
        ⟨ha.mono hext (Nat.le_refl _) hext.size, htail⟩
      show (∃ tail' t'', t'.intern (.element a tail) = _ ∧ _) ∨ t'.intern (.element a tail) = _
      rcases hsound'.intern (fun _ _ h => by cases h) helement with
        ⟨id, t'', h, hext', hsound'', hid, hget, hadds'⟩ | h
      · refine .inl ⟨id, t'', h, hext.trans hext', hsound'', hid, ?_, ?_⟩
        · have hrow := hext'.chain hsound'.backward htail.2
          rw [chain_element hsound''.backward hget hid.2, hrow, hchain]
        · exact hadds.trans (hadds'.imp fun atom hatom => ⟨a, tail, hatom⟩) hext'
      · exact .inr h
    · exact .inr (by rw [h]; rfl)

section Operators

variable (hdistinct : Distinct Leaf) {w : AtomTable × Unit}
include hdistinct

theorem unary_agrees (op : UnaryOp) (ha : w.1.IsOperand w.1.size a)
    (hkind : (w.1.get a).isBoolean = decide (op = .not)) (he : e.isBoolean = decide (op = .not))
    (hfolded : fold = true → (w.1.get a).constant?.map op.apply = e.folded)
    (hvalue : Values w.1 e fun f => (f a).map op.apply) :
    (correspondence fold Leaf Admits).Agrees w (applyOp fold (.unary op) a none (decide (op = .not)))
      (pure e) (correspondence fold Leaf Admits).Rel := by
  intro h
  rw [applyOp_unary]
  refine addAtom_agrees hdistinct ⟨ha, rfl, hkind, rfl⟩ nofun (fun t' id hext _ hid hget => ?_) h
  refine .of_get hid hget nofun he.symm (fun hfold => ?_) fun t'' bindings f hext' hf hpow => ?_
  · rw [Atom.constant?, if_pos hfold, hfolded hfold]
  · exact hvalue t'' bindings f (hext.trans hext') hf hpow

theorem binary_agrees {op : BinaryOp} {b : Nat} {ea eb : ParseTree} (ha : Stands fold w.1 a ea)
    (hb : Stands fold w.1 b eb) (hpow : fold = true → ¬(op = .pow ∧ eb.folded = some 2)) :
    (correspondence fold Leaf Admits).Agrees w (applyOp fold (.binary op) a (some b) op.isBoolean)
      (pure (.join op ea eb)) (correspondence fold Leaf Admits).Rel := by
  intro h
  rw [applyOp_binary]
  refine addAtom_agrees hdistinct ⟨ha.operand, hb.operand, rfl, rfl⟩ nofun
    (fun t' id hext _ hid hget => ?_) h
  refine .of_get hid hget nofun rfl (fun hfold => ?_) fun t'' bindings f hext' hf hsquares => ?_
  · rw [Atom.constant?, if_pos hfold, ParseTree.folded, if_neg (hpow hfold), ha.folded hfold,
      hb.folded hfold]
  · have hext'' := hext.trans hext'
    rw [meaning_binary, ParseTree.value,
      ha.value t'' bindings f hext'' hf (hsquares.mono (by simp [ParseTree.nodes])),
      hb.value t'' bindings f hext'' hf (hsquares.mono (by simp [ParseTree.nodes]))]
    rfl

/-- A second negation undoes the first one. -/
theorem negation_agrees (op : LeadOp) (ha : Stands fold w.1 a e)
    (hkind : e.isBoolean = decide (op.unary = .not)) :
    (correspondence fold Leaf Admits).Agrees w
      (match operandOf? op.unary (w.1.get a) with
        | some inner => pure inner
        | none => applyOp fold (.unary op.unary) a none (decide (op.unary = .not)))
      (pure (op.tree e)) (correspondence fold Leaf Admits).Rel := by
  intro h
  have hsound : Sound fold Leaf w.1 := Admitted.sound h
  have hsub : e.nodes ⊆ (op.tree e).nodes := by cases op <;> simp [LeadOp.tree, ParseTree.nodes]
  cases hinner : operandOf? op.unary (w.1.get a) with
  | some inner =>
    refine agrees_pure ?_ h
    obtain ⟨folded, isBoolean, hget⟩ := get_of_operandOf? hinner
    have hformed := hsound.formed a ha.operand.within
    rw [hget] at hformed
    obtain ⟨hoperand, rfl, hboolean, rfl⟩ := hformed
    have hwithin : Within w.1.size inner :=
      ⟨hoperand.within.1, Nat.lt_trans hoperand.within.2 ha.operand.within.2⟩
    refine ⟨⟨hwithin, hoperand.value⟩, ?_, fun hfold => ?_,
      fun t' bindings f hext hf hsquares => ?_⟩
    · rw [hboolean, op.isBoolean_tree]
    · have hconstant := ha.folded hfold
      rw [hget, Atom.constant?, if_pos hfold] at hconstant
      rw [op.folded_tree, ← hconstant, Option.map_map]
      cases hc : (w.1.get inner).constant? with
      | none => rfl
      | some x =>
        have := op.unary_unary fun hnot =>
          hsound.boolean_constant hwithin (hboolean.trans (by simp [hnot])) hc
        rw [Option.map_some, Function.comp_apply, this]
    · have hf' := hf.shrink hsound hext
      have hvalue := ha.value t' bindings f hext hf (hsquares.mono hsub)
      rw [hf' a ha.operand.within.2, hget] at hvalue
      rw [op.value_tree, ← hvalue, meaning_unary, Option.map_map]
      cases hx : f inner with
      | none => rfl
      | some x =>
        have := op.unary_unary fun hnot =>
          hsound.boolean_value hf' hwithin (hboolean.trans (by simp [hnot])) hx
        exact congrArg some this.symm
  | none =>
    refine unary_agrees hdistinct op.unary ha.operand (ha.kind.trans hkind) op.isBoolean_tree
      (fun hfold => ?_) (fun t' bindings f hext hf hsquares => ?_) h
    · rw [ha.folded hfold, op.folded_tree]
    · show (f a).map op.unary.apply = _
      rw [op.value_tree, ha.value t' bindings f hext hf (hsquares.mono hsub)]

theorem lead_agrees (op : LeadOp) (start : Nat) (ha : Stands fold w.1 a e) :
    (correspondence fold Leaf Admits).Agrees w (applyLead fold op a start)
      ((ParseTree.admitting fold Admits).lead op e start)
      (correspondence fold Leaf Admits).Rel := by
  intro h
  rw [applyLead_eq, ha.kind]
  by_cases hkind : e.isBoolean = decide (op.unary = .not)
  · have hfits : ParseTree.leadFault? op e start = none := by
      cases op <;> simpa [ParseTree.leadFault?, LeadOp.unary] using hkind
    rw [if_pos hkind]
    show Outcome _ w _ _ (ParseTree.grow (ParseTree.leadFault? op e start) (op.tree e) w.2)
    rw [hfits]
    exact negation_agrees hdistinct op ha hkind h
  · have hfault : ParseTree.leadFault? op e start = some (leadFault op start) := by
      cases op <;> simpa [ParseTree.leadFault?, LeadOp.unary, leadFault] using hkind
    rw [if_neg hkind]
    show Outcome _ w _ _ (ParseTree.grow (ParseTree.leadFault? op e start) (op.tree e) w.2)
    rw [hfault]
    exact .fault

theorem square_agrees {b : Nat} {ea eb : ParseTree} (ha : Stands fold w.1 a ea)
    (hb : Stands fold w.1 b eb) (hkind : ea.isBoolean = false)
    (htwo : (w.1.get b).constant? = some 2) :
    (correspondence fold Leaf Admits).Agrees w (applyOp fold (.unary .square) a none false)
      (pure (.join .pow ea eb)) (correspondence fold Leaf Admits).Rel := by
  intro h
  refine unary_agrees hdistinct .square ha.operand (ha.kind.trans hkind) rfl
    (fun hfold => ?_) (fun t' bindings f hext hf hsquares => ?_) h
  · rw [ParseTree.folded, ← hb.folded hfold, if_pos ⟨rfl, htwo⟩, ha.folded hfold]
  · have hsound : Sound fold Leaf w.1 := Admitted.sound h
    have hva := ha.value t' bindings f hext hf (hsquares.mono (by simp [ParseTree.nodes]))
    have hvb := hb.value t' bindings f hext hf (hsquares.mono (by simp [ParseTree.nodes]))
    have hvtwo := hsound.constant_value (hf.shrink hsound hext) hb.operand.within htwo
    have hpow := hsquares ea eb (by simp [ParseTree.nodes]) (hvb.symm.trans hvtwo)
    show (f a).map (UnaryOp.apply .square) = _
    rw [ParseTree.value, ← hvb, hvtwo, ← hva]
    cases hx : f a with
    | none => rfl
    | some x => exact congrArg some (hpow x (hva.symm.trans hx)).symm

theorem join_agrees (op : BinaryOp) {b : Nat} {ea eb : ParseTree} (start : Nat)
    (ha : Stands fold w.1 a ea) (hb : Stands fold w.1 b eb) :
    (correspondence fold Leaf Admits).Agrees w (applyJoin fold op a b start)
      ((ParseTree.admitting fold Admits).join op ea eb start)
      (correspondence fold Leaf Admits).Rel := by
  intro h
  rw [applyJoin_eq, ha.kind, hb.kind]
  show Outcome _ w _ _
    (ParseTree.grow (ParseTree.joinFault? fold op ea eb start) (.join op ea eb) w.2)
  rw [ParseTree.joinFault?]
  cases htype : typeFault? op ea.isBoolean eb.isBoolean start with
  | some fault => exact .fault
  | none =>
    by_cases hpow : op = .pow ∧ (w.1.get b).constant? = some 2
    · obtain ⟨rfl, htwo⟩ := hpow
      have hkind : ea.isBoolean = false := by
        cases hea : ea.isBoolean with
        | false => rfl
        | true => simp [typeFault?, hea] at htype
      simp only [htwo, and_self, if_true]
      have hsafe : (fold && decide (BinaryOp.pow = .div) && eb.foldsToZero) = false := by simp
      rw [hsafe]
      exact square_agrees hdistinct ha hb hkind htwo h
    · simp only [if_neg hpow]
      by_cases hdiv : op = .div ∧ (w.1.get b).constant?.any (· == 0) = true
      · obtain ⟨rfl, hzero⟩ := hdiv
        simp only [hzero, and_self, if_true]
        cases fold with
        | false => exact .excused (.inr ⟨rfl, start, rfl⟩)
        | true =>
          rw [hb.folded rfl] at hzero
          simp only [ParseTree.foldsToZero, hzero]
          exact .fault
      · simp only [if_neg hdiv]
        have hsafe : (fold && op = .div && eb.foldsToZero) = false := by
          cases fold with
          | false => rfl
          | true =>
            rw [hb.folded rfl] at hdiv
            simpa [ParseTree.foldsToZero] using hdiv
        rw [hsafe]
        refine binary_agrees hdistinct ha hb (fun hfold => ?_) h
        rw [← hb.folded hfold]
        exact hpow

theorem call_agrees {op : UnaryOp} {name : String} (start : Nat)
    (hop : UnaryOp.ofFunctionName? name = some op) (ha : Stands fold w.1 a e) :
    (correspondence fold Leaf Admits).Agrees w (applyCall fold op name a start)
      ((ParseTree.admitting fold Admits).call op name e start)
      (correspondence fold Leaf Admits).Rel := by
  intro h
  show Outcome _ w _ _ (ParseTree.grow (ParseTree.callFault? name e start) (.call op e) w.2)
  rw [applyCall_eq, ha.kind, ParseTree.callFault?]
  cases hkind : e.isBoolean with
  | true => exact .fault
  | false =>
    have hfalse : decide (op = .not) = false := decide_eq_false (ne_not_of_ofFunctionName? hop)
    simp only [Bool.false_eq_true, if_false]
    rw [← hfalse]
    refine unary_agrees hdistinct op ha.operand ?_ hfalse.symm (fun hfold => ?_)
      (fun t' bindings f hext hf hsquares => ?_) h
    · rw [ha.kind, hkind, hfalse]
    · rw [ha.folded hfold, ParseTree.folded]
    · have hsub : e.nodes ⊆ (ParseTree.call op e).nodes := by simp [ParseTree.nodes]
      rw [ParseTree.value, ← ha.value t' bindings f hext hf (hsquares.mono hsub)]
      rfl

theorem list_agrees (op : ListOp) (name : String) (start : Nat) {as : List AtomId}
    {es : List ParseTree} (hargs : List.Forall₂ (Stands fold w.1) as es) (three : 3 ≤ as.length) :
    (correspondence fold Leaf Admits).Agrees w (applyList op name as start)
      ((ParseTree.admitting fold Admits).callList op name es start)
      (correspondence fold Leaf Admits).Rel := by
  intro h
  have hadmitted : Admitted fold Leaf Admits w.1 := h
  obtain _ | ⟨first, rest⟩ := as
  · simp at three
  have hne : rest ≠ [] := by
    rintro rfl
    simp at three
  have hoperands (a : AtomId) (ha : a ∈ first :: rest) : w.1.IsOperand w.1.size a := by
    obtain ⟨i, hi, rfl⟩ := List.getElem_of_mem ha
    exact (hargs.get hi (hargs.length_eq ▸ hi)).operand
  by_cases hadmits : Admits (.list op es)
  case neg =>
    rw [ParseTree.admitting_callList_fail hadmits]
    exact .pardoned fun hall => hadmits (hall _)
  rw [ParseTree.admitting_callList hadmits]
  show Outcome _ w _ _ (ParseTree.grow (ParseTree.listFault? name es start) (.list op es) w.2)
  rw [applyList_cons, any_isBoolean hargs, ParseTree.listFault?]
  cases hkind : es.any ParseTree.isBoolean with
  | true => exact .fault
  | false =>
    simp only [Bool.false_eq_true, if_false]
    have hrest := fun a ha => hoperands a (List.mem_cons_of_mem _ ha)
    rcases addChain_spec hadmitted.sound hne hrest with
      ⟨tail, t', hrun, hext, hsound', htail, hchain, hadds⟩ | hrun
    · rw [hrun]
      have hfirst := (hoperands first (by simp)).mono hext (Nat.le_refl _) hext.size
      have hformed : Formed fold Leaf t' t'.size (.apply (.list op) first (some tail) none false) :=
        ⟨hfirst, htail, rfl, rfl⟩
      suffices hlast : (correspondence fold Leaf Admits).Agrees (t', w.2)
          (addAtom (.apply (.list op) first (some tail) none false)) (pure (.list op es))
          (correspondence fold Leaf Admits).Rel by
        have hgrows : (correspondence fold Leaf Admits).Grows w (t', w.2) := hext
        refine (hlast (hadmitted.grow hext hsound' (hadds.imp ?_))).since hgrows
        rintro _ ⟨x, y, rfl⟩ ⟨⟩
      refine addAtom_agrees hdistinct hformed (fun _ => hadmits)
        fun t'' id hext' hsound'' hid hget => ?_
      refine .of_get hid hget (by simp) rfl (fun _ => rfl)
        fun t''' bindings f hext'' hf hsquares => ?_
      have hchain' := (hext'.trans hext'').chain hsound'.backward htail.2
      have hvalues := values_agree (hext.trans (hext'.trans hext'')) hf hargs fun e he =>
        hsquares.mono fun n hn => by
          simp only [ParseTree.nodes, List.mem_cons, ParseTree.mem_nodesOf]
          exact .inr ⟨e, he, hn⟩
      rw [meaning_list, listArguments, hchain', hchain, hvalues, ParseTree.value,
        values_eq_allValues]
      rfl
    · rw [hrun]
      exact .excused (.inl rfl)

theorem number_agrees {x : Float} (hx : Leaf (.number x)) :
    (correspondence fold Leaf Admits).Agrees w (addAtom (.const x false)) (pure (.number x))
      (correspondence fold Leaf Admits).Rel :=
  addAtom_agrees hdistinct ⟨rfl, hx⟩ nofun fun _ _ _ _ hid hget =>
    .of_get hid hget nofun rfl (fun _ => rfl) fun _ _ _ _ _ _ => rfl

theorem name_agrees {n : String} (hn : Leaf (.name n)) :
    (correspondence fold Leaf Admits).Agrees w (addAtom (.name n)) (pure (.name n))
      (correspondence fold Leaf Admits).Rel :=
  addAtom_agrees hdistinct hn nofun fun _ _ _ _ hid hget =>
    .of_get hid hget nofun rfl (fun _ => rfl) fun _ _ _ _ _ _ => rfl

/-- The value of a reciprocal stands for the call. -/
theorem reciprocal_agrees {x : Float} (f : String) (start : Nat) (hx : Leaf (.number (inverse x))) :
    (correspondence fold Leaf Admits).Agrees w (addAtom (.const (inverse x) false))
      (pure (.number x))
      fun w a b => ∀ w', (correspondence fold Leaf Admits).Grows w w' → ∃ c,
        (ParseTree.admitting fold Admits).call .inv f b start w'.2 = .ok (c, w'.2) ∧
          (correspondence fold Leaf Admits).Rel w' a c := by
  intro h
  have h : Admitted fold Leaf Admits w.1 := h
  show Outcome _ w _ (w.1.intern _) (.ok (ParseTree.number x, w.2))
  have hformed : Formed fold Leaf w.1 w.1.size (.const (inverse x) false) := ⟨rfl, hx⟩
  rcases h.sound.intern (fun _ _ _ => hdistinct) hformed with
    ⟨id, t', hrun, hext, hsound, hid, hget, hadds⟩ | hrun
  · rw [hrun]
    refine .ok hext (h.grow hext hsound (hadds.imp ?_)) fun w' hext' =>
      ⟨ParseTree.call .inv (.number x), rfl, ?_⟩
    · rintro _ rfl ⟨⟩
    refine Stands.mono hext' ?_
    exact .of_get hid hget nofun rfl (fun _ => rfl) fun _ _ _ _ _ _ => rfl
  · rw [hrun]
    exact .excused (.inl rfl)

/-- Assembling atoms goes side by side with building the tree. -/
theorem simulates : Simulates (correspondence fold Leaf Admits) (algebra fold)
    (ParseTree.admitting fold Admits) Leaf fun f => Item.isReciprocal f = true where
  number _ _ hx := number_agrees hdistinct hx
  name _ _ hn := name_agrees hdistinct hn
  reciprocal _ f _ start _ hx := reciprocal_agrees hdistinct f start hx
  lead _ op _ _ start ha := lead_agrees hdistinct op start ha
  join _ op _ _ _ _ start ha hb := join_agrees hdistinct op start ha hb
  call _ _ _ _ _ start hop ha := call_agrees hdistinct start hop ha
  callList _ op f _ _ start h three _ := list_agrees hdistinct op f start h three

end Operators

end Assembly

end Behavioral
