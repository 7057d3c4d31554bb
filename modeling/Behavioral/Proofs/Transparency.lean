import Behavioral.Proofs.Capacity
import Behavioral.Proofs.Mirroring
import Behavioral.Proofs.Unbound

/-!
# Folding is transparent

Assembling without folding goes side by side with assembling with it, from the literals and names of
the text on (`mirroring_simulates`): each operator leaves tables that are paired, unless the one
without folding is full, or folding finds a divisor that is zero. Both tables therefore evaluate
alike (`Mirrored.evaluate_eq`), and so do the compiled ones (`compile_folding`).
-/

namespace Behavioral

open AtomTable Assembly

variable {t₀ off on off' on' : AtomTable} {n : Nat} {a b : AtomId}

namespace AtomTable

/-- An operand of the table without folding, and what it corresponds to. -/
structure Mirrored (n : Nat) (off on : AtomTable) (a b : AtomId) : Prop where
  left : off.IsOperand off.size a
  right : on.IsOperand on.size b
  follows : Follows n off on a b

theorem Mirrored.mono (hoff : Extends off off') (hon : Extends on on')
    (h : Mirrored n off on a b) : Mirrored n off' on' a b :=
  ⟨h.left.mono hoff le_rfl hoff.size, h.right.mono hon le_rfl hon.size, h.follows.mono hoff hon⟩

end AtomTable

namespace Assembly

/-- Atoms without folding beside atoms with folding, both behind the atoms of `t₀`. -/
def mirroring (t₀ : AtomTable) : Correspondence AtomTable AtomTable AtomId AtomId where
  Inv w := Paired t₀ w.1 w.2
  Grows w w' := Extends w.1 w'.1 ∧ Extends w.2 w'.2
  Rel w a b := Mirrored t₀.size w.1 w.2 a b
  Excused f := f = .grammar (.tooManyAtoms limit)
  Pardoned f := ∃ start, f = .arithmetic (.divisionByZero start)
  refl w := ⟨.refl w.1, .refl w.2⟩
  trans h h' := ⟨h.1.trans h'.1, h.2.trans h'.2⟩
  mono h hab := hab.mono h.1 h.2

variable {w : AtomTable × AtomTable} {A B : Atom} {x y : AtomId}

open Correspondence

/-- Two operators that correspond are added side by side. -/
theorem intern_mirrors (h : Paired t₀ w.1 w.2) (hA : Formed false (fun _ => True) w.1 w.1.size A)
    (hB : Formed true (fun _ => True) w.2 w.2.size B) (hinnerA : A.isInner = true)
    (hinnerB : B.isInner = true) (helementA : ∀ x y, A ≠ .element x y)
    (helementB : ∀ x y, B ≠ .element x y)
    (hfollows : ∀ off' on' a b, Extends w.1 off' → Extends w.2 on' → off'.get a = A →
      on'.get b = B → Follows t₀.size off' on' a b) :
    (mirroring t₀).Outcome w (mirroring t₀).Rel (w.1.intern A) (w.2.intern B) := by
  rcases h.intern hA hB hinnerA hinnerB hfollows with
    ⟨a, off', b, on', hoff, hon, hextOff, hextOn, hpaired, ha, hb, hget, hget'⟩ | hfull
  · rw [hoff, hon]
    refine .ok ⟨hextOff, hextOn⟩ hpaired ⟨⟨ha, ?_⟩, ⟨hb, ?_⟩, ?_⟩
    · rw [hget]
      exact helementA
    · rw [hget']
      exact helementB
    · exact hfollows off' on' a b hextOff hextOn hget hget'
  · rw [hfull]
    exact .excused rfl

theorem unary_mirrors (h : Paired t₀ w.1 w.2) (hx : Mirrored t₀.size w.1 w.2 x y) (op : UnaryOp)
    (hkind : (w.1.get x).isBoolean = decide (op = .not)) :
    (mirroring t₀).Outcome w (mirroring t₀).Rel
      (applyOp false (.unary op) x none (decide (op = .not)) w.1)
      (applyOp true (.unary op) y none (decide (op = .not)) w.2) := by
  have hkind' := (h.isBoolean_eq hx.follows).trans hkind
  rw [applyOp_unary, applyOp_unary]
  refine intern_mirrors h ⟨hx.left, rfl, hkind, rfl⟩ ⟨hx.right, rfl, hkind', rfl⟩ rfl rfl nofun
    nofun fun off' on' a b hoff hon hget hget' => ?_
  exact .one hget hget' (hx.follows.mono hoff hon)

theorem binary_mirrors (h : Paired t₀ w.1 w.2) {x' y' : AtomId}
    (hx : Mirrored t₀.size w.1 w.2 x y) (hx' : Mirrored t₀.size w.1 w.2 x' y') {op : BinaryOp}
    (hpow : ¬(op = .pow ∧ (w.2.get y').constant? = some 2)) :
    (mirroring t₀).Outcome w (mirroring t₀).Rel
      (applyOp false (.binary op) x (some x') op.isBoolean w.1)
      (applyOp true (.binary op) y (some y') op.isBoolean w.2) := by
  rw [applyOp_binary, applyOp_binary]
  refine intern_mirrors h ⟨hx.left, hx'.left, rfl, rfl⟩ ⟨hx.right, hx'.right, rfl, rfl⟩ rfl rfl
    nofun nofun fun off' on' a b hoff hon hget hget' => ?_
  have hlt : y' < w.2.size := hx'.right.within.2
  refine .two hget hget' (hlt.trans_le hon.size) ?_ (hx.follows.mono hoff hon)
    (hx'.follows.mono hoff hon)
  rw [hon.get y' hlt, Op.binary.injEq]
  exact hpow

/-- A power whose exponent folds to two is a square where folding is on. -/
theorem square_mirrors (h : Paired t₀ w.1 w.2) {x' y' : AtomId}
    (hx : Mirrored t₀.size w.1 w.2 x y) (hx' : Mirrored t₀.size w.1 w.2 x' y')
    (hkind : (w.1.get x).isBoolean = false) (htwo : (w.2.get y').constant? = some 2) :
    (mirroring t₀).Outcome w (mirroring t₀).Rel
      (applyOp false (.binary .pow) x (some x') false w.1)
      (applyOp true (.unary .square) y none false w.2) := by
  have hkind' := (h.isBoolean_eq hx.follows).trans hkind
  rw [applyOp_binary, applyOp_unary]
  refine intern_mirrors h ⟨hx.left, hx'.left, rfl, rfl⟩ ⟨hx.right, rfl, hkind', rfl⟩ rfl rfl nofun
    nofun fun off' on' a b hoff hon hget hget' => ?_
  refine .square hget hget' ?_ (hx.follows.mono hoff hon) (hx'.follows.mono hoff hon)
  rw [hon.get y' hx'.right.within.2, htwo]

/-- Both operands are applications of the operator, or neither is. -/
theorem operandOf?_mirrors (h : Paired t₀ off on) (hab : Mirrored t₀.size off on a b)
    (op : LeadOp) :
    (operandOf? op.unary (off.get a) = none ∧ operandOf? op.unary (on.get b) = none) ∨
      ∃ x y, operandOf? op.unary (off.get a) = some x ∧ operandOf? op.unary (on.get b) = some y ∧
        Mirrored t₀.size off on x y := by
  have hneg : op.unary ≠ .square := by cases op <;> nofun
  have hleft := h.soundOff.formed a hab.left.within
  have hright := h.soundOn.formed b hab.right.within
  cases hab.follows with
  | leaf ha =>
    left
    have hleaf := h.leaves.isInner ha
    rw [h.fromOff.get a ha, h.fromOn.get a ha]
    cases hget : t₀.get a with
    | sentinel | const | name => exact ⟨rfl, rfl⟩
    | apply | element =>
      rw [hget] at hleaf
      cases hleaf
  | @one _ _ x y op' folded folded' isBoolean hget hget' hx =>
    rw [hget, hget']
    rw [hget] at hleft
    rw [hget'] at hright
    match op', hleft, hright with
    | .unary op', hleft, hright =>
      by_cases hop : op' = op.unary
      · have hltx := hleft.1.within.2.trans hab.left.within.2
        have hlty := hright.1.within.2.trans hab.right.within.2
        exact .inr ⟨x, y, by simp [operandOf?, hop], by simp [operandOf?, hop],
          ⟨⟨hleft.1.within.1, hltx⟩, hleft.1.value⟩, ⟨⟨hright.1.within.1, hlty⟩, hright.1.value⟩, hx⟩
      · exact .inl ⟨by simp [operandOf?, hop], by simp [operandOf?, hop]⟩
  | two hget hget' =>
    left
    rw [hget, hget']
    exact ⟨by simp [operandOf?], by simp [operandOf?]⟩
  | square hget hget' =>
    left
    rw [hget, hget']
    exact ⟨by simp [operandOf?], by simp [operandOf?, hneg.symm]⟩
  | element hget hget' =>
    left
    rw [hget, hget']
    exact ⟨rfl, rfl⟩

theorem lead_mirrors (op : LeadOp) (start : Nat) (hab : Mirrored t₀.size w.1 w.2 a b) :
    (mirroring t₀).Agrees w (applyLead false op a start) (applyLead true op b start)
      (mirroring t₀).Rel := by
  intro h
  have hpaired : Paired t₀ w.1 w.2 := h
  rw [applyLead_eq, applyLead_eq, hpaired.isBoolean_eq hab.follows]
  split
  · rename_i hkind
    rcases operandOf?_mirrors hpaired hab op with ⟨hnone, hnone'⟩ | ⟨x, y, hx, hy, hxy⟩
    · rw [hnone, hnone']
      exact unary_mirrors hpaired hab op.unary hkind
    · rw [hx, hy]
      exact agrees_pure hxy h
  · exact .fault

theorem join_mirrors (op : BinaryOp) (start : Nat) {a' b' : AtomId}
    (hab : Mirrored t₀.size w.1 w.2 a b) (hab' : Mirrored t₀.size w.1 w.2 a' b') :
    (mirroring t₀).Agrees w (applyJoin false op a a' start) (applyJoin true op b b' start)
      (mirroring t₀).Rel := by
  intro h
  have hpaired : Paired t₀ w.1 w.2 := h
  rw [applyJoin_eq, applyJoin_eq, hpaired.isBoolean_eq hab.follows,
    hpaired.isBoolean_eq hab'.follows]
  cases htype : typeFault? op (w.1.get a).isBoolean (w.1.get a').isBoolean start with
  | some fault => exact .fault
  | none =>
    have hnumber (hop : op = .pow) : (w.1.get a).isBoolean = false := by
      rw [hop] at htype
      cases hkind : (w.1.get a).isBoolean with
      | false => rfl
      | true => simp [typeFault?, hkind] at htype
    simp only
    by_cases htwo : op = .pow ∧ (w.1.get a').constant? = some 2
    · have htwo' := hpaired.constant_eq hab'.follows htwo.2
      rw [if_pos htwo, if_pos ⟨htwo.1, htwo'⟩]
      exact unary_mirrors hpaired hab .square (hnumber htwo.1)
    · rw [if_neg htwo]
      by_cases htwo' : op = .pow ∧ (w.2.get b').constant? = some 2
      · obtain ⟨rfl, hconstant⟩ := htwo'
        rw [if_neg (by simp), if_pos ⟨rfl, hconstant⟩]
        exact square_mirrors hpaired hab hab' (hnumber rfl) hconstant
      · rw [if_neg htwo']
        by_cases hzero' : op = .div ∧ (w.2.get b').constant?.any (· == 0) = true
        · rw [if_pos hzero']
          exact .pardoned ⟨start, rfl⟩
        · have hzero : ¬(op = .div ∧ (w.1.get a').constant?.any (· == 0) = true) := by
            rintro ⟨hop, hzero⟩
            obtain ⟨x, hx, hx0⟩ := (Option.any_eq_true _ _).1 hzero
            refine hzero' ⟨hop, ?_⟩
            rw [hpaired.constant_eq hab'.follows hx]
            exact hx0
          rw [if_neg hzero', if_neg hzero]
          exact binary_mirrors hpaired hab hab' htwo'

theorem call_mirrors {op : UnaryOp} {name : String} (start : Nat)
    (hop : UnaryOp.ofFunctionName? name = some op) (hab : Mirrored t₀.size w.1 w.2 a b) :
    (mirroring t₀).Agrees w (applyCall false op name a start) (applyCall true op name b start)
      (mirroring t₀).Rel := by
  intro h
  have hpaired : Paired t₀ w.1 w.2 := h
  rw [applyCall_eq, applyCall_eq, hpaired.isBoolean_eq hab.follows]
  split
  · exact .fault
  · rename_i hkind
    have hfalse : decide (op = .not) = false := decide_eq_false (ne_not_of_ofFunctionName? hop)
    have hunary := unary_mirrors hpaired hab op (by rw [hfalse]; exact Bool.eq_false_iff.2 hkind)
    rwa [hfalse] at hunary

/-- Arguments are chained side by side. -/
theorem addChain_mirrors : ∀ {as bs : List AtomId} {off on : AtomTable}, Paired t₀ off on →
    as ≠ [] → List.Forall₂ (Mirrored t₀.size off on) as bs →
    (∃ x off' y on', addChain as off = .ok (x, off') ∧ addChain bs on = .ok (y, on') ∧
      Extends off off' ∧ Extends on on' ∧ Paired t₀ off' on' ∧ AtomTable.Within off'.size x ∧
      AtomTable.Within on'.size y ∧ Follows t₀.size off' on' x y) ∨
    addChain as off = .error (.grammar (.tooManyAtoms limit))
  | [], _, _, _, _, hne, _ => absurd rfl hne
  | [a], [b], off, on, h, _, .cons hab .nil =>
    .inl ⟨a, off, b, on, rfl, rfl, .refl off, .refl on, h, hab.left.within, hab.right.within,
      hab.follows⟩
  | a :: a' :: as, b :: b' :: bs, off, on, h, _, .cons hab hrest => by
    have hrunOff : addChain (a :: a' :: as) off =
        (addChain (a' :: as) off).bind fun r => r.2.intern (.element a r.1) := rfl
    have hrunOn : addChain (b :: b' :: bs) on =
        (addChain (b' :: bs) on).bind fun r => r.2.intern (.element b r.1) := rfl
    rw [hrunOff, hrunOn]
    rcases addChain_mirrors h (List.cons_ne_nil a' as) hrest with
      ⟨x, off', y, on', hoff, hon, hextOff, hextOn, hpaired, hx, hy, hxy⟩ | hfull
    · rw [hoff, hon]
      have hab' := hab.mono hextOff hextOn
      have hA : Formed false (fun _ => True) off' off'.size (.element a x) := ⟨hab'.left, hx⟩
      have hB : Formed true (fun _ => True) on' on'.size (.element b y) := ⟨hab'.right, hy⟩
      have hfollows (off'' on'' : AtomTable) (c d : AtomId) (hext : Extends off' off'')
          (hext' : Extends on' on'') (hc : off''.get c = .element a x)
          (hd : on''.get d = .element b y) : Follows t₀.size off'' on'' c d :=
        .element hc hd (hab'.follows.mono hext hext') (hxy.mono hext hext')
      show (∃ c off'' d on'', off'.intern (.element a x) = _ ∧ on'.intern (.element b y) = _ ∧ _) ∨
        off'.intern (.element a x) = _
      rcases hpaired.intern hA hB rfl rfl hfollows with
        ⟨c, off'', d, on'', hc, hd, hext, hext', hpaired', hcWithin, hdWithin, hget, hget'⟩ | hfull
      · exact .inl ⟨c, off'', d, on'', hc, hd, hextOff.trans hext, hextOn.trans hext', hpaired',
          hcWithin, hdWithin, hfollows off'' on'' c d hext hext' hget hget'⟩
      · exact .inr hfull
    · exact .inr (by rw [hfull]; rfl)

theorem any_isBoolean_mirrors (h : Paired t₀ off on) {as bs : List AtomId}
    (habs : List.Forall₂ (Mirrored t₀.size off on) as bs) :
    (bs.any fun b => (on.get b).isBoolean) = as.any fun a => (off.get a).isBoolean := by
  induction habs with
  | nil => rfl
  | cons hab _ ih => rw [List.any_cons, List.any_cons, h.isBoolean_eq hab.follows, ih]

theorem list_mirrors (op : ListOp) (name : String) (start : Nat) {as bs : List AtomId}
    (habs : List.Forall₂ (Mirrored t₀.size w.1 w.2) as bs) (hthree : 3 ≤ as.length) :
    (mirroring t₀).Agrees w (applyList op name as start) (applyList op name bs start)
      (mirroring t₀).Rel := by
  intro h
  have hpaired : Paired t₀ w.1 w.2 := h
  rcases habs with _ | @⟨first, first', rest, rest', hfirst, hrest⟩
  · simp at hthree
  have hne : rest ≠ [] := by
    rintro rfl
    simp at hthree
  rw [applyList_cons, applyList_cons, any_isBoolean_mirrors hpaired (.cons hfirst hrest)]
  split
  · exact .fault
  · rcases addChain_mirrors hpaired hne hrest with
      ⟨x, off', y, on', hoff, hon, hextOff, hextOn, hpaired', hx, hy, hxy⟩ | hfull
    · rw [hoff, hon]
      have hfirst' := hfirst.mono hextOff hextOn
      have hlast : (mirroring t₀).Outcome (off', on') (mirroring t₀).Rel
          (off'.intern (.apply (.list op) first (some x) none false))
          (on'.intern (.apply (.list op) first' (some y) none false)) := by
        refine intern_mirrors hpaired' ⟨hfirst'.left, hx, rfl, rfl⟩ ⟨hfirst'.right, hy, rfl, rfl⟩
          rfl rfl nofun nofun fun off'' on'' a b hext hext' hget hget' => ?_
        exact .two hget hget' (hy.2.trans_le hext'.size) (fun h => nomatch h.1)
          (hfirst'.follows.mono hext hext') (hxy.mono hext hext')
      have hgrows : (mirroring t₀).Grows w (off', on') := ⟨hextOff, hextOn⟩
      exact hlast.since hgrows
    · rw [hfull]
      exact .excused rfl

/-- Operators without folding go side by side with operators with folding. -/
theorem mirroring_simulates : Simulates (mirroring t₀) (algebra false) (algebra true)
    (fun _ => False) (fun _ => False) where
  number _ _ := False.elim
  name _ _ := False.elim
  reciprocal _ _ _ _ := False.elim
  lead _ op _ _ start hab := lead_mirrors op start hab
  join _ op _ _ _ _ start hab hab' := join_mirrors op start hab hab'
  call _ _ _ _ _ start hop hab := call_mirrors start hop hab
  callList _ op name _ _ start habs hthree _ := list_mirrors op name start habs hthree

end Assembly

section Leaves

variable {items : Items} {t t' : AtomTable} {fold : Bool}

/-- A literal or a name is found or added. -/
theorem AtomTable.Leaves.intern (h : Leaves t) {atom : Atom}
    (hatom : (∃ x, atom = .const x false) ∨ ∃ n, atom = .name n)
    (hintern : t.intern atom = .ok (a, t')) : Leaves t' ∧ Extends t t' ∧ Within t'.size a := by
  have hformed : Formed true (fun _ => True) t t.size atom := by
    rcases hatom with ⟨x, rfl⟩ | ⟨n, rfl⟩
    · exact ⟨rfl, trivial⟩
    · trivial
  rcases h.sound.intern_cases hformed with ⟨id, hid, hwithin, -⟩ |
    ⟨-, ⟨-, t'', hnew, hext, -, hsize, hget⟩ | ⟨-, hfull⟩⟩
  · rw [hintern] at hid
    cases hid
    exact ⟨h, .refl t, hwithin⟩
  · rw [hintern] at hnew
    cases hnew
    have hpos := h.pos
    refine ⟨⟨by omega, by rw [hext.get 0 hpos, h.sentinel], fun id hid => ?_⟩, hext, hpos, by omega⟩
    by_cases hlt : id < t.size
    · rw [hext.get id hlt]
      exact h.leaf id ⟨hid.1, hlt⟩
    · obtain rfl : id = t.size := by
        have hlt' := hid.2
        omega
      rw [hget]
      exact hatom
  · rw [hintern] at hfull
    cases hfull

/-- The literals and names of a text are read alike with folding and without. -/
theorem pieces_algebra (items : Items) :
    Reduction.pieces (algebra true) items = Reduction.pieces (algebra false) items := by
  fun_induction Reduction.spell items with
  | case1 => rfl
  | case2 start f stop openStart openStop rest ih => rw [Reduction.pieces, Reduction.pieces, ih]
  | case3 start item stop rest hname ih =>
    cases item <;> simp only [Reduction.pieces, ih] <;> rfl

/-- Reading the literals and names of a text leaves a table of literals and names, and operands that
are there. -/
theorem AtomTable.Leaves.pieces (items : Items) : ∀ {t t' : AtomTable}
    {ps : List (Spanned (Piece AtomId))}, Leaves t →
      Reduction.pieces (algebra fold) items t = .ok (ps, t') →
      Leaves t' ∧ Extends t t' ∧
        ∀ s a e, ⟨s, .part (.operand a), e⟩ ∈ ps → Within t'.size a := by
  fun_induction Reduction.spell items with
  | case1 =>
    intro t t' ps h hrun
    cases hrun
    exact ⟨h, .refl t, by simp⟩
  | case2 start f stop openStart openStop rest ih =>
    intro t t' ps h hrun
    rw [Reduction.pieces] at hrun
    obtain ⟨qs, t'', hrest, hps⟩ := build_bind_eq_ok.1 hrun
    cases hps
    obtain ⟨hleaves, hext, hwithin⟩ := ih h hrest
    refine ⟨hleaves, hext, fun s a e hmem => ?_⟩
    rcases List.mem_cons.1 hmem with hmem | hmem
    · cases hmem
    · exact hwithin s a e hmem
  | case3 start item stop rest hname ih =>
    intro t t' ps h hrun
    -- the pieces behind one that is read, with the operand that it is, if it is one
    have behind {t₁ : AtomTable} {piece : Piece AtomId} {qs : List (Spanned (Piece AtomId))}
        (hfirst : Leaves t₁ ∧ Extends t t₁ ∧ ∀ a, piece = .part (.operand a) → Within t₁.size a)
        (hrest : Reduction.pieces (algebra fold) rest t₁ = .ok (qs, t')) :
        Leaves t' ∧ Extends t t' ∧ ∀ s a e,
          ⟨s, .part (.operand a), e⟩ ∈ (⟨start, piece, stop⟩ : Spanned (Piece AtomId)) :: qs →
            Within t'.size a := by
      obtain ⟨hleaves, hext, hpiece⟩ := hfirst
      obtain ⟨hleaves', hext', hwithin⟩ := ih hleaves hrest
      refine ⟨hleaves', hext.trans hext', fun s a e hmem => ?_⟩
      rcases List.mem_cons.1 hmem with hmem | hmem
      · cases hmem
        have ha := hpiece a rfl
        exact ⟨ha.1, ha.2.trans_le hext'.size⟩
      · exact hwithin s a e hmem
    cases item with
    | number x =>
      simp only [Reduction.pieces, bind_map_left] at hrun
      obtain ⟨a, t₁, ha, hrun⟩ := build_bind_eq_ok.1 hrun
      obtain ⟨qs, t₂, hrest, hps⟩ := build_bind_eq_ok.1 hrun
      cases hps
      obtain ⟨hleaves, hext, hwithin⟩ := h.intern (.inl ⟨x, rfl⟩) ha
      exact behind ⟨hleaves, hext, by rintro _ ⟨rfl⟩; exact hwithin⟩ hrest
    | name n =>
      rw [Reduction.pieces] at hrun
      · simp only [bind_map_left] at hrun
        obtain ⟨a, t₁, ha, hrun⟩ := build_bind_eq_ok.1 hrun
        obtain ⟨qs, t₂, hrest, hps⟩ := build_bind_eq_ok.1 hrun
        cases hps
        obtain ⟨hleaves, hext, hwithin⟩ := h.intern (.inr ⟨n, rfl⟩) ha
        exact behind ⟨hleaves, hext, by rintro _ ⟨rfl⟩; exact hwithin⟩ hrest
      · exact hname
    | lead | join | comma | opening | closing =>
      simp only [Reduction.pieces, pure_bind] at hrun
      obtain ⟨qs, t₂, hrest, hps⟩ := build_bind_eq_ok.1 hrun
      cases hps
      exact behind ⟨h, .refl t, by simp⟩ hrest

end Leaves

theorem AtomTable.Leaves.empty : Leaves AtomTable.empty :=
  ⟨Nat.zero_lt_one, rfl, fun _ hid => absurd hid.1 (Nat.not_lt.2 (Nat.le_of_lt_succ hid.2))⟩

/-- Another root keeps the tables paired. -/
theorem AtomTable.Paired.root (h : Paired t₀ off on) (a b : AtomId) :
    Paired t₀ { off with root := a } { on with root := b } := by
  have hadds {t : AtomTable} {c : AtomId} : Adds t { t with root := c } (·.isInner = true) :=
    fun _ hid hid' => absurd hid' (Nat.not_lt.2 hid)
  exact h.grow (extends_root off a) (extends_root on b) (h.soundOff.root a) (h.soundOn.root b) hadds
    hadds h.canonical (fun _ hid hid' => absurd hid' (Nat.not_lt.2 hid))
    (fun _ hid hid' => absurd hid' (Nat.not_lt.2 hid)) h.size

/-- A text is assembled to tables that are paired, or fails alike, unless the table without folding
is full or folding finds a zero divisor. -/
theorem assemble_mirrors (items : Items) :
    (∃ t₀ off on, assemble false items = .ok off ∧ assemble true items = .ok on ∧
      Paired t₀ off on ∧ Mirrored t₀.size off on off.root on.root) ∨
    (∃ f, assemble false items = .error f ∧ assemble true items = .error f) ∨
    assemble false items = .error (.grammar (.tooManyAtoms limit)) ∨
    ∃ start, assemble true items = .error (.arithmetic (.divisionByZero start)) := by
  have hrun (fold : Bool) : Reduction.run (algebra fold) items AtomTable.empty =
      (Reduction.pieces (algebra false) items AtomTable.empty).bind fun r =>
        Reduction.reduce (algebra fold) [] [] r.1 r.2 := by
    rw [Reduction.run]
    cases fold with
    | false => rfl
    | true => rw [pieces_algebra]; rfl
  simp only [assemble, StateT.run, bind, Except.bind, hrun]
  cases hpieces : Reduction.pieces (algebra false) items AtomTable.empty with
  | error f => exact .inr (.inl ⟨f, rfl, rfl⟩)
  | ok r =>
    obtain ⟨ps, t₀⟩ := r
    obtain ⟨hleaves, -, hwithin⟩ := Leaves.pieces items .empty hpieces
    have hmatches : Reduction.Matches (mirroring t₀) (algebra true) (t₀, t₀) ps ps := by
      refine Reduction.matches_self fun s a e hmem => ?_
      have ha := hwithin s a e hmem
      have hoperand : t₀.IsOperand t₀.size a := by
        refine ⟨ha, fun x y hget => ?_⟩
        have hinner := hleaves.isInner ha.2
        rw [hget] at hinner
        cases hinner
      exact ⟨hoperand, hoperand, .leaf ha.2⟩
    have hagrees := Reduction.reduce_agrees mirroring_simulates .nil .nil hmatches
      (Paired.start hleaves)
    simp only
    generalize Reduction.reduce (algebra false) [] [] ps t₀ = x at hagrees ⊢
    generalize Reduction.reduce (algebra true) [] [] ps t₀ = y at hagrees ⊢
    cases hagrees with
    | @ok off on a b hgrows hpaired hroot =>
      have hpaired : Paired t₀ off on := hpaired
      exact .inl ⟨t₀, _, _, rfl, rfl, hpaired.root a b,
        hroot.mono (extends_root off a) (extends_root on b)⟩
    | fault => exact .inr (.inl ⟨_, rfl, rfl⟩)
    | excused hexcused =>
      rw [show _ = _ from hexcused]
      exact .inr (.inr (.inl rfl))
    | pardoned hpardoned =>
      obtain ⟨start, rfl⟩ := hpardoned
      exact .inr (.inr (.inr ⟨start, rfl⟩))

namespace AtomTable

variable {t : AtomTable} {k : Nat} {f g : AtomId → Option Float} {bindings : Bindings}
  {settings soff son : Settings}

/-! ### What is evaluated -/

theorem SquaresPowers.congr (hback : t.Backward) (h : t.SquaresPowers k f)
    (hfg : ∀ id : Nat, id < k → f id = g id) : t.SquaresPowers k g := by
  intro id hid x x' folded isBoolean hget htwo v hv
  have hx := (hback id x (by simp [hget, Atom.operands])).trans hid
  have hx' := (hback id x' (by simp [hget, Atom.operands])).trans hid
  exact h id hid x x' folded isBoolean hget (by rw [hfg x' hx', htwo]) v (by rw [hfg x hx, hv])

theorem SquaresPowers.of_prune (hback : t.Backward)
    (h : t.prune.SquaresPowers (position t.kept k) (t.keptValue f)) : t.SquaresPowers k f := by
  intro id hid x x' folded isBoolean hget htwo
  have hlt := lt_size_of_get hget nofun
  have hkept : id ∈ t.kept := mem_kept.2 ⟨hlt, by simp [keeps, hget, Atom.isConst]⟩
  have hx := hback.mem_kept hlt (x := x) (by simp [hget, Atom.operands])
  have hx' := hback.mem_kept hlt (x := x') (by simp [hget, Atom.operands])
  have hsquare := h (position t.kept id) (position_mono t.kept_sorted hkept hid)
    (position t.kept x) (position t.kept x') folded isBoolean
    (by rw [get_prune_position hkept, hget]; rfl)
  rw [keptValue_position hx, keptValue_position hx'] at hsquare
  exact hsquare htwo

/-- What holds of the values that an evaluation of a table computes holds of its valuation, as far
as the evaluation comes. -/
theorem SquaresPowers.of_firstValues (hback : t.Backward) (hf : t.Valuation bindings f)
    (hk : k ≤ t.size) (hall : ∀ id < k, (f id).isSome)
    (h : ∀ vals, t.firstValues bindings k = .ok vals → t.SquaresPowers k (vals[·]?)) :
    t.SquaresPowers k f := by
  obtain ⟨vals, hvals, hsize, hvalues⟩ := hf.firstValues_ok hback hk hall
  refine (h vals hvals).congr hback fun id hid => ?_
  rw [getElem?_values (hsize.symm ▸ hid), hvalues id hid]

/-- What holds of the values of the table that is evaluated holds of any valuation before. -/
theorem SquaresPowers.of_optimize (hfold : settings.foldConstants = false) (hback : t.Backward)
    (hf : t.Valuation bindings f) (hk : k ≤ t.size) (hall : ∀ id < k, (f id).isSome)
    (h : ∀ k vals, (t.optimize settings).firstValues bindings k = .ok vals →
      (t.optimize settings).SquaresPowers k (vals[·]?)) : t.SquaresPowers k f := by
  have hoptimize : t.optimize settings = if settings.pruneConstants then t.prune else t := by
    simp [optimize, hfold]
  rw [hoptimize] at h
  split at h
  · refine .of_prune hback (.of_firstValues hback.prune (hf.prune hback) ?_ (fun p hp => ?_) (h _))
    · rw [size_prune]
      exact (List.takeWhile_prefix _).length_le
    · have hlt : p < t.kept.length := hp.trans_le (List.takeWhile_prefix _).length_le
      have hy := List.getElem?_eq_getElem hlt
      rw [keptValue, hy, Option.getD_some]
      exact hall _ (lt_of_lt_position hp hy)
  · exact .of_firstValues hback hf hk hall (h k)

/-- An atom without a value raises nothing to a power. -/
theorem SquaresPowers.succ (hf : t.Valuation bindings f) (hk : k < t.size) (hnone : f k = none)
    (h : t.SquaresPowers k f) : t.SquaresPowers (k + 1) f := by
  intro id hid x x' folded isBoolean hget htwo v hv
  rcases Nat.lt_or_eq_of_le (Nat.le_of_lt_succ hid) with hlt | rfl
  · exact h id hlt x x' folded isBoolean hget htwo v hv
  · rw [hf id hk, hget, meaning_binary, hv, htwo] at hnone
    cases hnone

/-- A table without powers. -/
theorem squaresPowers_of_atoms (h : t.atoms.all (fun atom => !atom.isPower) = true) :
    t.SquaresPowers k f := by
  intro id _ x x' folded isBoolean hget _
  have hid : id < t.atoms.size := lt_size_of_get hget nofun
  have hatom := Array.all_eq_true.1 h id hid
  rw [get, Array.getElem?_eq_getElem hid, Option.getD_some] at hget
  rw [hget] at hatom
  cases hatom

theorem text_of_inner (hinner : Adds t₀ t (·.isInner = true)) :
    Adds t₀ t fun atom => atom.text? = none :=
  hinner.imp fun atom hatom => by cases atom <;> cases hatom <;> rfl

theorem Paired.names (h : Paired t₀ off on) : off.names = on.names := by
  rw [names_of_adds h.fromOff (text_of_inner h.innerOff),
    names_of_adds h.fromOn (text_of_inner h.innerOn)]

/-- The names come from the literals and names that the table grows from. -/
theorem Leaves.namesFirst (h : Leaves t₀) (hext : Extends t₀ t)
    (hinner : Adds t₀ t (·.isInner = true)) : t.NamesFirst := by
  have hleaves : t₀.NamesFirst := by
    intro id i n hlist
    have hleaf := h.isInner (lt_size_of_get rfl (Atom.ne_sentinel_of_appliesList hlist))
    cases hatom : t₀.get id <;> rw [hatom] at hlist hleaf <;> first | cases hlist | cases hleaf
  exact hleaves.grow hext (text_of_inner hinner)

/-- Tables that are paired evaluate alike. -/
theorem Mirrored.evaluate_eq (h : Paired t₀ off on)
    (hroot : Mirrored t₀.size off on off.root on.root) (hoff : soff.foldConstants = false)
    (hon : son.foldConstants = true)
    (hsquares : (∀ n ∈ (off.optimize soff).names, (bindings n).isSome) →
      ∀ k vals, (off.optimize soff).firstValues bindings k = .ok vals →
        (off.optimize soff).SquaresPowers k (vals[·]?)) :
    (off.optimize soff).evaluate bindings = (on.optimize son).evaluate bindings := by
  have hbackOff := h.soundOff.backward
  have hbackOn := h.soundOn.backward
  have hrootOff := hroot.left.within.2
  have hrootOn := hroot.right.within.2
  rw [evaluate_optimize (hoff ▸ h.soundOff) hrootOff, evaluate_optimize (hon ▸ h.soundOn) hrootOn]
  refine evaluate_congr hbackOff hbackOn hrootOff hrootOn (h.leaves.namesFirst h.fromOff h.innerOff)
    (h.leaves.namesFirst h.fromOn h.innerOn) h.names fun hbound => ?_
  have hsquares := hsquares (names_bound_iff.1 ((names_optimize soff).symm ▸ hbound))
  obtain ⟨f, hf⟩ := exists_valuation hbackOff bindings
  obtain ⟨g, hg⟩ := exists_valuation hbackOn bindings
  rcases hf.evaluate_eq hbackOff hrootOff with ⟨x, hx, hall, hrun⟩ | ⟨a, ha, hnone, hbefore, hrun⟩
  · have hsquares := SquaresPowers.of_optimize hoff hbackOff hf le_rfl hall hsquares
    obtain ⟨y, hy, hrun'⟩ :=
      hg.evaluate_ok hbackOn hrootOn ((h.isSome_iff hf hg hsquares).1 hall)
    have hvalue := (h.value hf hg hsquares le_rfl hroot.follows hrootOff hrootOn).1
    rw [hx, hy] at hvalue
    rw [hrun, hrun', Option.some.inj hvalue]
  · -- the first atom without a value corresponds to one without a value
    have hsquares :=
      (SquaresPowers.of_optimize hoff hbackOff hf ha.le hbefore hsquares).succ hf ha hnone
    obtain ⟨b, hb, hab⟩ := h.covered a ha
    have hnone' : g b = none := by
      rw [← (h.value hf hg hsquares ha hab (Nat.lt_succ_self a) hb).1, hnone]
    rcases evaluate_of_names hbackOff hrootOff hbound with ⟨x, hx⟩ | hstrays
    · rw [hx] at hrun
      cases hrun
    · rcases evaluate_of_names hbackOn hrootOn (h.names ▸ hbound) with ⟨x, hx⟩ | hstrays'
      · have hsome := (hg.of_evaluate hbackOn hrootOn hx).2 b hb
        rw [hnone'] at hsome
        cases hsome
      · rw [hstrays, hstrays']

end AtomTable

/-- What compiles with folding compiles without it, unless the text is too large, and both tables
evaluate to the same value, end at the same name without one, or both break down. Where only folding
fails, a divisor folds to zero. -/
theorem compile_folding (text : String) (settings : Settings) :
    (∀ t, compile text { settings with foldConstants := true } = .ok t →
      (∃ t', compile text { settings with foldConstants := false } = .ok t' ∧
        ∀ bindings, ((∀ n ∈ t'.names, (bindings n).isSome) →
            ∀ k vals, t'.firstValues bindings k = .ok vals → t'.SquaresPowers k (vals[·]?)) →
          ((∃ v, t.evaluate bindings = .ok v) ∨
            (∃ n, t.evaluate bindings = .error (.evaluation (.unbound n))) ∨
            t.evaluate bindings = .error (.breakdown .noSegment)) ∧
          t'.evaluate bindings = t.evaluate bindings) ∨
      (limit ≤ text.length ∧ compile text { settings with foldConstants := false } =
        .error (.grammar (.tooManyAtoms limit)))) ∧
    ∀ t' fault, compile text { settings with foldConstants := false } = .ok t' →
      compile text { settings with foldConstants := true } = .error fault →
        ∃ start, fault = .arithmetic (.divisionByZero start) := by
  have hfull := @compile_full text { settings with foldConstants := false }
  have hitems (fold : Bool) : itemsOf text { settings with foldConstants := fold } =
      itemsOf text settings := rfl
  simp only [compile, hitems, bind, Except.bind, pure, Except.pure] at hfull ⊢
  generalize itemsOf text settings = x at hfull ⊢
  rcases x with f | items
  · exact ⟨by simp, by simp⟩
  simp only at hfull ⊢
  rcases assemble_mirrors items with ⟨t₀, off, on, hoff, hon, hpaired, hroot⟩ |
    ⟨f, hoff, hon⟩ | hoff | ⟨start, hon⟩
  · rw [hoff, hon]
    refine ⟨?_, by simp⟩
    rintro t ⟨rfl⟩
    refine .inl ⟨_, rfl, fun bindings hsquares =>
      ⟨?_, hroot.evaluate_eq hpaired rfl rfl hsquares⟩⟩
    rw [evaluate_optimize hpaired.soundOn hroot.right.within.2]
    rcases evaluate_cases hpaired.soundOn.backward hroot.right.within.2 bindings with
      hok | ⟨-, n, -, -, hn⟩ | hstrays
    · exact .inl hok
    · exact .inr (.inl ⟨n, hn⟩)
    · exact .inr (.inr hstrays)
  · rw [hoff, hon]
    exact ⟨by simp, by simp⟩
  · rw [hoff] at hfull ⊢
    exact ⟨fun _ _ => .inr ⟨hfull rfl, rfl⟩, by simp⟩
  · rw [hon]
    refine ⟨by simp, fun t' fault _ hfault => ?_⟩
    cases hfault
    exact ⟨start, rfl⟩

theorem compile_folding_half : (∃ t t', compile "x/(1+1)" {} = .ok t ∧
      compile "x/(1+1)" { foldConstants := false } = .ok t' ∧
      ∀ bindings, t'.evaluate bindings = t.evaluate bindings) ∧
    ∃ start, compile "1/(1-1)" {} = .error (.arithmetic (.divisionByZero start)) := by
  have hoff : (compile "x/(1+1)" { foldConstants := false }).toOption.any
      (fun t => t.atoms.all fun atom => !atom.isPower) = true := by decide +kernel
  have hon : (compile "x/(1+1)" {}).isOk = true := by decide +kernel
  have hoff' : (compile "1/(1-1)" { foldConstants := false }).isOk = true := by decide +kernel
  have hon' : (compile "1/(1-1)" {}).isOk = false := by decide +kernel
  constructor
  · cases ht : compile "x/(1+1)" {} with
    | error f =>
      rw [ht] at hon
      cases hon
    | ok t =>
      rcases (compile_folding "x/(1+1)" {}).1 t ht with ⟨t', ht', hevaluate⟩ | ⟨-, hfull⟩
      · rw [ht'] at hoff
        exact ⟨t, t', rfl, ht', fun bindings =>
          (hevaluate bindings fun _ _ _ _ => squaresPowers_of_atoms hoff).2⟩
      · rw [hfull] at hoff
        cases hoff
  · cases ht : compile "1/(1-1)" {} with
    | ok t =>
      rw [ht] at hon'
      cases hon'
    | error f =>
      cases ht' : compile "1/(1-1)" { foldConstants := false } with
      | error f' =>
        rw [ht'] at hoff'
        cases hoff'
      | ok t' =>
        obtain ⟨start, rfl⟩ := (compile_folding "1/(1-1)" {}).2 t' f ht' ht
        exact ⟨start, rfl⟩

end Behavioral
