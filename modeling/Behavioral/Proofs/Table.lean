import Behavioral.Expr.Assembly
import Behavioral.Proofs.Contents
import Behavioral.Proofs.Tree

/-!
# Tables as they are assembled

A table grows at its end only (`Extends`), and each atom refers to atoms before it and carries what
its operator folds to (`Formed`), so an atom is determined by its content as long as no two of the
literals are zeros of different signs. Interning therefore finds or adds exactly the atom it is
given (`Sound.intern`).
-/

namespace Behavioral.AtomTable

variable {fold : Bool} {Leaf : ParseTree → Prop} {t t' t'' : AtomTable} {n n' : Nat}
  {a b id : AtomId} {atom : Atom}

/-- The atoms stay in their places. -/
structure Extends (t t' : AtomTable) : Prop where
  size : t.size ≤ t'.size
  get : ∀ id < t.size, t'.get id = t.get id

theorem Extends.refl (t : AtomTable) : Extends t t :=
  ⟨Nat.le_refl _, fun _ _ => rfl⟩

theorem Extends.trans (h : Extends t t') (h' : Extends t' t'') : Extends t t'' :=
  ⟨Nat.le_trans h.size h'.size, fun id hid =>
    (h'.get id (Nat.lt_of_lt_of_le hid h.size)).trans (h.get id hid)⟩

/-- The atoms behind those of the smaller table have the property. -/
def Adds (t t' : AtomTable) (P : Atom → Prop) : Prop :=
  ∀ id, t.size ≤ id → id < t'.size → P (t'.get id)

theorem adds_refl {P : Atom → Prop} : Adds t t P :=
  fun _ hid hid' => absurd hid' (Nat.not_lt.2 hid)

theorem Adds.trans {P : Atom → Prop} (h : Adds t t' P) (h' : Adds t' t'' P)
    (hext : Extends t' t'') : Adds t t'' P := by
  intro id hid hid''
  rcases Nat.lt_or_ge id t'.size with hid' | hid'
  · rw [hext.get id hid']
    exact h id hid hid'
  · exact h' id hid' hid''

theorem Adds.imp {P Q : Atom → Prop} (h : Adds t t' P) (hpq : ∀ atom, P atom → Q atom) :
    Adds t t' Q :=
  fun id hid hid' => hpq _ (h id hid hid')

theorem adds_of_size (hsize : t'.size = t.size + 1) (hget : t'.get t.size = atom) :
    Adds t t' (· = atom) := by
  intro id hid hid'
  obtain rfl : id = t.size := by omega
  exact hget

/-- An earlier atom that is an argument or the rest of a chain. -/
def Within (n b : Nat) : Prop :=
  0 < b ∧ b < n

/-- An earlier atom with a value of its own. -/
structure IsOperand (t : AtomTable) (n a : Nat) : Prop where
  within : Within n a
  value : ∀ x y, t.get a ≠ .element x y

/-- An atom that may stand at the position: its operands come before, and it carries what its
operator folds to if `fold` asks for it. -/
def Formed (fold : Bool) (Leaf : ParseTree → Prop) (t : AtomTable) (n : Nat) : Atom → Prop
  | .const x isBoolean => isBoolean = false ∧ Leaf (.number x)
  | .name text => Leaf (.name text)
  | .element a b => t.IsOperand n a ∧ Within n b
  | .apply (.unary op) a none folded isBoolean => t.IsOperand n a ∧ isBoolean = decide (op = .not) ∧
      (t.get a).isBoolean = isBoolean ∧
      folded = if fold then (t.get a).constant?.map op.apply else none
  | .apply (.binary op) a (some b) folded isBoolean => t.IsOperand n a ∧ t.IsOperand n b ∧
      isBoolean = op.isBoolean ∧ folded = if fold then
        (t.get a).constant?.bind fun x => (t.get b).constant?.map (op.apply x) else none
  | .apply (.list _) a (some b) folded isBoolean => t.IsOperand n a ∧ Within n b ∧
      isBoolean = false ∧ folded = none
  | _ => False

/-- The first atom is the sentinel, and every other one is formed. -/
structure Sound (fold : Bool) (Leaf : ParseTree → Prop) (t : AtomTable) : Prop where
  pos : 0 < t.size
  sentinel : t.get 0 = .sentinel
  formed : ∀ id, Within t.size id → Formed fold Leaf t id (t.get id)

theorem get_of_size_le (h : t.size ≤ id) : t.get id = .sentinel := by
  simp [get, Array.getElem?_eq_none h]

/-- Every other atom than the sentinel is among the atoms. -/
theorem lt_size_of_get (hget : t.get id = atom) (hatom : atom ≠ .sentinel) : id < t.size := by
  by_contra hge
  exact hatom (hget.symm.trans (get_of_size_le (Nat.le_of_not_lt hge)))

theorem Sound.within_of_get (h : Sound fold Leaf t) (hget : t.get id = atom)
    (hatom : atom ≠ .sentinel) : Within t.size id := by
  refine ⟨Nat.pos_of_ne_zero ?_, lt_size_of_get hget hatom⟩
  rintro rfl
  exact hatom (hget.symm.trans h.sentinel)

theorem IsOperand.mono (h : t.IsOperand n a) (hext : Extends t t') (hn : n ≤ t.size)
    (hn' : n ≤ n') : t'.IsOperand n' a := by
  refine ⟨⟨h.within.1, Nat.lt_of_lt_of_le h.within.2 hn'⟩, fun x y => ?_⟩
  rw [hext.get a (Nat.lt_of_lt_of_le h.within.2 hn)]
  exact h.value x y

theorem Formed.mono (hext : Extends t t') (hn : n ≤ t.size) (h : Formed fold Leaf t n atom) :
    Formed fold Leaf t' n atom := by
  have operand {a : AtomId} (ha : t.IsOperand n a) : t'.IsOperand n a :=
    ha.mono hext hn (Nat.le_refl n)
  have get {a : AtomId} (ha : t.IsOperand n a) : t'.get a = t.get a :=
    hext.get a (Nat.lt_of_lt_of_le ha.within.2 hn)
  match atom, h with
  | .const _ _, h => exact h
  | .name _, h => exact h
  | .element _ _, h => exact ⟨operand h.1, h.2⟩
  | .apply (.unary _) _ none _ _, ⟨ha, h⟩ => exact ⟨operand ha, (get ha).symm ▸ h⟩
  | .apply (.binary _) _ (some _) _ _, ⟨ha, hb, h⟩ =>
    exact ⟨operand ha, operand hb, (get ha).symm ▸ (get hb).symm ▸ h⟩
  | .apply (.list _) _ (some _) _ _, ⟨ha, h⟩ => exact ⟨operand ha, h⟩

/-- The operands of an atom come before it, behind the sentinel. -/
theorem Formed.operands_within (h : Formed fold Leaf t n atom) :
    ∀ x ∈ atom.operands, Within n x := by
  match atom, h with
  | .const _ _, _ => simp [Atom.operands]
  | .name _, _ => simp [Atom.operands]
  | .element _ _, ⟨ha, hb⟩ => simpa [Atom.operands] using ⟨ha.within, hb⟩
  | .apply (.unary _) _ none _ _, ⟨ha, _⟩ => simpa [Atom.operands] using ha.within
  | .apply (.binary _) _ (some _) _ _, ⟨ha, hb, _⟩ =>
    simpa [Atom.operands] using ⟨ha.within, hb.within⟩
  | .apply (.list _) _ (some _) _ _, ⟨ha, hb, _⟩ => simpa [Atom.operands] using ⟨ha.within, hb⟩

/-- No two of the literals are zeros of different signs. -/
def Distinct (Leaf : ParseTree → Prop) : Prop :=
  ¬(Leaf (.number 0) ∧ Leaf (.number (-0)))

theorem Distinct.eq (h : Distinct Leaf) {x y : Float} (hx : Leaf (.number x))
    (hy : Leaf (.number y)) (hxy : Atom.sameNumber x y = true) : x = y := by
  rcases Double.eq_or_zeros_of_sameNumber hxy with rfl | ⟨rfl | rfl, rfl | rfl⟩
  · rfl
  · rfl
  · exact absurd ⟨hx, hy⟩ h
  · exact absurd ⟨hy, hx⟩ h
  · rfl

/-- What an operator carries follows from the operator and its operands. -/
theorem Formed.apply_eq {op : Op} {b : Option AtomId} {folded folded' : Option Float}
    {isBoolean isBoolean' : Bool} (h : Formed fold Leaf t n (.apply op a b folded isBoolean))
    (h' : Formed fold Leaf t n' (.apply op a b folded' isBoolean')) :
    folded = folded' ∧ isBoolean = isBoolean' := by
  match op, b with
  | .unary _, none =>
    obtain ⟨-, hb, -, hf⟩ := h
    obtain ⟨-, hb', -, hf'⟩ := h'
    exact ⟨hf.trans hf'.symm, hb.trans hb'.symm⟩
  | .binary _, some _ =>
    obtain ⟨-, -, hb, hf⟩ := h
    obtain ⟨-, -, hb', hf'⟩ := h'
    exact ⟨hf.trans hf'.symm, hb.trans hb'.symm⟩
  | .list _, some _ =>
    obtain ⟨-, -, hb, hf⟩ := h
    obtain ⟨-, -, hb', hf'⟩ := h'
    exact ⟨hf.trans hf'.symm, hb.trans hb'.symm⟩
  | .unary _, some _ | .binary _, none | .list _, none => exact h.elim

/-- An atom is determined by its content, a constant if the literals allow it. -/
theorem Formed.eq_of_sameContent {atom' : Atom}
    (hdistinct : ∀ x isBoolean, atom' = .const x isBoolean → Distinct Leaf)
    (h : Formed fold Leaf t n atom) (h' : Formed fold Leaf t n' atom')
    (hsame : atom.sameContent atom' = true) : atom = atom' := by
  cases atom <;> cases atom' <;> simp only [Atom.sameContent, Bool.and_eq_true, beq_iff_eq,
    Bool.false_eq_true] at hsame
  · obtain ⟨rfl, hx⟩ := h
    obtain ⟨rfl, hy⟩ := h'
    rw [(hdistinct _ _ rfl).eq hx hy hsame.2]
  · obtain ⟨⟨rfl, rfl⟩, rfl⟩ := hsame
    obtain ⟨rfl, rfl⟩ := h.apply_eq h'
    rfl
  · rw [hsame.1, hsame.2]
  · rw [hsame]

theorem get_push_lt {id : AtomId} (h : id < t.size) :
    AtomTable.get { t with atoms := t.atoms.push atom } id = t.get id := by
  simp only [get, Array.getElem?_push_lt h, size] at h ⊢
  simp [h]

theorem get_push_size : AtomTable.get { t with atoms := t.atoms.push atom } t.size = atom := by
  simp [get, size]

theorem size_push : AtomTable.size { t with atoms := t.atoms.push atom } = t.size + 1 := by
  simp [size]

theorem extends_push : Extends t { t with atoms := t.atoms.push atom } :=
  ⟨size_push ▸ Nat.le_succ _, fun _ hid => get_push_lt hid⟩

theorem Sound.push (hsound : Sound fold Leaf t) (hatom : Formed fold Leaf t t.size atom) :
    Sound fold Leaf { t with atoms := t.atoms.push atom } := by
  refine ⟨size_push ▸ Nat.succ_pos _, ?_, fun id hid => ?_⟩
  · rw [get_push_lt hsound.pos, hsound.sentinel]
  · rw [size_push] at hid
    rcases Nat.lt_or_eq_of_le (Nat.le_of_lt_succ hid.2) with hlt | rfl
    · rw [get_push_lt hlt]
      exact (hsound.formed id ⟨hid.1, hlt⟩).mono extends_push (Nat.le_of_lt hlt)
    · rw [get_push_size]
      exact hatom.mono extends_push (Nat.le_refl _)

/-- Interning finds an atom of the same content. If there is none, it adds the atom at the end,
unless the table is full. -/
theorem Sound.intern_cases (hsound : Sound fold Leaf t) (hatom : Formed fold Leaf t t.size atom) :
    (∃ id, t.intern atom = .ok (id, t) ∧ Within t.size id ∧
      (t.get id).sameContent atom = true) ∨
    (∀ id < t.size, (t.get id).sameContent atom = false) ∧
      ((t.size < limit ∧ ∃ t', t.intern atom = .ok (t.size, t') ∧ Extends t t' ∧
          Sound fold Leaf t' ∧ t'.size = t.size + 1 ∧ t'.get t.size = atom) ∨
        (limit ≤ t.size ∧ t.intern atom = .error (.grammar (.tooManyAtoms limit)))) := by
  unfold AtomTable.intern
  split
  · rename_i id hfind
    left
    obtain ⟨hid, hsame, -⟩ := Array.findIdx?_eq_some_iff_getElem.1 hfind
    have hget : t.get id = t.atoms[id] := by simp [get, hid]
    rw [← hget] at hsame
    have hpos : 0 < id := by
      rcases Nat.eq_zero_or_pos id with rfl | hpos
      · rw [hsound.sentinel] at hsame
        cases atom <;> cases hsame
      · exact hpos
    exact ⟨id, rfl, ⟨hpos, hid⟩, hsame⟩
  · rename_i hfind
    right
    refine ⟨fun id hid => ?_, ?_⟩
    · have hid : id < t.atoms.size := hid
      have hget : t.get id = t.atoms[id] := by simp [get, hid]
      rw [hget]
      exact Array.findIdx?_eq_none_iff.1 hfind _ (Array.getElem_mem hid)
    · split
      · rename_i hroom
        exact .inl ⟨hroom, _, rfl, extends_push, hsound.push hatom, size_push, get_push_size⟩
      · rename_i hfull
        exact .inr ⟨Nat.le_of_not_lt hfull, rfl⟩

/-- Interning finds the atom or adds it at the end, unless the table is full. -/
theorem Sound.intern (hsound : Sound fold Leaf t)
    (hdistinct : ∀ x isBoolean, atom = .const x isBoolean → Distinct Leaf)
    (hatom : Formed fold Leaf t t.size atom) :
    (∃ id t', t.intern atom = .ok (id, t') ∧ Extends t t' ∧ Sound fold Leaf t' ∧
      Within t'.size id ∧ t'.get id = atom ∧ Adds t t' (· = atom)) ∨
    t.intern atom = .error (.grammar (.tooManyAtoms limit)) := by
  rcases hsound.intern_cases hatom with ⟨id, h, hid, hsame⟩ |
    ⟨-, ⟨-, t', h, hext, hsound', hsize, hget⟩ | ⟨-, h⟩⟩
  · have hget := (hsound.formed id hid).eq_of_sameContent hdistinct hatom hsame
    exact .inl ⟨id, t, h, .refl t, hsound, hid, hget, adds_refl⟩
  · have hadds := adds_of_size hsize hget
    exact .inl ⟨t.size, t', h, hext, hsound', ⟨hsound.pos, hsize ▸ Nat.lt_succ_self _⟩, hget, hadds⟩
  · exact .inr h

end Behavioral.AtomTable
