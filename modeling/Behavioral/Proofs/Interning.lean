import Behavioral.Proofs.Formation
import Behavioral.Proofs.Mirroring
import Behavioral.Proofs.Reading

/-!
# What operators intern

A table changes by interning only: an operator of one or two operands interns an application or
leaves the table as it is (`lead_interns`, `join_interns`, `call_interns`), and a function of a list
interns elements and then an application of its own. What interning keeps is therefore kept by every
operator (`keeps_of_intern`), and by every operator but a function of a list if it is kept where an
application of one or two operands is interned (`keepsScalar_of_intern`).
-/

namespace Behavioral

open AtomTable Assembly Reduction

variable {fold : Bool} {t t' : AtomTable} {a b c : AtomId} {atom : Atom} {P : AtomTable → Prop}
  {start : Nat}

namespace AtomTable

/-- Interning finds an atom of the same content, or adds the atom at the end. -/
theorem of_intern (h : t.intern atom = .ok (a, t')) :
    (t' = t ∧ (t.get a).sameContent atom = true) ∨
      ((∀ id, (t.get id).sameContent atom = false) ∧ a = t.size ∧
        t' = { t with atoms := t.atoms.push atom }) := by
  unfold intern at h
  split at h
  · rename_i id hfind
    cases h
    obtain ⟨hid, hsame, -⟩ := Array.findIdx?_eq_some_iff_getElem.1 hfind
    refine .inl ⟨rfl, ?_⟩
    rw [get, Array.getElem?_eq_getElem hid]
    exact hsame
  · rename_i hfind
    split at h
    · cases h
      refine .inr ⟨fun id => ?_, rfl, rfl⟩
      by_cases hid : id < t.size
      · rw [get, Array.getElem?_eq_getElem hid]
        exact Array.findIdx?_eq_none_iff.1 hfind _ (Array.getElem_mem hid)
      · rw [get_of_size_le (Nat.le_of_not_lt hid)]
        rfl
    · cases h

section Every

variable {Q : Atom → Prop} (hsentinel : Q .sentinel) (ht : ∀ id, Q (t.get id)) (hatom : Q atom)
include hsentinel ht hatom

theorem forall_get_push :
    ∀ id, Q (AtomTable.get { t with atoms := t.atoms.push atom } id) := by
  intro id
  rcases Nat.lt_trichotomy id t.size with hlt | rfl | hgt
  · rw [get_push_lt hlt]
    exact ht id
  · rw [get_push_size]
    exact hatom
  · rw [get_of_size_le (size_push ▸ hgt)]
    exact hsentinel

/-- What every atom has, and the interned one, every atom has afterwards. -/
theorem forall_get_intern (h : t.intern atom = .ok (a, t')) : ∀ id, Q (t'.get id) := by
  rcases of_intern h with ⟨rfl, -⟩ | ⟨-, -, rfl⟩
  · exact ht
  · exact forall_get_push hsentinel ht hatom

end Every

end AtomTable

/-- An application of an operator of one or two operands. -/
inductive Atom.Scalar : Atom → Prop
  | unary {op : UnaryOp} {x : AtomId} {y : Option AtomId} {folded : Option Float}
      {isBoolean : Bool} : Scalar (.apply (.unary op) x y folded isBoolean)
  | binary {op : BinaryOp} {x : AtomId} {y : Option AtomId} {folded : Option Float}
      {isBoolean : Bool} : Scalar (.apply (.binary op) x y folded isBoolean)

namespace Assembly

/-- The table stays, or an application of one or two operands is interned. -/
inductive Interns (t : AtomTable) (a : AtomId) : AtomTable → Prop
  | none : Interns t a t
  | scalar {t' : AtomTable} {atom : Atom} : atom.Scalar → t.intern atom = .ok (a, t') →
      Interns t a t'

theorem lead_interns {op : LeadOp} (h : applyLead fold op a start t = .ok (b, t')) :
    Interns t b t' := by
  rw [applyLead_eq] at h
  split at h
  · cases hinner : operandOf? op.unary (t.get a) with
    | some inner =>
      rw [hinner] at h
      cases h
      exact .none
    | none =>
      rw [hinner] at h
      exact .scalar .unary h
  · cases h

theorem join_interns {op : BinaryOp} (h : applyJoin fold op a b start t = .ok (c, t')) :
    Interns t c t' := by
  rw [applyJoin_eq] at h
  split at h
  · cases h
  · split at h
    · exact .scalar .unary h
    · split at h
      · cases h
      · exact .scalar .binary h

theorem call_interns {op : UnaryOp} {name : String}
    (h : applyCall fold op name a start t = .ok (b, t')) : Interns t b t' := by
  rw [applyCall_eq] at h
  split at h
  · cases h
  · exact .scalar .unary h

/-- What interning a chain's elements keeps is kept by the chain. -/
theorem addChain_keeps
    (hintern : ∀ {t t' : AtomTable} {a x y : AtomId}, t.intern (.element x y) = .ok (a, t') →
      P t → P t') :
    ∀ {as : List AtomId} {t t' : AtomTable} {a : AtomId}, addChain as t = .ok (a, t') → P t → P t'
  | [], t, t', a, h, ht | [_], t, t', a, h, ht => by
    cases h
    exact ht
  | x :: y :: as, t, t', a, h, ht => by
    obtain ⟨tail, t₁, htail, h⟩ := build_bind_eq_ok.1 h
    exact hintern h (addChain_keeps hintern htail ht)

/-- The operators without the functions of a list, all calls of which fail. -/
def scalars (fold : Bool) : Algebra AtomTable AtomId :=
  { algebra fold with callList := fun _ _ _ start => Reduction.fail (.emptyArgument start) }

theorem keepsScalar_of_intern
    (hintern : ∀ {t t' : AtomTable} {a : AtomId} {atom : Atom}, atom.Scalar →
      t.intern atom = .ok (a, t') → P t → P t') : Reduction.Keeps (scalars fold) P := by
  have keeps {t t' : AtomTable} {a : AtomId} (h : Interns t a t') (ht : P t) : P t' := by
    cases h with
    | none => exact ht
    | scalar hscalar h => exact hintern hscalar h ht
  exact {
    lead := fun _ _ _ _ _ _ h => keeps (lead_interns h)
    join := fun _ _ _ _ _ _ _ h => keeps (join_interns h)
    call := fun _ _ _ _ _ _ _ h => keeps (call_interns h)
    callList := fun _ _ _ _ _ _ _ h => nomatch h }

theorem keeps_of_intern
    (hintern : ∀ {t t' : AtomTable} {a : AtomId} {atom : Atom}, atom.isInner = true →
      t.intern atom = .ok (a, t') → P t → P t') : Reduction.Keeps (algebra fold) P := by
  have hscalar : Reduction.Keeps (scalars fold) P := by
    refine keepsScalar_of_intern fun hatom h ht => hintern ?_ h ht
    cases hatom <;> rfl
  refine { lead := hscalar.lead, join := hscalar.join, call := hscalar.call, callList := ?_ }
  intro op f as start t t' b h ht
  have hrun : applyList op f as start t = .ok (b, t') := h
  rcases as with _ | ⟨first, rest⟩
  · cases hrun
    exact ht
  · rw [applyList_cons] at hrun
    split at hrun
    · cases hrun
    · cases hchain : addChain rest t with
      | error fault =>
        rw [hchain] at hrun
        cases hrun
      | ok r =>
        rw [hchain] at hrun
        exact hintern rfl hrun (addChain_keeps (fun h ht => hintern rfl h ht) hchain ht)

end Assembly

end Behavioral
