import Behavioral.Proofs.Doubles

/-!
# Equal contents

Having the same content is an equivalence of the atoms other than sentinels, the constants included,
although it takes the two zeros for one number and looks at neither what an operator folds to nor
what kind of value it has.
-/

namespace Behavioral.Atom

variable {A B C : Atom} {x y z : Float}

theorem sameNumber_iff :
    sameNumber x y = true ↔ x = y ∨ (x = 0 ∨ x = -0) ∧ (y = 0 ∨ y = -0) := by
  refine ⟨Double.eq_or_zeros_of_sameNumber, ?_⟩
  rintro (rfl | ⟨hx, hy⟩)
  · simp only [sameNumber, Bool.or_eq_true]
    simpa using Classical.em (x.isNaN = true)
  · rcases hx with rfl | rfl <;> rcases hy with rfl | rfl <;> decide +kernel

theorem sameNumber_comm : sameNumber x y = sameNumber y x := by
  rw [Bool.eq_iff_iff, sameNumber_iff, sameNumber_iff, eq_comm, and_comm]

theorem sameNumber_trans (h : sameNumber x y = true) (h' : sameNumber y z = true) :
    sameNumber x z = true := by
  rw [sameNumber_iff] at h h' ⊢
  rcases h with rfl | ⟨hx, hy⟩
  · exact h'
  · rcases h' with rfl | ⟨-, hz⟩
    · exact .inr ⟨hx, hy⟩
    · exact .inr ⟨hx, hz⟩

theorem sameContent_self (h : A ≠ .sentinel) : A.sameContent A = true := by
  cases A with
  | sentinel => exact absurd rfl h
  | const x isBoolean => simp [sameContent, sameNumber_iff]
  | _ => simp [sameContent]

theorem sameContent_comm : A.sameContent B = B.sameContent A := by
  cases A <;> cases B <;> first | rfl | skip
  case const.const x xIsBoolean y yIsBoolean =>
    rw [sameContent, sameContent, sameNumber_comm, Bool.beq_comm]
  case apply.apply op a b _ _ op' a' b' _ _ =>
    rw [sameContent, sameContent, Bool.beq_comm, Bool.beq_comm (a := a), Bool.beq_comm (a := b)]
  case element.element a b a' b' =>
    rw [sameContent, sameContent, Bool.beq_comm, Bool.beq_comm (a := b)]
  case name.name s t =>
    rw [sameContent, sameContent, Bool.beq_comm]

theorem sameContent_trans (h : A.sameContent B = true) (h' : B.sameContent C = true) :
    A.sameContent C = true := by
  cases A <;> cases B <;> first | cases h | skip
  all_goals cases C <;> first | cases h' | skip
  all_goals simp only [sameContent, Bool.and_eq_true, beq_iff_eq] at h h' ⊢
  case const.const.const => exact ⟨h.1.trans h'.1, sameNumber_trans h.2 h'.2⟩
  case apply.apply.apply =>
    exact ⟨⟨h.1.1.trans h'.1.1, h.1.2.trans h'.1.2⟩, h.2.trans h'.2⟩
  case element.element.element => exact ⟨h.1.trans h'.1, h.2.trans h'.2⟩
  case name.name.name => exact h.trans h'

end Behavioral.Atom
