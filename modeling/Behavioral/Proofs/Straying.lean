import Behavioral.Proofs.Lookup
import Behavioral.Proofs.Valuation

/-!
# Evaluations that stray

The one operator that may have no value is the lookup of a table whose first abscissa is not a
number (`ListOp.apply_eq_none_iff`). An evaluation strays when it comes to such a lookup. That is
when it breaks down (`evaluate_eq_breakdown_iff`); else it has a value, or ends at a name that is
not bound (`evaluate_cases`).
-/

namespace Behavioral

/-- Only a table may have no value, at an index that strays. -/
theorem ListOp.apply_eq_none_iff {op : ListOp} {args : List Float} :
    op.apply args = none ↔ op = .pwl ∧ ∃ index points, args = index :: points ∧
      (Breakpoints.ofFlat points).Strays index := by
  cases op with
  | ratio => rcases args with _ | ⟨a, _ | ⟨b, _ | ⟨c, args⟩⟩⟩ <;> simp [apply]
  | pwl =>
    rcases args with _ | ⟨index, points⟩
    · simp [apply]
    · simp [apply, Breakpoints.lookup_eq_none_iff]

namespace AtomTable

variable {t : AtomTable} {bindings : Bindings}

/-- The evaluation comes to a lookup whose index strays, once it has the values of all atoms before
it. -/
def Strays (t : AtomTable) (bindings : Bindings) : Prop :=
  ∃ id a b folded isBoolean vals index points,
    t.get id = .apply (.list .pwl) a b folded isBoolean ∧
      t.firstValues bindings id = .ok vals ∧
      (t.listArguments a b).map (valueAt vals) = index :: points ∧
      (Breakpoints.ofFlat points).Strays index

/-- An evaluation breaks down just when it strays. -/
theorem evaluate_eq_breakdown_iff (hback : t.Backward) (hroot : t.root < t.size) :
    t.evaluate bindings = .error (.breakdown .noSegment) ↔ t.Strays bindings := by
  obtain ⟨f, hf⟩ := exists_valuation hback bindings
  constructor
  · intro hbroken
    rcases hf.evaluate_eq hback hroot with ⟨x, -, -, hrun⟩ | ⟨id, hid, hnone, hbefore, hrun⟩
    · rw [hbroken] at hrun
      cases hrun
    rw [hbroken] at hrun
    rcases hf.first_cases hback hid hnone hbefore with
      ⟨n, hget, -⟩ | ⟨op, a, b, folded, isBoolean, args, hget, hargs, hvalue⟩
    · rw [hget] at hrun
      cases hrun
    obtain ⟨rfl, index, points, rfl, hstrays⟩ := ListOp.apply_eq_none_iff.1 hvalue
    obtain ⟨vals, hvals, -, hvalues⟩ := hf.firstValues_ok hback (Nat.le_of_lt hid) hbefore
    refine ⟨id, a, b, folded, isBoolean, vals, index, points, hget, hvals, ?_, hstrays⟩
    refine List.map_injective_iff.2 (Option.some_injective Float) ?_
    rw [← hargs, hback.map_listArguments hget hvalues]
  · rintro ⟨id, a, b, folded, isBoolean, vals, index, points, hget, hvals, hargs, hstrays⟩
    have hid : id < t.size := lt_size_of_get hget nofun
    have hvalues := (hf.of_firstValues hback (Nat.le_of_lt hid) hvals).2
    have hbefore : ∀ x < id, (f x).isSome := fun x hx => by rw [hvalues x hx]; rfl
    have hnone : f id = none := by
      rw [hf id hid, hget, meaning_list, hback.map_listArguments hget hvalues, hargs,
        allValues_map_some]
      exact ListOp.apply_eq_none_iff.2 ⟨rfl, index, points, rfl, hstrays⟩
    rw [hf.evaluate_error hback hroot hid hnone hbefore, hget]
    rfl

/-- An evaluation has a value, or ends at a name that is not bound, or strays. -/
theorem evaluate_cases (hback : t.Backward) (hroot : t.root < t.size) (bindings : Bindings) :
    (∃ x, t.evaluate bindings = .ok x) ∨
    (∃ id n, t.get id = .name n ∧ bindings n = none ∧
      t.evaluate bindings = .error (.evaluation (.unbound n))) ∨
    t.evaluate bindings = .error (.breakdown .noSegment) := by
  obtain ⟨f, hf⟩ := exists_valuation hback bindings
  rcases hf.evaluate_eq hback hroot with ⟨x, -, -, hrun⟩ | ⟨id, hid, hnone, hbefore, hrun⟩
  · exact .inl ⟨x, hrun⟩
  · rcases hf.first_cases hback hid hnone hbefore with
      ⟨n, hget, hn⟩ | ⟨op, a, b, folded, isBoolean, args, hget, -⟩
    · exact .inr (.inl ⟨id, n, hget, hn, by rw [hrun, hget]; rfl⟩)
    · exact .inr (.inr (by rw [hrun, hget]; rfl))

end AtomTable

end Behavioral
