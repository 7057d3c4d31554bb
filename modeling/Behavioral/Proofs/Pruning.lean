import Behavioral.Proofs.Unbound

/-!
# What pruning drops

Pruning drops the idle constants: those that are not the root and that no atom refers to. What is
left are the other atoms in their order, each with its operands renamed to their new places
(`Survivors`). A constant has no operands, so dropping some makes no other idle (`not_idle_prune`),
and a table without idle constants is pruned to itself (`prune_eq_self`).
-/

namespace Behavioral

namespace Atom

variable {atom : Atom} {f g : AtomId → AtomId}

theorem renumber_congr (h : ∀ x ∈ atom.operands, f x = g x) :
    atom.renumber f = atom.renumber g := by
  cases atom with
  | apply op a b folded isBoolean =>
    cases b with
    | none =>
      have ha : f a = g a := h a (by simp [operands])
      simp only [renumber, ha, Option.map_none]
    | some b =>
      have ha : f a = g a := h a (by simp [operands])
      have hb : f b = g b := h b (by simp [operands])
      simp only [renumber, ha, hb, Option.map_some]
  | element a b =>
    have ha : f a = g a := h a (by simp [operands])
    have hb : f b = g b := h b (by simp [operands])
    simp only [renumber, ha, hb]
  | sentinel | const | name => rfl

theorem renumber_renumber (atom : Atom) (f g : AtomId → AtomId) :
    (atom.renumber f).renumber g = atom.renumber (g ∘ f) := by
  cases atom with
  | apply op a b folded isBoolean => cases b <;> rfl
  | sentinel | const | element | name => rfl

/-- Renaming every operand to itself changes nothing. -/
theorem renumber_eq_self (h : ∀ x ∈ atom.operands, f x = x) : atom.renumber f = atom := by
  rw [renumber_congr (g := id) h]
  cases atom with
  | apply op a b folded isBoolean => cases b <;> rfl
  | sentinel | const | element | name => rfl

end Atom

namespace AtomTable

variable {t t' : AtomTable} {id x : Nat} {bindings : Bindings}

/-- A constant that is not the root and that no atom refers to. -/
def Idle (t : AtomTable) (id : AtomId) : Prop :=
  (t.get id).isConst = true ∧ id ≠ t.root ∧ ∀ user, id ∉ (t.get user).operands

theorem lt_size_of_mem_operands (h : x ∈ (t.get id).operands) : id < t.size := by
  refine lt_size_of_get rfl fun hget => ?_
  rw [hget] at h
  cases h

theorem isReferenced_iff :
    t.isReferenced id = true ↔ id = t.root ∨ ∃ user, id ∈ (t.get user).operands := by
  rw [isReferenced, Bool.or_eq_true, beq_iff_eq, Array.any_eq_true]
  refine or_congr Iff.rfl ?_
  constructor
  · rintro ⟨user, huser, hid⟩
    refine ⟨user, ?_⟩
    rw [get, Array.getElem?_eq_getElem huser]
    simpa using hid
  · rintro ⟨user, hid⟩
    have huser := lt_size_of_mem_operands hid
    rw [get, Array.getElem?_eq_getElem huser] at hid
    exact ⟨user, huser, by simpa using hid⟩

/-- Pruning keeps everything that is not idle. -/
theorem keeps_iff : t.keeps id = true ↔ ¬t.Idle id := by
  rw [keeps, Bool.or_eq_true, isReferenced_iff, Idle, Bool.not_eq_true']
  by_cases hconst : (t.get id).isConst = true
  · simp only [hconst, reduceCtorEq, or_false, true_and, not_and_or, not_not, not_forall]
  · simp only [hconst, or_true, Bool.false_eq_true, false_and, not_false_eq_true]

theorem isConst_renumber (atom : Atom) (f : AtomId → AtomId) :
    (atom.renumber f).isConst = atom.isConst := by
  cases atom <;> rfl

/-- The atom at each old place, in order, is the one that is left there, with its operands renamed
to what they were, and the roots correspond. -/
structure Survivors (t t' : AtomTable) (old : List AtomId) : Prop where
  sorted : old.Pairwise (· < ·)
  mem : ∀ id, id ∈ old ↔ id < t.size ∧ ¬t.Idle id
  size : t'.size = old.length
  get : ∀ p id : Nat, old[p]? = some id → (t'.get p).renumber (fun q => old[q]?.getD 0) = t.get id
  root : old[t'.root]? = some t.root

theorem survivors_prune (hback : t.Backward) (hroot : t.root < t.size) :
    Survivors t t.prune t.kept where
  sorted := t.kept_sorted
  mem id := by rw [mem_kept, keeps_iff]
  size := size_prune
  get p id hp := by
    rw [get_prune hp, Atom.renumber_renumber]
    refine Atom.renumber_eq_self fun x hx => ?_
    have hid := (mem_kept.1 (List.mem_of_getElem? hp)).1
    rw [Function.comp_apply, getElem?_position t.kept_sorted (hback.mem_kept hid hx),
      Option.getD_some]
  root := getElem?_position t.kept_sorted (root_mem_kept hroot)

/-- The operands of every atom that is dropped are none, so what was referred to still is. -/
theorem not_idle_prune (t : AtomTable) (p : AtomId) : ¬t.prune.Idle p := by
  rintro ⟨hconst, hroot, hoperand⟩
  rcases hp : t.kept[p]? with _ | id
  · rw [get_prune_of_none hp] at hconst
    cases hconst
  · have hkept := List.mem_of_getElem? hp
    rw [get_prune hp, isConst_renumber] at hconst
    have hposition := position_eq t.kept_sorted hp
    refine keeps_iff.1 (mem_kept.1 hkept).2 ⟨hconst, ?_, fun user huser => ?_⟩
    · rintro rfl
      exact hroot hposition.symm
    · have hkeeps : t.keeps user = true := by
        refine keeps_iff.2 fun hidle => ?_
        have huserConst := hidle.1
        cases hget : t.get user <;> rw [hget] at huser huserConst <;> cases huserConst
        cases huser
      have huserKept := mem_kept.2 ⟨lt_size_of_mem_operands huser, hkeeps⟩
      refine hoperand (position t.kept user) ?_
      rw [get_prune_position huserKept, operands_renumber, ← hposition]
      exact List.mem_map_of_mem huser

theorem position_range {n : Nat} (hid : id < n) : position (List.range n) id = id :=
  position_eq List.pairwise_lt_range (List.getElem?_range hid)

theorem prune_eq_self (hback : t.Backward) (hroot : t.root < t.size) (h : ∀ id, ¬t.Idle id) :
    t.prune = t := by
  have hkept : t.kept = List.range t.size :=
    List.filter_eq_self.2 fun id _ => keeps_iff.2 (h id)
  obtain ⟨atoms, root⟩ := t
  simp only [prune, hkept, AtomTable.mk.injEq]
  refine ⟨Array.ext (by simp [AtomTable.size]) fun id hid hid' => ?_, position_range hroot⟩
  have hget : AtomTable.get ⟨atoms, root⟩ id = atoms[id] := by simp [AtomTable.get, hid']
  simp only [List.getElem_toArray, List.getElem_map, List.getElem_range, ← hget]
  refine Atom.renumber_eq_self fun x hx => position_range ?_
  exact Nat.lt_trans (hback id x hx) hid'

/-- Pruning a table drops its idle constants and nothing else, closes the gaps, keeps the value or
the fault of every evaluation, and has then nothing left to do. -/
theorem prune_complete (t : AtomTable) (hback : t.Backward) (hroot : t.root < t.size) :
    t.prune.Backward ∧ t.prune.root < t.prune.size ∧
      (∀ bindings, t.prune.evaluate bindings = t.evaluate bindings) ∧
      (∃ old, Survivors t t.prune old) ∧
      (∀ id, (t.prune.get id).isConst = true →
        id = t.prune.root ∨ ∃ user, id ∈ (t.prune.get user).operands) ∧
      t.prune.prune = t.prune := by
  have hidle := not_idle_prune t
  have hroot' := root_prune_lt hroot
  refine ⟨hback.prune, hroot', evaluate_prune hback hroot, ⟨_, survivors_prune hback hroot⟩,
    fun id hconst => ?_, prune_eq_self hback.prune hroot' hidle⟩
  by_contra hunused
  rw [not_or, not_exists] at hunused
  exact hidle id ⟨hconst, hunused⟩

/-- In `x + 2` with another constant before, the constant goes and the others move up. -/
theorem prune_complete_idle :
    let t : AtomTable := ⟨#[.sentinel, .const 1 false, .name "x", .const 2 false,
      .apply (.binary .add) 2 (some 3) none false], 4⟩
    t.Backward ∧ t.Idle 1 ∧ t.prune.size = 4 ∧ t.prune.root = 3 ∧ t.prune.Backward ∧
      t.prune.prune = t.prune := by
  intro t
  have hback : t.Backward := by
    intro id x hx
    have hid : id < 5 := lt_size_of_mem_operands hx
    interval_cases id <;> simp [t, get, Atom.operands] at hx
    omega
  have hpruned := prune_complete t hback (by decide)
  have hkept : t.kept = [0, 2, 3, 4] := by decide +kernel
  have hidle : t.Idle 1 := by
    by_contra h
    exact absurd (keeps_iff.2 h) (by decide +kernel)
  have hsize : t.prune.size = 4 := by
    rw [size_prune, hkept]
    rfl
  have hroot : t.prune.root = 3 := by
    simp only [prune, hkept]
    rfl
  exact ⟨hback, hidle, hsize, hroot, hpruned.1, hpruned.2.2.2.2.2⟩

end AtomTable

end Behavioral
