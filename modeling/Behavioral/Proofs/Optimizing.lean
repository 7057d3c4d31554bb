import Behavioral.Expr.Compile
import Behavioral.Proofs.Valuation

/-!
# What optimizing keeps

Folding puts constants in place of operators that have their value already, so a valuation stays one
(`Valuation.fold`). Pruning renumbers the atoms that it keeps in their order, among them everything
that a kept atom refers to, so a valuation is carried over along the kept positions
(`Valuation.prune`). What has no value is neither folded nor dropped. An optimized table therefore
evaluates as the table before, to the same value or the same fault (`evaluate_optimize`).
-/

namespace Behavioral.AtomTable

variable {folding : Bool} {Leaf : ParseTree → Prop} {t : AtomTable} {a b id x : Nat} {atom : Atom}
  {f : AtomId → Option Float} {bindings : Bindings} {settings : Settings}

/-! ### Folding -/

theorem size_fold : t.fold.size = t.size := by
  simp [fold, size]

theorem get_fold (id : AtomId) : t.fold.get id = (t.get id).fold := by
  simp only [get, fold, Array.getElem?_map]
  cases t.atoms[id]? <;> rfl

theorem operands_fold (atom : Atom) : atom.fold.operands ⊆ atom.operands := by
  unfold Atom.fold
  split
  · simp [Atom.operands]
  · exact fun _ h => h

theorem Backward.fold (h : t.Backward) : t.fold.Backward := by
  intro id x hx
  rw [get_fold] at hx
  exact h id x (operands_fold _ hx)

theorem fault_fold (atom : Atom) : atom.fold.fault = atom.fault := by
  unfold Atom.fold
  split <;> rfl

theorem chain_fold : ∀ (fuel id : Nat), t.fold.chain fuel id = t.chain fuel id
  | 0, _ => rfl
  | fuel + 1, id => by
    simp only [chain, get_fold]
    cases t.get id with
    | element a b => simp only [Atom.fold, chain_fold fuel]
    | sentinel | const | name => rfl
    | apply op a b folded isBoolean => cases folded <;> rfl

theorem meaning_fold (atom : Atom) :
    t.fold.meaning bindings f atom = t.meaning bindings f atom := by
  unfold meaning
  split
  all_goals first | rfl | skip
  rename_i b _ _
  cases b with
  | none => rfl
  | some id => simp only [listArguments, size_fold, chain_fold]

theorem Valuation.fold (hsound : Sound folding Leaf t) (h : t.Valuation bindings f) :
    t.fold.Valuation bindings f := by
  intro id hid
  rw [size_fold] at hid
  rw [get_fold, meaning_fold]
  unfold Atom.fold
  split
  · rename_i op a b x isBoolean hget
    exact hsound.constant_value h (hsound.within_of_get hget nofun) (by rw [hget]; rfl)
  · exact h id hid

theorem evaluate_fold (hsound : Sound folding Leaf t) (hroot : t.root < t.size)
    (bindings : Bindings) : t.fold.evaluate bindings = t.evaluate bindings := by
  have hback := hsound.backward
  have hroot' : t.fold.root < t.fold.size := size_fold.symm ▸ hroot
  obtain ⟨f, hf⟩ := exists_valuation hback bindings
  have hf' := hf.fold hsound
  rcases hf.evaluate_eq hback hroot with ⟨x, hx, hall, hrun⟩ | ⟨id, hid, hnone, hbefore, hrun⟩
  · obtain ⟨y, hy, hrun'⟩ := hf'.evaluate_ok hback.fold hroot' (size_fold.symm ▸ hall)
    rw [hrun, hrun', Option.some.inj (hx.symm.trans hy)]
  · rw [hrun, hf'.evaluate_error hback.fold hroot' (size_fold.symm ▸ hid) hnone hbefore, get_fold,
      fault_fold]

/-! ### Pruning -/

section Position

variable {kept : List Nat} (hsorted : kept.Pairwise (· < ·))
include hsorted

/-- A kept atom is found at its position. -/
theorem getElem?_position (hx : x ∈ kept) : kept[position kept x]? = some x := by
  induction kept with
  | nil => cases hx
  | cons y rest ih =>
    obtain ⟨hy, hrest⟩ := List.pairwise_cons.1 hsorted
    rw [position, List.takeWhile_cons]
    rcases List.mem_cons.1 hx with rfl | hx
    · simp
    · simpa [hy x hx, position] using ih hrest hx

theorem position_lt (hx : x ∈ kept) : position kept x < kept.length :=
  (List.getElem?_eq_some_iff.1 (getElem?_position hsorted hx)).1

/-- Each position is that of the atom found there. -/
theorem position_eq {p : Nat} (h : kept[p]? = some x) : position kept x = p := by
  have hnodup : kept.Nodup := hsorted.imp Nat.ne_of_lt
  have hx := getElem?_position hsorted (List.mem_of_getElem? h)
  exact (List.getElem?_inj (List.getElem?_eq_some_iff.1 hx).1 hnodup).1 (hx.trans h.symm)

/-- A kept atom is placed before everything that comes after it. -/
theorem position_mono {y : Nat} (hx : x ∈ kept) (h : x < y) :
    position kept x < position kept y := by
  induction kept with
  | nil => cases hx
  | cons z rest ih =>
    obtain ⟨hz, hrest⟩ := List.pairwise_cons.1 hsorted
    rw [position, position, List.takeWhile_cons, List.takeWhile_cons]
    rcases List.mem_cons.1 hx with rfl | hx
    · simp [h]
    · simpa [hz x hx, (hz x hx).trans h, position] using ih hrest hx

omit hsorted in
/-- What is kept before the place of `y` comes before `y`. -/
theorem lt_of_lt_position {p y : Nat} (hp : p < position kept y) (hx : kept[p]? = some x) :
    x < y := by
  have hmem : x ∈ kept.takeWhile (· < y) := by
    obtain ⟨hp', rfl⟩ := List.getElem?_eq_some_iff.1 hx
    rw [← (List.takeWhile_prefix (· < y)).getElem hp]
    exact List.getElem_mem hp
  simpa using List.mem_takeWhile_imp hmem

end Position

theorem kept_sorted (t : AtomTable) : t.kept.Pairwise (· < ·) :=
  List.pairwise_lt_range.filter _

theorem mem_kept : x ∈ t.kept ↔ x < t.size ∧ t.keeps x = true := by
  simp [kept]

theorem root_mem_kept (h : t.root < t.size) : t.root ∈ t.kept :=
  mem_kept.2 ⟨h, by simp [keeps, isReferenced]⟩

/-- Whatever an atom refers to is kept. -/
theorem Backward.mem_kept (hback : t.Backward) (hid : id < t.size) (hx : x ∈ (t.get id).operands) :
    x ∈ t.kept := by
  refine AtomTable.mem_kept.2 ⟨Nat.lt_trans (hback id x hx) hid, ?_⟩
  rw [get, Array.getElem?_eq_getElem hid] at hx
  have hany : (t.atoms.any fun atom => atom.operands.contains x) = true :=
    Array.any_eq_true.2 ⟨id, hid, by simpa using hx⟩
  rw [keeps, isReferenced, hany, Bool.or_true, Bool.true_or]

theorem size_prune : t.prune.size = t.kept.length := by
  simp [prune, size]

theorem get_prune {p : Nat} (h : t.kept[p]? = some id) :
    t.prune.get p = (t.get id).renumber (position t.kept) := by
  simp [prune, get, h]

theorem get_prune_of_none {p : Nat} (h : t.kept[p]? = none) : t.prune.get p = .sentinel :=
  get_of_size_le (size_prune ▸ List.getElem?_eq_none_iff.1 h)

theorem get_prune_position (hx : x ∈ t.kept) :
    t.prune.get (position t.kept x) = (t.get x).renumber (position t.kept) :=
  get_prune (getElem?_position t.kept_sorted hx)

theorem operands_renumber (g : AtomId → AtomId) (atom : Atom) :
    (atom.renumber g).operands = atom.operands.map g := by
  cases atom with
  | apply op a b folded isBoolean => cases b <;> rfl
  | sentinel | const | element | name => rfl

theorem Backward.prune (hback : t.Backward) : t.prune.Backward := by
  intro p x hx
  rcases hp : t.kept[p]? with _ | id
  · rw [get_prune_of_none hp] at hx
    cases hx
  · rw [get_prune hp, operands_renumber] at hx
    obtain ⟨y, hy, rfl⟩ := List.mem_map.1 hx
    have hid := List.mem_of_getElem? hp
    have hy' := hback.mem_kept (AtomTable.mem_kept.1 hid).1 hy
    rw [← position_eq t.kept_sorted hp]
    exact position_mono t.kept_sorted hy' (hback id y hy)

theorem fault_renumber (g : AtomId → AtomId) (atom : Atom) :
    (atom.renumber g).fault = atom.fault := by
  cases atom <;> rfl

/-- Chains are renumbered as a whole. -/
theorem chain_prune (hback : t.Backward) : ∀ (fuel : Nat) {x : Nat}, x ∈ t.kept →
    t.prune.chain fuel (position t.kept x) = (t.chain fuel x).map (position t.kept) ∧
      ∀ y ∈ t.chain fuel x, y ∈ t.kept
  | 0, x, hx => by simpa [chain] using hx
  | fuel + 1, x, hx => by
    simp only [chain, get_prune_position hx]
    cases hget : t.get x with
    | element a b =>
      have hlt := (AtomTable.mem_kept.1 hx).1
      have ha : a ∈ t.kept := hback.mem_kept hlt (by simp [hget, Atom.operands])
      have hb : b ∈ t.kept := hback.mem_kept hlt (by simp [hget, Atom.operands])
      obtain ⟨hchain, hmem⟩ := chain_prune hback fuel hb
      simp only [Atom.renumber, List.map_cons, hchain, List.mem_cons, forall_eq_or_imp]
      exact ⟨trivial, ha, hmem⟩
    | sentinel | const | name | apply => simpa [Atom.renumber] using hx

/-- A valuation, read off at the kept positions. -/
def keptValue (t : AtomTable) (f : AtomId → Option Float) (p : AtomId) : Option Float :=
  f (t.kept[p]?.getD 0)

theorem keptValue_position (hx : x ∈ t.kept) : t.keptValue f (position t.kept x) = f x := by
  rw [keptValue, getElem?_position t.kept_sorted hx, Option.getD_some]

/-- A chain is renumbered with the fuel that suffices for the smaller table. -/
theorem chain_prune_size (hback : t.Backward) (hx : x ∈ t.kept) :
    t.prune.chain t.prune.size (position t.kept x) = (t.chain t.size x).map (position t.kept) := by
  have hposition := Nat.le_of_lt (position_lt t.kept_sorted hx)
  have hlength : t.kept.length ≤ t.size := by
    simpa [kept] using List.length_filter_le t.keeps (List.range t.size)
  have hfuel : t.prune.chain t.prune.size (position t.kept x) =
      t.prune.chain t.size (position t.kept x) :=
    chain_congr hback.prune (Nat.le_trans hposition hlength) (size_prune ▸ hposition) fun _ _ => rfl
  rw [hfuel, (chain_prune hback t.size hx).1]

theorem arguments_prune (hback : t.Backward) (hx : x ∈ t.kept) :
    (t.prune.chain t.prune.size (position t.kept x)).map (t.keptValue f) =
      (t.chain t.size x).map f := by
  have hmem := (chain_prune hback t.size hx).2
  rw [chain_prune_size hback hx, List.map_map]
  exact List.map_congr_left fun y hy => keptValue_position (hmem y hy)

theorem Valuation.prune (hback : t.Backward) (h : t.Valuation bindings f) :
    t.prune.Valuation bindings (t.keptValue f) := by
  intro p hp
  rw [size_prune] at hp
  have hget := List.getElem?_eq_getElem hp
  generalize t.kept[p] = id at hget
  have hid := (AtomTable.mem_kept.1 (List.mem_of_getElem? hget)).1
  rw [get_prune hget, keptValue, hget, Option.getD_some, h id hid]
  have hkept (x : Nat) (hx : x ∈ (t.get id).operands) : x ∈ t.kept := hback.mem_kept hid hx
  generalize t.get id = atom at hkept
  have hvalue (x : Nat) (hx : x ∈ atom.operands) : t.keptValue f (position t.kept x) = f x :=
    keptValue_position (hkept x hx)
  cases atom with
  | sentinel | const | name | element => rfl
  | apply op a b folded isBoolean =>
    have ha := hvalue a (by simp [Atom.operands])
    cases op with
    | unary op | binary op =>
      cases b with
      | none => simp only [Atom.renumber, Option.map_none, meaning, ha]
      | some b =>
        have hb := hvalue b (by simp [Atom.operands])
        simp only [Atom.renumber, Option.map_some, meaning, ha, hb]
    | list op =>
      cases b with
      | none => simp only [Atom.renumber, Option.map_none, meaning_list, listArguments,
          List.map_cons, List.map_nil, ha]
      | some b =>
        have hchain := arguments_prune (f := f) hback (hkept b (by simp [Atom.operands]))
        simp only [Atom.renumber, Option.map_some, meaning_list, listArguments, List.map_cons,
          ha, hchain]

theorem root_prune (h : t.root < t.size) : t.keptValue f t.prune.root = f t.root :=
  keptValue_position (root_mem_kept h)

theorem root_prune_lt (h : t.root < t.size) : t.prune.root < t.prune.size := by
  rw [size_prune]
  exact position_lt t.kept_sorted (root_mem_kept h)

/-- What has no value is no constant, so it is kept. -/
theorem Valuation.mem_kept (hf : t.Valuation bindings f) (hid : id < t.size) (hnone : f id = none) :
    id ∈ t.kept := by
  refine AtomTable.mem_kept.2 ⟨hid, ?_⟩
  rw [hf id hid] at hnone
  cases hget : t.get id with
  | const => simp [hget, meaning] at hnone
  | sentinel | apply | element | name => simp [keeps, hget, Atom.isConst]

/-- Pruning leaves every evaluation as it is, failed ones included. -/
theorem evaluate_prune (hback : t.Backward) (hroot : t.root < t.size) (bindings : Bindings) :
    t.prune.evaluate bindings = t.evaluate bindings := by
  have hroot' := root_prune_lt hroot
  obtain ⟨f, hf⟩ := exists_valuation hback bindings
  have hf' := hf.prune hback
  rcases hf.evaluate_eq hback hroot with ⟨x, hx, hall, hrun⟩ | ⟨id, hid, hnone, hbefore, hrun⟩
  · have hall' : ∀ p < t.prune.size, (t.keptValue f p).isSome := by
      intro p hp
      have hy := List.getElem?_eq_getElem (size_prune ▸ hp)
      rw [keptValue, hy, Option.getD_some]
      exact hall _ (AtomTable.mem_kept.1 (List.mem_of_getElem? hy)).1
    obtain ⟨y, hy, hrun'⟩ := hf'.evaluate_ok hback.prune hroot' hall'
    rw [root_prune hroot] at hy
    rw [hrun, hrun', Option.some.inj (hx.symm.trans hy)]
  · have hkept := hf.mem_kept hid hnone
    have hlt := position_lt t.kept_sorted hkept
    have hbefore' (p : Nat) (hp : p < position t.kept id) : (t.keptValue f p).isSome := by
      have hy := List.getElem?_eq_getElem (hp.trans hlt)
      rw [keptValue, hy, Option.getD_some]
      exact hbefore _ (lt_of_lt_position hp hy)
    rw [hrun, hf'.evaluate_error hback.prune hroot' (size_prune ▸ hlt)
      ((keptValue_position hkept).trans hnone) hbefore', get_prune_position hkept, fault_renumber]

/-- An optimized table evaluates as the table before. -/
theorem evaluate_optimize (hsound : Sound settings.foldConstants Leaf t) (hroot : t.root < t.size)
    (bindings : Bindings) : (t.optimize settings).evaluate bindings = t.evaluate bindings := by
  have hback := hsound.backward
  have hroot' : t.fold.root < t.fold.size := size_fold.symm ▸ hroot
  unfold optimize
  split
  · dsimp only
    split
    · rw [evaluate_prune hback.fold hroot', evaluate_fold hsound hroot]
    · exact evaluate_fold hsound hroot bindings
  · dsimp only
    split
    · exact evaluate_prune hback hroot bindings
    · rfl

end Behavioral.AtomTable
