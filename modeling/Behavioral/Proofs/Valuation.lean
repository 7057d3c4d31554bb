import Behavioral.Expr.Value
import Behavioral.Proofs.Table

/-!
# Valuations

A valuation gives every atom of a table the value that its operator makes of its operands' values,
if there is one: a name may have none, and a function of a list. Every table has one valuation. An
evaluation computes its values up to the first atom without one, and ends there (`firstValues_eq`).

A valuation of a table is one of every table that it extends, it agrees with what is folded
(`Sound.constant_value`), and in it a truth value is 0 or 1 (`Sound.boolean_value`).
-/

namespace Behavioral

/-- The fault with which an evaluation ends at an atom that has no value. -/
def Atom.fault : Atom → Fault
  | .name text => .evaluation (.unbound text)
  | _ => .breakdown .noSegment

/-- Whether the atom applies a function of a list. -/
def Atom.appliesList : Atom → Bool
  | .apply op _ _ _ _ => op.isList
  | _ => false

theorem Atom.ne_sentinel_of_appliesList {atom : Atom} (h : atom.appliesList = true) :
    atom ≠ .sentinel := by
  rintro rfl
  cases h

/-- The values of a list, if none is missing. -/
def allValues : List (Option Float) → Option (List Float)
  | [] => some []
  | x :: xs => x.bind fun x => (allValues xs).map (x :: ·)

theorem allValues_eq_some {xs : List (Option Float)} {ys : List Float} :
    allValues xs = some ys ↔ xs = ys.map some := by
  induction xs generalizing ys with
  | nil => cases ys <;> simp [allValues]
  | cons x xs ih => cases x <;> cases ys <;> simp [allValues, ih, and_comm]

theorem allValues_map_some (xs : List Float) : allValues (xs.map some) = some xs :=
  allValues_eq_some.2 rfl

namespace AtomTable

variable {fold : Bool} {Leaf : ParseTree → Prop} {t t' : AtomTable} {a b id : Nat} {atom : Atom}
  {bindings : Bindings} {f g : AtomId → Option Float} {vals : Array Float} {k : Nat}

/-- The value of an atom, from the values of names and of the other atoms. -/
def meaning (t : AtomTable) (bindings : Bindings) (f : AtomId → Option Float) : Atom → Option Float
  | .sentinel => some 0
  | .element _ _ => some 0
  | .const x _ => some x
  | .name text => bindings text
  | .apply (.list op) a b _ _ => (allValues ((t.listArguments a b).map f)).bind op.apply
  | .apply op a none _ _ => (f a).map op.apply1
  | .apply op a (some b) _ _ => (f a).bind fun x => (f b).map (op.apply2 x)

theorem meaning_unary {op : UnaryOp} {folded : Option Float} {isBoolean : Bool} :
    t.meaning bindings f (.apply (.unary op) a none folded isBoolean) = (f a).map op.apply :=
  rfl

theorem meaning_binary {op : BinaryOp} {folded : Option Float} {isBoolean : Bool} :
    t.meaning bindings f (.apply (.binary op) a (some b) folded isBoolean) =
      (f a).bind fun x => (f b).map (op.apply x) :=
  rfl

theorem meaning_list {op : ListOp} {b : Option AtomId} {folded : Option Float} {isBoolean : Bool} :
    t.meaning bindings f (.apply (.list op) a b folded isBoolean) =
      (allValues ((t.listArguments a b).map f)).bind op.apply :=
  rfl

/-- Every atom has the value that its operator makes of its operands' values. -/
def Valuation (t : AtomTable) (bindings : Bindings) (f : AtomId → Option Float) : Prop :=
  ∀ id < t.size, f id = t.meaning bindings f (t.get id)

/-- Every atom refers to earlier ones. -/
def Backward (t : AtomTable) : Prop :=
  ∀ id x : Nat, x ∈ (t.get id).operands → x < id

theorem Backward.element (hback : t.Backward) {x y : Nat} (h : t.get id = .element x y) :
    x < id ∧ y < id :=
  ⟨hback id x (by simp [h, Atom.operands]), hback id y (by simp [h, Atom.operands])⟩

theorem Sound.backward (h : Sound fold Leaf t) : t.Backward := by
  intro id x hx
  rcases Nat.lt_or_ge id t.size with hlt | hge
  · rcases Nat.eq_zero_or_pos id with rfl | hpos
    · rw [h.sentinel] at hx
      cases hx
    · exact ((h.formed id ⟨hpos, hlt⟩).operands_within x hx).2
  · rw [get_of_size_le hge] at hx
    cases hx

theorem chain_single (h : ∀ x y, t.get id ≠ .element x y) : ∀ fuel, t.chain fuel id = [id]
  | 0 => rfl
  | fuel + 1 => by
    rw [chain]
    split
    · rename_i x y hget
      exact absurd hget (h x y)
    · rfl

/-- What is no element is a chain by itself, of the value that it has. -/
theorem value_single {u : AtomTable} (hne : ∀ x y, t.get a ≠ .element x y)
    (hne' : ∀ x y, u.get b ≠ .element x y) (hv : f a = g b) :
    f a = g b ∧ (t.chain t.size a).map f = (u.chain u.size b).map g := by
  rw [chain_single hne, chain_single hne']
  exact ⟨hv, congrArg (fun v => [v]) hv⟩

/-- Tables that agree up to an atom have the same chain from there, with any fuel that suffices. -/
theorem chain_congr (hback : t.Backward) : ∀ {fuel fuel' id : Nat}, id ≤ fuel → id ≤ fuel' →
    (∀ i ≤ id, t'.get i = t.get i) → t'.chain fuel' id = t.chain fuel id := by
  intro fuel fuel' id
  induction id using Nat.strongRecOn generalizing fuel fuel' with
  | _ id ih =>
    intro hfuel hfuel' hget
    by_cases helement : ∃ x y, t.get id = .element x y
    · obtain ⟨x, y, hxy⟩ := helement
      have hy := (hback.element hxy).2
      obtain ⟨k, rfl⟩ : ∃ k, fuel = k + 1 := ⟨fuel - 1, by omega⟩
      obtain ⟨k', rfl⟩ : ∃ k', fuel' = k' + 1 := ⟨fuel' - 1, by omega⟩
      have hxy' := (hget id (Nat.le_refl id)).trans hxy
      have htail : t'.chain k' y = t.chain k y :=
        ih y hy (by omega) (by omega) fun i hi => hget i (by omega)
      simp only [chain, hxy, hxy', htail]
    · have hne : ∀ x y, t.get id ≠ .element x y := fun x y h => helement ⟨x, y, h⟩
      rw [chain_single hne, chain_single]
      intro x y
      rw [hget id (Nat.le_refl id)]
      exact hne x y

theorem chain_element (hback : t.Backward) (h : t.get id = .element a b) (hid : id < t.size) :
    t.chain t.size id = a :: t.chain t.size b := by
  obtain ⟨k, hk⟩ : ∃ k, t.size = k + 1 := ⟨t.size - 1, by omega⟩
  have hb := (hback.element h).2
  rw [hk, chain, h]
  simp only [List.cons.injEq, true_and]
  exact chain_congr hback (by omega) (by omega) fun _ _ => rfl

theorem Extends.chain (hback : t.Backward) (hext : Extends t t') (hid : id < t.size) :
    t'.chain t'.size id = t.chain t.size id :=
  chain_congr hback (Nat.le_of_lt hid) (Nat.le_trans (Nat.le_of_lt hid) hext.size) fun i hi =>
    hext.get i (Nat.lt_of_le_of_lt hi hid)

theorem mem_chain_le (hback : t.Backward) {x : Nat} :
    ∀ {fuel id : Nat}, x ∈ t.chain fuel id → x ≤ id
  | 0, id, h => Nat.le_of_eq (by simpa [chain] using h)
  | fuel + 1, id, h => by
    rw [chain] at h
    split at h
    · rename_i a b hget
      obtain ⟨ha, hb⟩ := hback.element hget
      rcases List.mem_cons.1 h with rfl | h
      · exact Nat.le_of_lt ha
      · exact Nat.le_trans (mem_chain_le hback h) (Nat.le_of_lt hb)
    · exact Nat.le_of_eq (by simpa using h)

/-- The arguments of an atom come before it. -/
theorem Backward.lt_of_mem_listArguments (hback : t.Backward) {op : Op} {b : Option AtomId}
    {folded : Option Float} {isBoolean : Bool} (hget : t.get id = .apply op a b folded isBoolean) :
    ∀ x ∈ t.listArguments a b, x < id := by
  have ha : a < id := hback id a (by simp [hget, Atom.operands])
  cases b with
  | none => simpa [listArguments] using ha
  | some b =>
    have hb : b < id := hback id b (by simp [hget, Atom.operands])
    rw [listArguments, List.forall_mem_cons]
    exact ⟨ha, fun x hx => (mem_chain_le hback hx).trans_lt hb⟩

/-- The arguments of an atom have their values once the atoms before it have theirs. -/
theorem Backward.map_listArguments (hback : t.Backward) {op : Op} {b : Option AtomId}
    {folded : Option Float} {isBoolean : Bool} (hget : t.get id = .apply op a b folded isBoolean)
    (hvals : ∀ x < id, f x = some (valueAt vals x)) :
    (t.listArguments a b).map f = ((t.listArguments a b).map (valueAt vals)).map some := by
  rw [List.map_map]
  exact List.map_congr_left fun x hx => hvals x (hback.lt_of_mem_listArguments hget x hx)

/-- An atom's value depends on the values of earlier atoms. -/
theorem meaning_congr (hback : t.Backward) (h : ∀ x : Nat, x < id → f x = g x) :
    t.meaning bindings f (t.get id) = t.meaning bindings g (t.get id) := by
  have hop (x : Nat) (hx : x ∈ (t.get id).operands) : f x = g x := h x (hback id x hx)
  cases hget : t.get id with
  | sentinel | const | name | element => rfl
  | apply op a b folded isBoolean =>
    rw [hget] at hop
    have ha : f a = g a := hop a (by simp [Atom.operands])
    cases op with
    | list op =>
      have hargs : (t.listArguments a b).map f = (t.listArguments a b).map g :=
        List.map_congr_left fun x hx => h x (hback.lt_of_mem_listArguments hget x hx)
      simp only [meaning, hargs]
    | unary op | binary op =>
      cases b with
      | none => simp only [meaning, ha]
      | some b =>
        have hb : f b = g b := hop b (by simp [Atom.operands])
        simp only [meaning, ha, hb]

/-- A table has one valuation at most. -/
theorem Valuation.unique (hback : t.Backward) (hf : t.Valuation bindings f)
    (hg : t.Valuation bindings g) : ∀ id : Nat, id < t.size → f id = g id := by
  intro id
  induction id using Nat.strongRecOn with
  | _ id ih =>
    intro hid
    rw [hf id hid, hg id hid]
    exact meaning_congr hback fun x hx => ih x hx (Nat.lt_trans hx hid)

/-- A formed atom means the same in a larger table. -/
theorem Formed.meaning_eq (hsound : Sound fold Leaf t) (hext : Extends t t') (hid : id < t.size)
    (h : Formed fold Leaf t id atom) : t'.meaning bindings f atom = t.meaning bindings f atom := by
  match atom, h with
  | .const _ _, _ => rfl
  | .name _, _ => rfl
  | .element _ _, _ => rfl
  | .apply (.unary _) _ none _ _, _ => rfl
  | .apply (.binary _) _ (some _) _ _, _ => rfl
  | .apply (.list _) a (some b) _ _, ⟨_, hb, _⟩ =>
    have hb : b < t.size := Nat.lt_trans hb.2 hid
    simp only [meaning, listArguments, hext.chain hsound.backward hb]

theorem Valuation.shrink (hsound : Sound fold Leaf t) (hext : Extends t t')
    (h : Valuation t' bindings f) : Valuation t bindings f := by
  intro id hid
  rw [h id (Nat.lt_of_lt_of_le hid hext.size), hext.get id hid]
  rcases Nat.eq_zero_or_pos id with rfl | hpos
  · rw [hsound.sentinel]
    rfl
  · exact (hsound.formed id ⟨hpos, hid⟩).meaning_eq hsound hext hid

theorem Sound.boolean_value (hsound : Sound fold Leaf t) (h : Valuation t bindings f)
    (hid : Within t.size id) (hboolean : (t.get id).isBoolean = true) {x : Float}
    (hx : f id = some x) : ∃ b, x = ofBool b := by
  have hformed := hsound.formed id hid
  rw [h id hid.2] at hx
  generalize t.get id = atom at hformed hboolean hx
  match atom, hformed with
  | .const _ _, ⟨rfl, _⟩ => cases hboolean
  | .apply (.unary op) a none _ _, ⟨_, rfl, _⟩ =>
    simp only [Atom.isBoolean, decide_eq_true_eq] at hboolean
    subst hboolean
    obtain ⟨y, -, rfl⟩ := Option.map_eq_some_iff.1 hx
    exact ⟨_, rfl⟩
  | .apply (.binary op) a (some b) _ _, ⟨_, _, rfl, _⟩ =>
    obtain ⟨y, -, hx⟩ := Option.bind_eq_some_iff.1 hx
    obtain ⟨z, -, rfl⟩ := Option.map_eq_some_iff.1 hx
    exact Double.boolean_apply hboolean _ _
  | .apply (.list _) _ (some _) _ _, ⟨_, _, rfl, _⟩ => cases hboolean

theorem Sound.boolean_constant (hsound : Sound fold Leaf t) (hid : Within t.size id)
    (hboolean : (t.get id).isBoolean = true) {x : Float} (hx : (t.get id).constant? = some x) :
    ∃ b, x = ofBool b := by
  have hformed := hsound.formed id hid
  generalize t.get id = atom at hformed hboolean hx
  match atom, hformed with
  | .const _ _, ⟨rfl, _⟩ => cases hboolean
  | .apply (.unary op) a none _ _, ⟨_, rfl, _, hfolded⟩ =>
    simp only [Atom.isBoolean, decide_eq_true_eq] at hboolean
    subst hboolean
    simp only [Atom.constant?, hfolded] at hx
    split at hx
    · obtain ⟨y, -, rfl⟩ := Option.map_eq_some_iff.1 hx
      exact ⟨_, rfl⟩
    · cases hx
  | .apply (.binary op) a (some b) _ _, ⟨_, _, rfl, hfolded⟩ =>
    simp only [Atom.constant?, hfolded] at hx
    split at hx
    · obtain ⟨y, -, hx⟩ := Option.bind_eq_some_iff.1 hx
      obtain ⟨z, -, rfl⟩ := Option.map_eq_some_iff.1 hx
      exact Double.boolean_apply hboolean _ _
    · cases hx
  | .apply (.list _) _ (some _) _ _, ⟨_, _, rfl, _⟩ => cases hboolean

/-- What an atom carries as its constant is its value. -/
theorem Sound.constant_value (hsound : Sound fold Leaf t) (h : Valuation t bindings f) :
    ∀ {id : Nat}, Within t.size id → ∀ {x : Float}, (t.get id).constant? = some x →
      f id = some x := by
  intro id
  induction id using Nat.strongRecOn with
  | _ id ih =>
    intro hid x hx
    have operand {a : AtomId} (ha : t.IsOperand id a) {y : Float}
        (hy : (t.get a).constant? = some y) : f a = some y :=
      ih a ha.within.2 ⟨ha.within.1, Nat.lt_trans ha.within.2 hid.2⟩ hy
    have hformed := hsound.formed id hid
    rw [h id hid.2]
    generalize t.get id = atom at hformed hx
    match atom, hformed with
    | .const _ _, _ => exact hx
    | .name _, _ => cases hx
    | .element _ _, _ => cases hx
    | .apply (.unary op) a none _ _, ⟨ha, _, _, hfolded⟩ =>
      simp only [Atom.constant?, hfolded] at hx
      split at hx
      · obtain ⟨y, hy, rfl⟩ := Option.map_eq_some_iff.1 hx
        simp only [meaning, operand ha hy, Op.apply1, Option.map_some]
      · cases hx
    | .apply (.binary op) a (some b) _ _, ⟨ha, hb, _, hfolded⟩ =>
      simp only [Atom.constant?, hfolded] at hx
      split at hx
      · obtain ⟨y, hy, hx⟩ := Option.bind_eq_some_iff.1 hx
        obtain ⟨z, hz, rfl⟩ := Option.map_eq_some_iff.1 hx
        simp only [meaning, operand ha hy, operand hb hz, Op.apply2, Option.bind_some,
          Option.map_some]
      · cases hx
    | .apply (.list _) _ (some _) _ _, ⟨_, _, _, rfl⟩ => cases hx

theorem exists_valuation (hback : t.Backward) (bindings : Bindings) :
    ∃ f, t.Valuation bindings f := by
  suffices h : ∀ n, ∃ f, ∀ id < n, f id = t.meaning bindings f (t.get id) from h t.size
  intro n
  induction n with
  | zero => exact ⟨fun _ => none, nofun⟩
  | succ n ih =>
    obtain ⟨f, hf⟩ := ih
    let g : AtomId → Option Float := fun id =>
      if id = n then t.meaning bindings f (t.get n) else f id
    have hbefore (id x : Nat) (hid : id ≤ n) (hx : x < id) : f x = g x :=
      (if_neg (Nat.ne_of_lt (Nat.lt_of_lt_of_le hx hid))).symm
    refine ⟨g, fun id hid => ?_⟩
    have hle := Nat.le_of_lt_succ hid
    rw [← meaning_congr hback (hbefore id · hle)]
    rcases Nat.lt_or_eq_of_le hle with hlt | rfl
    · exact (if_neg (Nat.ne_of_lt hlt)).trans (hf id hlt)
    · exact if_pos rfl

/-! ### What an evaluation computes -/

theorem getElem?_values (hid : id < vals.size) : vals[id]? = some (valueAt vals id) := by
  simp [valueAt, hid]

theorem valueAt_push_lt {v : Float} {x : Nat} (h : x < vals.size) :
    valueAt (vals.push v) x = valueAt vals x := by
  simp [valueAt, Array.getElem?_push, Nat.ne_of_lt h]

theorem valueAt_push_size {v : Float} : valueAt (vals.push v) vals.size = v := by
  simp [valueAt]

/-- The values of the first `k` atoms, if the evaluation comes so far. -/
def firstValues (t : AtomTable) (bindings : Bindings) (k : Nat) : Except Fault (Array Float) :=
  (t.atoms.toList.take k).foldlM
    (fun values atom => values.push <$> t.atomValue bindings values atom) #[]

/-- The values of all atoms are those of the first ones, once there are no more. -/
theorem values_eq (hk : t.size ≤ k) : t.values bindings = t.firstValues bindings k := by
  rw [firstValues, List.take_of_length_le (by simpa [size] using hk), values]

theorem firstValues_succ (hk : k < t.size) : t.firstValues bindings (k + 1) =
    (t.firstValues bindings k).bind fun vals =>
      vals.push <$> t.atomValue bindings vals (t.get k) := by
  have hk' : k < t.atoms.toList.length := by simpa [size] using hk
  have hget : t.get k = t.atoms.toList[k] := by simp [get, Array.length_toList ▸ hk']
  rw [firstValues, List.take_succ_eq_append_getElem hk', List.foldlM_append, hget]
  exact bind_congr fun _ => by simp

/-- An atom is evaluated to what it means, once the atoms before it have their values. -/
theorem atomValue_eq (hback : t.Backward)
    (hvals : ∀ x : Nat, x < id → f x = some (valueAt vals x)) :
    t.atomValue bindings vals (t.get id) =
      match t.meaning bindings f (t.get id) with
      | some x => .ok x
      | none => .error (t.get id).fault := by
  rw [meaning_congr hback hvals]
  have hmap (ids : List AtomId) :
      allValues (ids.map fun x => some (valueAt vals x)) = some (ids.map (valueAt vals)) :=
    allValues_eq_some.2 (by rw [List.map_map]; rfl)
  cases t.get id with
  | sentinel | const | element => rfl
  | name n =>
    cases hn : bindings n <;> simp only [atomValue, meaning, Atom.fault, hn]
  | apply op a b folded isBoolean =>
    cases op with
    | unary op | binary op => cases b <;> rfl
    | list op =>
      cases hx : op.apply ((t.listArguments a b).map (valueAt vals)) <;>
        simp only [atomValue, meaning, Atom.fault, hmap, Option.bind_some, hx]

namespace Valuation

variable (hback : t.Backward) (hf : t.Valuation bindings f)
include hback hf

/-- An evaluation either comes to the end of the first `k` atoms, or ends at the first one of them
that has no value. -/
theorem firstValues_eq (hk : k ≤ t.size) :
    (∃ vals, t.firstValues bindings k = .ok vals ∧ vals.size = k ∧
      ∀ id < k, f id = some (valueAt vals id)) ∨
    ∃ id < k, f id = none ∧ (∀ x < id, (f x).isSome) ∧
      t.firstValues bindings k = .error (t.get id).fault := by
  induction k with
  | zero => exact .inl ⟨#[], rfl, rfl, nofun⟩
  | succ k ih =>
    rw [firstValues_succ hk]
    rcases ih (Nat.le_of_lt hk) with ⟨vals, hrun, rfl, hvals⟩ | ⟨id, hid, hnone, hbefore, hrun⟩
    · rw [hrun]
      have hvalue := @atomValue_eq t vals.size bindings f vals hback hvals
      rw [← hf vals.size hk] at hvalue
      cases hx : f vals.size with
      | some x =>
        rw [hx] at hvalue
        refine .inl ⟨vals.push x, by simp only [Except.bind, hvalue]; rfl, Array.size_push .., ?_⟩
        intro id hid
        rcases Nat.lt_or_eq_of_le (Nat.le_of_lt_succ hid) with hlt | rfl
        · rw [valueAt_push_lt hlt, hvals id hlt]
        · rw [valueAt_push_size, hx]
      | none =>
        rw [hx] at hvalue
        refine .inr ⟨vals.size, Nat.lt_succ_self _, hx, fun x hx => by rw [hvals x hx]; rfl, ?_⟩
        simp only [Except.bind, hvalue]
        rfl
    · rw [hrun]
      exact .inr ⟨id, Nat.lt_succ_of_lt hid, hnone, hbefore, rfl⟩

/-- The values that an evaluation has computed are those of the valuation. -/
theorem of_firstValues (hk : k ≤ t.size) (h : t.firstValues bindings k = .ok vals) :
    vals.size = k ∧ ∀ id < k, f id = some (valueAt vals id) := by
  rcases hf.firstValues_eq hback hk with ⟨vals', hrun, hvals⟩ | ⟨id, -, -, -, hrun⟩
  · rw [h] at hrun
    cases hrun
    exact hvals
  · rw [h] at hrun
    cases hrun

/-- The values of the first atoms, where all of them have one. -/
theorem firstValues_ok (hk : k ≤ t.size) (hall : ∀ id < k, (f id).isSome) :
    ∃ vals, t.firstValues bindings k = .ok vals ∧ vals.size = k ∧
      ∀ id < k, f id = some (valueAt vals id) := by
  refine (hf.firstValues_eq hback hk).resolve_right ?_
  rintro ⟨id, hid, hnone, -⟩
  have hsome := hall id hid
  rw [hnone] at hsome
  cases hsome

/-- An evaluation comes to the value of the root if every atom has a value, and otherwise it ends at
the first atom that has none. -/
theorem evaluate_eq (hroot : t.root < t.size) :
    (∃ x, f t.root = some x ∧ (∀ id < t.size, (f id).isSome) ∧ t.evaluate bindings = .ok x) ∨
    ∃ id < t.size, f id = none ∧ (∀ x < id, (f x).isSome) ∧
      t.evaluate bindings = .error (t.get id).fault := by
  rw [evaluate, values_eq le_rfl]
  rcases hf.firstValues_eq hback le_rfl with ⟨vals, hrun, -, hvals⟩ |
    ⟨id, hid, hnone, hbefore, hrun⟩
  · rw [hrun]
    exact .inl ⟨_, hvals t.root hroot, fun id hid => by rw [hvals id hid]; rfl, rfl⟩
  · rw [hrun]
    exact .inr ⟨id, hid, hnone, hbefore, rfl⟩

theorem evaluate_ok (hroot : t.root < t.size) (hall : ∀ id < t.size, (f id).isSome) :
    ∃ x, f t.root = some x ∧ t.evaluate bindings = .ok x := by
  rcases hf.evaluate_eq hback hroot with ⟨x, hx, -, hrun⟩ | ⟨id, hid, hnone, -⟩
  · exact ⟨x, hx, hrun⟩
  · have hsome := hall id hid
    rw [hnone] at hsome
    cases hsome

theorem evaluate_error (hroot : t.root < t.size) (hid : id < t.size) (hnone : f id = none)
    (hbefore : ∀ x : Nat, x < id → (f x).isSome) :
    t.evaluate bindings = .error (t.get id).fault := by
  have ends {x y : Nat} (hx : f x = none) (hy : ∀ z : Nat, z < y → (f z).isSome) : y ≤ x := by
    by_contra hlt
    have hsome := hy x (Nat.lt_of_not_le hlt)
    rw [hx] at hsome
    cases hsome
  rcases hf.evaluate_eq hback hroot with ⟨x, -, hall, -⟩ | ⟨first, -, hnone', hbefore', hrun⟩
  · have hsome := hall id hid
    rw [hnone] at hsome
    cases hsome
  · rw [hrun, Nat.le_antisymm (ends hnone hbefore') (ends hnone' hbefore)]

/-- Once an evaluation has come to a value, it is that of the root. -/
theorem of_evaluate (hroot : t.root < t.size) {x : Float} (h : t.evaluate bindings = .ok x) :
    f t.root = some x ∧ ∀ id < t.size, (f id).isSome := by
  rcases hf.evaluate_eq hback hroot with ⟨y, hy, hall, hrun⟩ | ⟨id, -, -, -, hrun⟩
  · rw [h] at hrun
    cases hrun
    exact ⟨hy, hall⟩
  · rw [h] at hrun
    cases hrun

end Valuation

/-- An atom that is first to have no value is a name that is not bound, or a function of a list that
has none for the values of its arguments. -/
theorem Valuation.first_cases (hback : t.Backward) (hf : t.Valuation bindings f) (hid : id < t.size)
    (hnone : f id = none) (hbefore : ∀ x : Nat, x < id → (f x).isSome) :
    (∃ n, t.get id = .name n ∧ bindings n = none) ∨
    ∃ op a b folded isBoolean args, t.get id = .apply (.list op) a b folded isBoolean ∧
      (t.listArguments a b).map f = args.map some ∧ op.apply args = none := by
  rw [hf id hid] at hnone
  have hop (x : Nat) (hx : x ∈ (t.get id).operands) : ∃ v, f x = some v :=
    Option.isSome_iff_exists.1 (hbefore x (hback id x hx))
  cases hget : t.get id with
  | sentinel | const | element => simp [hget, meaning] at hnone
  | name n =>
    rw [hget] at hnone
    exact .inl ⟨n, rfl, hnone⟩
  | apply op a b folded isBoolean =>
    rw [hget] at hnone hop
    cases op with
    | list op =>
      have hargs : (t.listArguments a b).map f =
          ((t.listArguments a b).map fun x => (f x).getD 0).map some := by
        rw [List.map_map]
        refine List.map_congr_left fun x hx => ?_
        obtain ⟨v, hv⟩ := Option.isSome_iff_exists.1
          (hbefore x (hback.lt_of_mem_listArguments hget x hx))
        simp [hv]
      rw [meaning, hargs, allValues_map_some] at hnone
      exact .inr ⟨op, a, b, folded, isBoolean, _, rfl, hargs, hnone⟩
    | unary op | binary op =>
      obtain ⟨v, hv⟩ := hop a (by simp [Atom.operands])
      cases b with
      | none => simp [meaning, hv] at hnone
      | some b =>
        obtain ⟨w, hw⟩ := hop b (by simp [Atom.operands])
        simp [meaning, hv, hw] at hnone

/-- The first `k` atoms have values if the names among them are bound and the functions of lists
have values. -/
theorem Valuation.isSome (hback : t.Backward) (hf : t.Valuation bindings f) (hk : k ≤ t.size)
    (hnames : ∀ id < k, ∀ n, t.get id = .name n → (bindings n).isSome)
    (hlists : ∀ id < k, (t.get id).appliesList = true → (f id).isSome) :
    ∀ id < k, (f id).isSome := by
  intro id
  induction id using Nat.strongRecOn with
  | _ id ih =>
    intro hid
    by_contra hundefined
    have hnone : f id = none := by simpa using hundefined
    rcases hf.first_cases hback (hid.trans_le hk) hnone fun x hx => ih x hx (hx.trans hid) with
      ⟨n, hget, hn⟩ | ⟨op, a, b, folded, isBoolean, args, hget, -, -⟩
    · have hbound := hnames id hid n hget
      rw [hn] at hbound
      cases hbound
    · exact hundefined (hlists id hid (by rw [hget]; rfl))

end AtomTable

end Behavioral
