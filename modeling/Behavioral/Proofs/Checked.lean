import Behavioral.Proofs.Straying

/-!
# Evaluation with every read checked

Evaluation reads atoms and values by position, arguments by number, and the row of a table by place.
`evaluate?` is the same evaluation where a read that finds nothing, or an operator that does not
take what it is given, is no answer at all. On a well-formed table it has one, which is that of the
evaluation, unless a lookup breaks down (`WellFormed.evaluate?_eq`).
-/

namespace Behavioral

/-- The answer of what runs to its end. -/
def answer? {α : Type} : Except Fault α → Option (Except Fault α)
  | .error (.breakdown _) => none
  | result => some result

theorem answer?_eq_none_iff {α : Type} {result : Except Fault α} :
    answer? result = none ↔ ∃ cause, result = .error (.breakdown cause) := by
  rcases result with fault | a
  · cases fault <;> simp [answer?]
  · simp [answer?]

theorem eq_of_answer? {α : Type} {result result' : Except Fault α}
    (h : answer? result = some result') : result = result' := by
  rcases result with fault | a
  · cases fault <;> first | exact Option.some.inj h | cases h
  · exact Option.some.inj h

namespace Op

/-- The value of an operator of one operand. -/
def apply1? : Op → Float → Option Float
  | unary op, a => some (op.apply a)
  | _, _ => none

/-- The value of an operator of two operands. -/
def apply2? : Op → Float → Float → Option Float
  | binary op, a, b => some (op.apply a b)
  | _, _, _ => none

/-- The value of a function of a list: a ratio reads three arguments, and a table an index and whole
breakpoints, of which there is one at least. -/
def applyList? : Op → List Float → Option Float
  | list .ratio, [a, b, c] => some (if b != 0 then a / b else c)
  | list .pwl, index :: points =>
    if points ≠ [] ∧ points.length % 2 = 0 then Breakpoints.lookup? points index else none
  | _, _ => none

theorem applyList?_eq {op : ListOp} {args : List Float} (htakes : op.takes args.length = true)
    (hthree : 3 ≤ args.length) : (list op).applyList? args = op.apply args := by
  cases op with
  | ratio =>
    simp only [ListOp.takes, beq_iff_eq] at htakes
    obtain ⟨a, b, c, rfl⟩ := List.length_eq_three.1 htakes
    rfl
  | pwl =>
    obtain ⟨index, points, rfl⟩ := List.exists_cons_of_length_pos (by omega : 0 < args.length)
    simp only [ListOp.takes, List.length_cons, beq_iff_eq] at htakes hthree
    have hne : points ≠ [] := List.ne_nil_of_length_pos (by omega)
    have heven : points.length % 2 = 0 := by omega
    rw [applyList?, if_pos ⟨hne, heven⟩, Breakpoints.lookup?_eq, ListOp.apply]

end Op

namespace AtomTable

variable {t : AtomTable} {id : Nat} {vals : Array Float} {bindings : Bindings}

/-- The sentinel is the first atom only, every operand is an earlier atom behind it, operators have
as many operands as they take, and so do the functions of a list. -/
structure WellFormed (t : AtomTable) : Prop where
  sentinel : ∀ id < t.size, t.get id = .sentinel ↔ id = 0
  operands : ∀ id < t.size, ∀ x ∈ (t.get id).operands, Within id x
  root : Within t.size t.root
  arity : ∀ id op a b folded isBoolean, t.get id = .apply op a b folded isBoolean →
    (b = none ↔ ∃ u, op = .unary u)
  ratio : ∀ id a b folded isBoolean, t.get id = .apply (.list .ratio) a b folded isBoolean →
    (t.listArguments a b).length = 3
  pwl : ∀ id a b folded isBoolean, t.get id = .apply (.list .pwl) a b folded isBoolean →
    (t.listArguments a b).length % 2 = 1 ∧ 3 ≤ (t.listArguments a b).length

/-- The atoms of a chain, as long as the elements followed are there and come to an end. -/
def chain? (t : AtomTable) : Nat → AtomId → Option (List AtomId)
  | 0, _ => none
  | fuel + 1, id =>
    match t.atoms[id]? with
    | none => none
    | some (.element a b) => (chain? t fuel b).map (a :: ·)
    | some _ => some [id]

def listArguments? (t : AtomTable) (first : AtomId) : Option AtomId → Option (List AtomId)
  | none => some [first]
  | some id => (t.chain? t.size id).map (first :: ·)

def atomValue? (t : AtomTable) (bindings : Bindings) (values : Array Float) :
    Atom → Option (Except Fault Float)
  | .apply (.list op) a b _ _ => do
    let ids ← t.listArguments? a b
    let args ← ids.mapM fun id => values[id]?
    let value ← (Op.list op).applyList? args
    return .ok value
  | .apply op a none _ _ => do
    let value ← op.apply1? (← values[a]?)
    return .ok value
  | .apply op a (some b) _ _ => do
    let value ← op.apply2? (← values[a]?) (← values[b]?)
    return .ok value
  | atom => some (t.atomValue bindings values atom)

/-- The values of the atoms, behind those that have been computed. -/
def valuesFrom? (t : AtomTable) (bindings : Bindings) :
    List Atom → Array Float → Option (Except Fault (Array Float))
  | [], values => some (.ok values)
  | atom :: rest, values =>
    match t.atomValue? bindings values atom with
    | none => none
    | some (.error fault) => some (.error fault)
    | some (.ok value) => valuesFrom? t bindings rest (values.push value)

def evaluate? (t : AtomTable) (bindings : Bindings) : Option (Except Fault Float) :=
  match t.valuesFrom? bindings t.atoms.toList #[] with
  | none => none
  | some (.error fault) => some (.error fault)
  | some (.ok values) => values[t.root]?.map .ok

theorem getElem?_atoms (hid : id < t.size) : t.atoms[id]? = some (t.get id) := by
  have hid : id < t.atoms.size := hid
  simp [get, hid]

theorem mapM_values {ids : List AtomId} (h : ∀ id ∈ ids, id < vals.size) :
    ids.mapM (fun id => vals[id]?) = some (ids.map (valueAt vals)) := by
  induction ids with
  | nil => rfl
  | cons id ids ih =>
    obtain ⟨hid, hids⟩ := List.forall_mem_cons.1 h
    rw [List.mapM_cons, getElem?_values hid, ih hids]
    rfl

namespace WellFormed

variable (h : t.WellFormed)
include h

theorem backward : t.Backward := by
  intro id x hx
  by_cases hid : id < t.size
  · exact (h.operands id hid x hx).2
  · rw [get_of_size_le (Nat.le_of_not_lt hid)] at hx
    cases hx

theorem chain?_eq : ∀ {fuel id : Nat}, id < fuel → id < t.size →
    t.chain? fuel id = some (t.chain fuel id)
  | fuel + 1, id, hfuel, hid => by
    rw [chain?, chain, getElem?_atoms hid]
    cases hget : t.get id with
    | element a b =>
      have hb := (h.backward.element hget).2
      have hfuel' := Nat.lt_of_lt_of_le hb (Nat.le_of_lt_succ hfuel)
      simp only [chain?_eq hfuel' (Nat.lt_trans hb hid), Option.map_some]
    | sentinel | const | apply | name => rfl

/-- The arguments of an atom are there. -/
theorem listArguments?_eq {op : Op} {a : AtomId} {b : Option AtomId} {folded : Option Float}
    {isBoolean : Bool} (hid : id < t.size) (hget : t.get id = .apply op a b folded isBoolean) :
    t.listArguments? a b = some (t.listArguments a b) := by
  cases b with
  | none => rfl
  | some b =>
    have hb : b < id := (h.operands id hid b (by simp [hget, Atom.operands])).2
    rw [listArguments?, h.chain?_eq (hb.trans hid) (hb.trans hid), listArguments, Option.map_some]

theorem takes {op : ListOp} {a : AtomId} {b : Option AtomId} {folded : Option Float}
    {isBoolean : Bool} (hget : t.get id = .apply (.list op) a b folded isBoolean) :
    op.takes (t.listArguments a b).length = true ∧ 3 ≤ (t.listArguments a b).length := by
  cases op with
  | ratio =>
    have hthree := h.ratio id a b folded isBoolean hget
    simp [ListOp.takes, hthree]
  | pwl =>
    obtain ⟨hodd, hthree⟩ := h.pwl id a b folded isBoolean hget
    simp [ListOp.takes, hodd, hthree]

/-- Every read that the value of an atom takes finds what it is to find, unless a lookup breaks
down. -/
theorem atomValue?_eq (hid : id < t.size) (hvals : vals.size = id) :
    t.atomValue? bindings vals (t.get id) = answer? (t.atomValue bindings vals (t.get id)) := by
  cases hget : t.get id with
  | sentinel | const | element => rfl
  | name n =>
    rw [atomValue?, atomValue]
    · cases bindings n <;> rfl
    all_goals simp
  | apply op a b folded isBoolean =>
    have harity := h.arity id op a b folded isBoolean hget
    have hoperands := h.operands id hid
    rw [hget] at hoperands
    have ha : vals[a]? = some (valueAt vals a) :=
      getElem?_values (hvals ▸ (hoperands a (by simp [Atom.operands])).2)
    cases op with
    | unary op =>
      obtain rfl : b = none := harity.2 ⟨op, rfl⟩
      simp only [atomValue?, ha, Option.bind_eq_bind, Option.bind_some]
      rfl
    | binary op =>
      cases b with
      | none =>
        obtain ⟨u, hu⟩ := harity.1 rfl
        cases hu
      | some b =>
        have hb : vals[b]? = some (valueAt vals b) :=
          getElem?_values (hvals ▸ (hoperands b (by simp [Atom.operands])).2)
        simp only [atomValue?, ha, hb, Option.bind_eq_bind, Option.bind_some]
        rfl
    | list op =>
      obtain ⟨htakes, hthree⟩ := h.takes hget
      have hread := @mapM_values vals (t.listArguments a b) fun x hx =>
        hvals ▸ h.backward.lt_of_mem_listArguments hget x hx
      have hvalue : (Op.list op).applyList? ((t.listArguments a b).map (valueAt vals)) =
          op.apply ((t.listArguments a b).map (valueAt vals)) :=
        Op.applyList?_eq (by rwa [List.length_map]) (by rwa [List.length_map])
      simp only [atomValue?, atomValue, h.listArguments?_eq hid hget, hread, hvalue,
        Option.bind_eq_bind, Option.bind_some]
      cases op.apply ((t.listArguments a b).map (valueAt vals)) <;> rfl

theorem valuesFrom?_eq : ∀ {after before : List Atom} {vals : Array Float},
    t.atoms.toList = before ++ after → vals.size = before.length →
    t.valuesFrom? bindings after vals =
      answer? (after.foldlM (fun vals atom => vals.push <$> t.atomValue bindings vals atom) vals)
  | [], _, _, _, _ => rfl
  | atom :: after, before, vals, hsplit, hsize => by
    have hid : vals.size < t.size := by
      have hlength : t.size = before.length + (after.length + 1) := by
        rw [size, ← Array.length_toList, hsplit, List.length_append, List.length_cons]
      omega
    have hget : t.get vals.size = atom := by
      rw [get, ← Array.getElem?_toList, hsplit, hsize]
      simp
    have hvalue := @atomValue?_eq t vals.size vals bindings h hid rfl
    rw [hget] at hvalue
    rw [valuesFrom?, hvalue, List.foldlM_cons]
    cases t.atomValue bindings vals atom with
    | error fault => cases fault <;> rfl
    | ok value =>
      have hsplit' : t.atoms.toList = (before ++ [atom]) ++ after := by simp [hsplit]
      exact valuesFrom?_eq hsplit' (by simp [hsize])

end WellFormed

/-- The values are as many as the atoms. -/
theorem size_foldlM_values : ∀ {atoms : List Atom} {vals result : Array Float},
    atoms.foldlM (fun vals atom => vals.push <$> t.atomValue bindings vals atom) vals =
      .ok result → result.size = vals.size + atoms.length
  | [], _, _, h => by
    cases h
    rfl
  | atom :: atoms, vals, result, h => by
    rw [List.foldlM_cons] at h
    cases hvalue : t.atomValue bindings vals atom with
    | error fault =>
      rw [hvalue] at h
      cases h
    | ok value =>
      rw [hvalue] at h
      rw [size_foldlM_values h, Array.size_push, List.length_cons]
      omega

/-- No read of the evaluation of a well-formed table fails, and no operator is left without what it
takes, unless the evaluation breaks down. -/
theorem WellFormed.evaluate?_eq (h : t.WellFormed) (bindings : Bindings) :
    t.evaluate? bindings = answer? (t.evaluate bindings) := by
  have hvalues := @WellFormed.valuesFrom?_eq t bindings h t.atoms.toList [] #[] rfl rfl
  unfold evaluate? evaluate values
  rw [hvalues]
  cases hfold : t.atoms.toList.foldlM
      (fun vals atom => vals.push <$> t.atomValue bindings vals atom) #[] with
  | error fault => cases fault <;> rfl
  | ok vals =>
    have hsize := size_foldlM_values hfold
    have hroot : t.root < vals.size := by
      rw [hsize, Array.length_toList, Array.size_empty, Nat.zero_add]
      exact h.root.2
    simp only [answer?, getElem?_values hroot, Option.map_some]
    rfl

/-- On a well-formed table the only read that fails is that of a lookup that strays. -/
theorem WellFormed.evaluate?_eq_none_iff (h : t.WellFormed) (bindings : Bindings) :
    t.evaluate? bindings = none ↔ t.Strays bindings := by
  rw [h.evaluate?_eq, answer?_eq_none_iff, ← evaluate_eq_breakdown_iff h.backward h.root.2]
  constructor
  · rintro ⟨cause, hbroken⟩
    rcases evaluate_cases h.backward h.root.2 bindings with
      ⟨x, hx⟩ | ⟨id, n, -, -, hn⟩ | hstrays
    · rw [hbroken] at hx
      cases hx
    · rw [hbroken] at hn
      cases hn
    · exact hstrays
  · exact fun hbroken => ⟨_, hbroken⟩

theorem WellFormed.evaluate?_of_not_strays (h : t.WellFormed) (hstrays : ¬t.Strays bindings) :
    t.evaluate? bindings = some (t.evaluate bindings) := by
  cases hrun : t.evaluate? bindings with
  | none => exact absurd ((h.evaluate?_eq_none_iff bindings).1 hrun) hstrays
  | some result =>
    rw [h.evaluate?_eq] at hrun
    rw [eq_of_answer? hrun]

end AtomTable

end Behavioral
