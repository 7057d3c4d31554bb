import Behavioral.Proofs.Formation
import Behavioral.Proofs.JsonTexts
import Behavioral.Stream.Text

/-!
# What messages tell

The texts of a table's messages tell its size, its root and all of its atoms but for numbers that
are not finite (`messages_text_iff`). A table compiled under default settings has numbers in its
constants only, so two such tables with messages of the same texts differ at most in which of their
constants are infinite and which are not numbers (`compile_messages`). These do differ
(`compile_messages_infinite`).
-/

namespace Behavioral

theorem Op.mem_all (op : Op) : op ∈ Op.all := by
  rcases op with op | op | op <;> cases op <;> decide

theorem Op.title_inj {op op' : Op} : op.title = op'.title ↔ op = op' := by
  have hnodup : (Op.all.map Op.title).Nodup := by decide +kernel
  exact ⟨List.inj_on_of_nodup_map hnodup op.mem_all op'.mem_all, congrArg Op.title⟩

/-! ### Messages -/

namespace Json

variable {x y : Float} {m n : Nat}

theorem printed_ofNat_inj : (ofNat m).printed = (ofNat n).printed ↔ m = n := by
  simp [ofNat]

theorem printed_ofOption_ofNat_inj {m n : Option Nat} :
    (ofOption ofNat m).printed = (ofOption ofNat n).printed ↔ m = n := by
  cases m <;> cases n <;> simp [ofOption, ofNat, printed]

theorem printed_number_iff : (number x).printed = (number y).printed ↔
    x = y ∨ x.isFinite = false ∧ y.isFinite = false := by
  simp only [printed]
  cases hx : x.isFinite <;> cases hy : y.isFinite
  · exact ⟨fun _ => .inr ⟨rfl, rfl⟩, fun _ => rfl⟩
  · refine ⟨nofun, fun h => ?_⟩
    rcases h with rfl | ⟨-, h⟩
    · rw [hx] at hy
      cases hy
    · cases h
  · refine ⟨nofun, fun h => ?_⟩
    rcases h with rfl | ⟨h, -⟩
    · rw [hx] at hy
      cases hy
    · cases h
  · refine ⟨fun h => .inl (number.inj h), fun h => ?_⟩
    rcases h with rfl | ⟨h, -⟩
    · rfl
    · cases h

end Json

theorem atom_text_iff {a b : Atom} {i : Nat} :
    (Message.atom i a).text = (Message.atom i b).text ↔ a.json.printed = b.json.printed := by
  rw [Message.text, Message.text, Json.text_eq_iff]
  simp [Message.json]

theorem beginExpression_text_iff {name : String} {size size' root root' : Nat} :
    (Message.beginExpression name size root).text =
      (Message.beginExpression name size' root').text ↔ size = size' ∧ root = root' := by
  rw [Message.text, Message.text, Json.text_eq_iff]
  simp [Message.json, Json.printed_ofNat_inj]

/-- The texts of the messages for a row of atoms, numbered from `n`. -/
def atomTexts (atoms : List Atom) (n : Nat) : List String :=
  (atoms.zipIdx n).map fun p => (Message.atom p.2 p.1).text

theorem atomTexts_iff : ∀ {xs ys : List Atom} {n : Nat}, atomTexts xs n = atomTexts ys n ↔
    xs.map (·.json.printed) = ys.map (·.json.printed)
  | [], [], _ => by simp
  | [], _ :: _, _ | _ :: _, [], _ => by simp [atomTexts]
  | x :: xs, y :: ys, n => by
    have ih := @atomTexts_iff xs ys (n + 1)
    simp only [atomTexts] at ih
    simp [atomTexts, atom_text_iff, ih]

namespace AtomTable

variable {t t' : AtomTable} {name : String}

theorem messages_text (t : AtomTable) (name : String) : (t.messages name).map Message.text =
    (Message.beginExpression name t.size t.root).text ::
      (atomTexts t.atoms.toList 0 ++ [(Message.endExpression name).text]) := by
  simp [messages, atomTexts, Function.comp_def]

theorem map_json_iff :
    t.atoms.toList.map (·.json.printed) = t'.atoms.toList.map (·.json.printed) ↔
      t.size = t'.size ∧ ∀ id, (t.get id).json.printed = (t'.get id).json.printed := by
  have hget (t : AtomTable) (id : AtomId) :
      (t.atoms.toList.map (·.json.printed))[id]?.getD Atom.sentinel.json.printed =
        (t.get id).json.printed := by
    rw [get, List.getElem?_map, Array.getElem?_toList]
    cases t.atoms[id]? <;> rfl
  constructor
  · intro h
    refine ⟨by simpa [size] using congrArg List.length h, fun id => ?_⟩
    rw [← hget, ← hget, h]
  · rintro ⟨hsize, h⟩
    refine List.ext_getElem (by simpa [size] using hsize) fun id hid hid' => ?_
    have hatom := h id
    rw [← hget, ← hget, List.getElem?_eq_getElem hid, List.getElem?_eq_getElem hid'] at hatom
    exact hatom

/-- The messages of two tables have the same texts just when the tables are the same up to numbers
that are not finite. -/
theorem messages_text_iff :
    (t.messages name).map Message.text = (t'.messages name).map Message.text ↔
      t.size = t'.size ∧ t.root = t'.root ∧
        ∀ id, (t.get id).json.printed = (t'.get id).json.printed := by
  rw [messages_text, messages_text, List.cons.injEq, beginExpression_text_iff, List.append_left_inj,
    atomTexts_iff, map_json_iff]
  constructor
  · rintro ⟨⟨hsize, hroot⟩, -, hatoms⟩
    exact ⟨hsize, hroot, hatoms⟩
  · rintro ⟨hsize, hroot, hatoms⟩
    exact ⟨⟨hsize, hroot⟩, hsize, hatoms⟩

end AtomTable

/-! ### Compiled tables -/

namespace Atom

variable {a b : Atom}

/-- No operator carries a value. -/
def Unfolded : Atom → Prop
  | apply _ _ _ folded _ => folded = none
  | _ => True

theorem unfolded_fold (a : Atom) : a.fold.Unfolded := by
  cases a with
  | apply op a b folded isBoolean => cases folded <;> trivial
  | sentinel | const | element | name => trivial

theorem Unfolded.renumber (h : a.Unfolded) (f : AtomId → AtomId) : (a.renumber f).Unfolded := by
  cases a <;> exact h

def isBounded : Atom → Bool
  | const x _ => !x.isInf
  | _ => true

/-- The same atom, or two constants that are not finite. -/
def Alike (a b : Atom) : Prop :=
  a = b ∨ ∃ x y isBoolean, x.isFinite = false ∧ y.isFinite = false ∧
    a = .const x isBoolean ∧ b = .const y isBoolean

theorem printed_json_iff (ha : a.Unfolded) (hb : b.Unfolded) :
    a.json.printed = b.json.printed ↔ a.Alike b := by
  constructor
  · intro h
    cases a with
    | sentinel =>
      cases b <;> simp [json] at h
      exact .inl rfl
    | const x isBoolean =>
      cases b <;> simp [json, Json.printed_number_iff] at h
      obtain ⟨rfl | ⟨hx, hy⟩, rfl⟩ := h
      · exact .inl rfl
      · exact .inr ⟨_, _, _, hx, hy, rfl, rfl⟩
    | apply op i j folded isBoolean =>
      cases b <;> simp [json, Json.printed_ofNat_inj, Json.printed_ofOption_ofNat_inj,
        Op.title_inj] at h
      obtain ⟨rfl, rfl, rfl, -, rfl⟩ := h
      obtain rfl : folded = none := ha
      obtain rfl := hb
      exact .inl rfl
    | element i j =>
      cases b <;> simp [json, Json.printed_ofNat_inj] at h
      obtain ⟨rfl, rfl⟩ := h
      exact .inl rfl
    | name text =>
      cases b <;> simp [json] at h
      exact .inl (congrArg name h)
  · rintro (rfl | ⟨x, y, isBoolean, hx, hy, rfl, rfl⟩)
    · rfl
    · simp [json, Json.printed_number_iff.2 (.inr ⟨hx, hy⟩)]

end Atom

namespace AtomTable

variable {t t' : AtomTable} {settings : Settings}

theorem unfolded_optimize (hfold : settings.foldConstants = true) (t : AtomTable) (id : AtomId) :
    ((t.optimize settings).get id).Unfolded := by
  have hget (id : AtomId) : (t.fold.get id).Unfolded := by
    rw [get_fold]
    exact Atom.unfolded_fold _
  rw [optimize, if_pos hfold]
  split
  · cases hid : t.fold.kept[id]? with
    | none =>
      rw [get_prune_of_none hid]
      trivial
    | some x =>
      rw [get_prune hid]
      exact (hget x).renumber _
  · exact hget id

/-- No constant is infinite. -/
def Bounded (t : AtomTable) : Prop :=
  ∀ id x isBoolean, t.get id = .const x isBoolean → x.isInf = false

theorem bounded_iff : t.Bounded ↔ t.atoms.all Atom.isBounded = true := by
  rw [Array.all_eq_true]
  constructor
  · intro h id hid
    have hget : t.get id = t.atoms[id] := by simp [get, hid]
    cases hatom : t.atoms[id] with
    | const x isBoolean => rw [Atom.isBounded, h id x isBoolean (hget.trans hatom), Bool.not_false]
    | sentinel | apply | element | name => rfl
  · intro h id x isBoolean hget
    have hid : id < t.size := lt_size_of_get hget (by simp)
    have hbounded := h id hid
    have hatom : t.atoms[id] = .const x isBoolean := by
      rw [← hget, get, Array.getElem?_eq_getElem hid]
      rfl
    rw [hatom, Atom.isBounded, Bool.not_eq_true'] at hbounded
    exact hbounded

instance (t : AtomTable) : Decidable t.Bounded :=
  decidable_of_iff _ bounded_iff.symm

theorem eq_of_get (hsize : t.size = t'.size) (hroot : t.root = t'.root)
    (h : ∀ id, t.get id = t'.get id) : t = t' := by
  obtain ⟨atoms, root⟩ := t
  obtain ⟨atoms', root'⟩ := t'
  obtain rfl : root = root' := hroot
  have hatoms : atoms = atoms' := Array.ext hsize fun id hid hid' => by
    have := h id
    simpa [get, hid, hid'] using this
  rw [hatoms]

theorem eq_of_alike (ht : t.Bounded) (ht' : t'.Bounded) (hsize : t.size = t'.size)
    (hroot : t.root = t'.root) (h : ∀ id, (t.get id).Alike (t'.get id)) : t = t' := by
  refine eq_of_get hsize hroot fun id => ?_
  rcases h id with h | ⟨x, y, isBoolean, hx, hy, hid, hid'⟩
  · exact h
  · rw [hid, hid', Double.eq_of_isNaN (Double.isNaN_of_not_finite hx (ht id x isBoolean hid))
      (Double.isNaN_of_not_finite hy (ht' id y isBoolean hid'))]

end AtomTable

theorem exists_ok_of_any {α : Type} {result : Except Fault α} {p : α → Bool}
    (h : result.toOption.any p = true) : ∃ a, result = .ok a ∧ p a = true := by
  cases result with
  | error f => cases h
  | ok a => exact ⟨a, rfl, h⟩

/-- Two texts that compile under default settings give messages of the same texts just when their
tables are the same up to constants that are not finite, which all look alike; so if no constant is
infinite then the tables are the same. -/
theorem compile_messages {text text' name : String} {t t' : AtomTable}
    (h : compile text {} = .ok t) (h' : compile text' {} = .ok t') :
    ((t.messages name).map Message.text = (t'.messages name).map Message.text ↔
      t.size = t'.size ∧ t.root = t'.root ∧ ∀ id, (t.get id).Alike (t'.get id)) ∧
      (t.Bounded → t'.Bounded →
        (t.messages name).map Message.text = (t'.messages name).map Message.text → t = t') := by
  obtain ⟨items, table, -, -, rfl⟩ := compile_eq_ok.1 h
  obtain ⟨items', table', -, -, rfl⟩ := compile_eq_ok.1 h'
  have hiff : ((table.optimize {}).messages name).map Message.text =
      ((table'.optimize {}).messages name).map Message.text ↔
        (table.optimize {}).size = (table'.optimize {}).size ∧
          (table.optimize {}).root = (table'.optimize {}).root ∧
            ∀ id, ((table.optimize {}).get id).Alike ((table'.optimize {}).get id) := by
    rw [AtomTable.messages_text_iff]
    refine and_congr_right fun _ => and_congr_right fun _ => forall_congr' fun id => ?_
    exact Atom.printed_json_iff (AtomTable.unfolded_optimize rfl table id)
      (AtomTable.unfolded_optimize rfl table' id)
  refine ⟨hiff, fun ht ht' htexts => ?_⟩
  obtain ⟨hsize, hroot, halike⟩ := hiff.1 htexts
  exact AtomTable.eq_of_alike ht ht' hsize hroot halike

theorem compile_messages_gain : ∃ t t', compile "0.1*gain" {} = .ok t ∧
    compile "(1e-1*gain)" {} = .ok t' ∧ t.Bounded ∧ t'.Bounded ∧
      (t.messages "e").map Message.text = (t'.messages "e").map Message.text ∧ t = t' := by
  have hrun : ((compile "0.1*gain" {}).toOption.any fun t =>
      (compile "(1e-1*gain)" {}).toOption.any fun t' => decide (t.Bounded ∧ t'.Bounded ∧
        (t.messages "e").map Message.text = (t'.messages "e").map Message.text)) = true := by
    decide +kernel
  obtain ⟨t, h, hrun⟩ := exists_ok_of_any hrun
  obtain ⟨t', h', hrun⟩ := exists_ok_of_any hrun
  obtain ⟨ht, ht', htexts⟩ := of_decide_eq_true hrun
  exact ⟨t, t', h, h', ht, ht', htexts, (compile_messages h h').2 ht ht' htexts⟩

/-- Infinite constants of either sign look alike. -/
theorem compile_messages_infinite : ∃ t t', compile "1e308*10" {} = .ok t ∧
    compile "-1e308*10" {} = .ok t' ∧
      (t.messages "e").map Message.text = (t'.messages "e").map Message.text ∧ t ≠ t' := by
  have hrun : ((compile "1e308*10" {}).toOption.any fun t =>
      (compile "-1e308*10" {}).toOption.any fun t' =>
        decide ((t.messages "e").map Message.text = (t'.messages "e").map Message.text ∧
          t.rootAtom.constant?.any (0 < ·) = true ∧
            t'.rootAtom.constant?.any (0 < ·) = false)) = true := by
    decide +kernel
  obtain ⟨t, h, hrun⟩ := exists_ok_of_any hrun
  obtain ⟨t', h', hrun⟩ := exists_ok_of_any hrun
  obtain ⟨htexts, hpositive, hnegative⟩ := of_decide_eq_true hrun
  refine ⟨t, t', h, h', htexts, ?_⟩
  rintro rfl
  rw [hpositive] at hnegative
  cases hnegative

end Behavioral
