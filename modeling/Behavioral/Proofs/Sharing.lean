import Behavioral.Proofs.Capacity
import Behavioral.Proofs.Mirroring
import Behavioral.Proofs.Naming

/-!
# Shared constants

A literal shares the atom of an earlier one that it equals, and the zeros equal each other. So every
literal has an atom that holds its own value just when the text does not have zeros of both signs
(`holds_leaves_iff`).

A text that has no such zeros evaluates as if each literal had an atom of its own
(`compile_sharing`): the table whose literals are kept apart grows beside the one that shares them,
and each atom of the one is an atom of the other, up to which copy of a literal it refers to
(`Copies`). With zeros of both signs that fails, because an operator can tell them apart
(`compile_sharing_zeros`).
-/

namespace Behavioral

open AtomTable Assembly Correspondence Reduction

namespace Assembly

/-- Adds an atom at the end, whatever the table holds already. -/
def appendAtom (atom : Atom) : Build AtomTable AtomId := fun t =>
  if t.size < limit then .ok (t.size, { t with atoms := t.atoms.push atom })
  else .error (.grammar (.tooManyAtoms limit))

/-- The algebra that gives every literal an atom of its own. -/
def apart (fold : Bool) : Algebra AtomTable AtomId :=
  { algebra fold with number := fun x => appendAtom (.const x false) }

end Assembly

/-- The atoms of items, each literal with an atom of its own. -/
def assembleApart (fold : Bool) (items : Items) : Except Fault AtomTable := do
  let (root, table) ← (Reduction.run (Assembly.apart fold) items).run AtomTable.empty
  return { table with root }

/-- Compiles without sharing literals. -/
def compileApart (text : String) (settings : Settings) : Except Fault AtomTable := do
  let items ← itemsOf text settings
  let table ← assembleApart settings.foldConstants items
  return table.optimize settings

variable {fold : Bool} {Leaf : ParseTree → Prop} {t t' u u' : AtomTable} {a b x y : AtomId}
  {A B : Atom} {w : AtomTable × AtomTable} {items : Items} {text : String} {settings : Settings}
  {f g : AtomId → Option Float} {bindings : Bindings}

/-! ### The atoms of literals -/

namespace AtomTable

/-- The atom holds the value of the literal, if it is one. -/
def Holds (t : AtomTable) (l : ParseTree) (a : AtomId) : Prop :=
  ∀ x, l = .number x → t.get a = .const x false

/-- There is no room for the one zero where the other one is. -/
def SharesZeros (t : AtomTable) : Prop :=
  ∀ i j, ¬(t.get i = .const 0 false ∧ t.get j = .const (-0) false)

theorem SharesZeros.intern (h : SharesZeros t) (hintern : t.intern A = .ok (a, t')) :
    SharesZeros t' := by
  rcases of_intern hintern with ⟨rfl, -⟩ | ⟨hnew, -, rfl⟩
  · exact h
  · have hzero : Atom.sameContent (.const 0 false) (.const (-0) false) = true := by decide +kernel
    have hneg : Atom.sameContent (.const (-0) false) (.const 0 false) = true := by decide +kernel
    have place {i : AtomId} {x : Float}
        (hi : AtomTable.get { t with atoms := t.atoms.push A } i = .const x false) :
        t.get i = .const x false ∨ A = .const x false := by
      rcases Nat.lt_or_ge i t.size with hlt | hge
      · exact .inl (get_push_lt hlt ▸ hi)
      · have hlast : i < t.size + 1 := (lt_size_of_get hi nofun).trans_eq size_push
        obtain rfl : i = t.size := Nat.le_antisymm (Nat.le_of_lt_succ hlast) hge
        exact .inr (get_push_size.symm.trans hi)
    rintro i j ⟨hi, hj⟩
    rcases place hi with hi | rfl <;> rcases place hj with hj | hj
    · exact h i j ⟨hi, hj⟩
    · have hsame := hnew i
      rw [hi, hj, hzero] at hsame
      cases hsame
    · have hsame := hnew j
      rw [hj, hneg] at hsame
      cases hsame
    · have hdiffer : (0 : Float) ≠ -0 := by decide +kernel
      exact hdiffer (Atom.const.inj hj).1

end AtomTable

theorem Item.leaf_of_mem_literals {x : Float} (items : Items) (h : x ∈ literals items) :
    .number x ∈ leaves items := by
  fun_induction leaves items with
  | case1 => cases h
  | case2 start f stop openStart openStop rest ih => exact ih h
  | case3 start y stop rest ih =>
    simpa [literals] using Or.imp_right ih (by simpa [literals] using h)
  | case4 start n stop rest hcall ih => exact List.mem_cons_of_mem _ (ih h)
  | case5 i rest hcall hnumber hname ih =>
    rw [literals] at h
    · exact ih h
    · assumption

/-- Reading leaves without zeros of both signs makes atoms that hold their values. -/
theorem holds_leaves (hdistinct : Distinct Leaf) {ls : List ParseTree} :
    ∀ {t t' : AtomTable} {as : List AtomId}, Sound fold Leaf t → (∀ l ∈ ls, Leaf l) →
      ls.mapM (leaf (algebra fold)) t = .ok (as, t') →
      Extends t t' ∧ List.Forall₂ t'.Holds ls as := by
  induction ls with
  | nil =>
    intro t t' as _ _ h
    cases h
    exact ⟨.refl t, .nil⟩
  | cons l ls ih =>
    intro t t' as hsound hleaf h
    obtain ⟨hl, hls⟩ := List.forall_mem_cons.1 hleaf
    rw [List.mapM_cons] at h
    obtain ⟨a, t₁, ha, h⟩ := build_bind_eq_ok.1 h
    obtain ⟨rest, t₂, hrest, has⟩ := build_bind_eq_ok.1 h
    cases has
    -- the first leaf is interned as it is, and stays where it is
    have read (atom : Atom) (hatom : Formed fold Leaf t t.size atom)
        (hholds : ∀ x, l = .number x → atom = .const x false)
        (hintern : t.intern atom = .ok (a, t₁)) :
        Extends t t' ∧ List.Forall₂ t'.Holds (l :: ls) (a :: rest) := by
      rcases hsound.intern (fun _ _ _ => hdistinct) hatom with
        ⟨id, t'', hok, hext, hsound', hid, hget, -⟩ | hfull
      · rw [hintern] at hok
        cases hok
        obtain ⟨hext', hforall⟩ := ih hsound' hls hrest
        refine ⟨hext.trans hext', .cons (fun x hx => ?_) hforall⟩
        rw [hext'.get a hid.2, hget, hholds x hx]
      · rw [hintern] at hfull
        cases hfull
    cases l with
    | number x => exact read (.const x false) ⟨rfl, hl⟩ (by rintro _ ⟨⟩; rfl) ha
    | name n => exact read (.name n) hl nofun ha
    | _ => cases ha

theorem sharesZeros_leaves {ls : List ParseTree} {as : List AtomId} (ht : SharesZeros t)
    (h : ls.mapM (leaf (algebra fold)) t = .ok (as, t')) : SharesZeros t' :=
  mapM_leaf_keeps (P := SharesZeros)
    (fun x _ _ _ ha ht => SharesZeros.intern (A := .const x false) ht ha)
    (fun n _ _ _ ha ht => SharesZeros.intern (A := .name n) ht ha) h ht

theorem distinct_leaves (h : OneZero (Item.literals items)) : Distinct (· ∈ leaves items) :=
  fun ⟨hzero, hneg⟩ => h ⟨Item.mem_literals _ hzero, Item.mem_literals _ hneg⟩

/-- Every literal has an atom that holds its value just when there are no zeros of both signs. -/
theorem holds_leaves_iff {ps : List (Spanned (Piece AtomId))}
    (h : pieces (algebra fold) items AtomTable.empty = .ok (ps, t)) :
    List.Forall₂ t.Holds (leaves items) (operands ps) ↔ OneZero (Item.literals items) := by
  have hread := leaves_of_pieces items h
  constructor
  · rintro hholds ⟨hzero, hneg⟩
    have held {x : Float} (hx : x ∈ Item.literals items) : ∃ a, t.get a = .const x false := by
      obtain ⟨i, hi, hleaf⟩ := List.getElem_of_mem (Item.leaf_of_mem_literals items hx)
      exact ⟨_, hholds.get hi (hholds.length_eq ▸ hi) x hleaf⟩
    obtain ⟨i, hi⟩ := held hzero
    obtain ⟨j, hj⟩ := held hneg
    have hempty : SharesZeros AtomTable.empty := by
      rintro i j ⟨hi, -⟩
      have hlt : i < 1 := lt_size_of_get hi nofun
      obtain rfl : i = 0 := Nat.lt_one_iff.1 hlt
      cases hi
    exact sharesZeros_leaves hempty hread i j ⟨hi, hj⟩
  · intro hzero
    exact (holds_leaves (distinct_leaves hzero) sound_empty (fun _ => id) hread).2

/-! ### Tables with copies of literals -/

namespace AtomTable

/-- The second atom is the first one, except for which copies of literals it refers to. -/
inductive Copies (t u : AtomTable) : AtomId → AtomId → Prop
  | const {a b : AtomId} {x : Float} {isBoolean : Bool} :
      t.get a = .const x isBoolean → u.get b = .const x isBoolean → Copies t u a b
  | name {a b : AtomId} {n : String} : t.get a = .name n → u.get b = .name n → Copies t u a b
  | one {a b x y : AtomId} {op : Op} {folded : Option Float} {isBoolean : Bool} :
      t.get a = .apply op x none folded isBoolean → u.get b = .apply op y none folded isBoolean →
      Copies t u x y → Copies t u a b
  | two {a b x y x' y' : AtomId} {op : Op} {folded : Option Float} {isBoolean : Bool} :
      t.get a = .apply op x (some x') folded isBoolean →
      u.get b = .apply op y (some y') folded isBoolean → Copies t u x y → Copies t u x' y' →
      Copies t u a b
  | element {a b x y x' y' : AtomId} : t.get a = .element x x' → u.get b = .element y y' →
      Copies t u x y → Copies t u x' y' → Copies t u a b

namespace Copies

theorem mono (ht : Extends t t') (hu : Extends u u') (h : Copies t u a b) : Copies t' u' a b := by
  induction h with
  | const ha hb => exact .const (ht.get_eq ha nofun) (hu.get_eq hb nofun)
  | name ha hb => exact .name (ht.get_eq ha nofun) (hu.get_eq hb nofun)
  | one ha hb _ ih => exact .one (ht.get_eq ha nofun) (hu.get_eq hb nofun) ih
  | two ha hb _ _ ih ih' => exact .two (ht.get_eq ha nofun) (hu.get_eq hb nofun) ih ih'
  | element ha hb _ _ ih ih' => exact .element (ht.get_eq ha nofun) (hu.get_eq hb nofun) ih ih'

theorem isBoolean_eq (h : Copies t u a b) : (t.get a).isBoolean = (u.get b).isBoolean := by
  cases h with
  | const ha hb | name ha hb | one ha hb | two ha hb | element ha hb =>
    simp only [ha, hb, Atom.isBoolean]

theorem constant_eq (h : Copies t u a b) : (t.get a).constant? = (u.get b).constant? := by
  cases h with
  | const ha hb | name ha hb | one ha hb | two ha hb | element ha hb =>
    simp only [ha, hb, Atom.constant?]

theorem lt_size (h : Copies t u a b) : a < t.size ∧ b < u.size := by
  cases h with
  | const ha hb | name ha hb | one ha hb | two ha hb | element ha hb =>
    exact ⟨lt_size_of_get ha (by simp), lt_size_of_get hb (by simp)⟩

/-- What is copied has the same value, or none. -/
theorem value (ht : t.Backward) (hu : u.Backward) (hf : t.Valuation bindings f)
    (hg : u.Valuation bindings g) (h : Copies t u a b) :
    f a = g b ∧ (t.chain t.size a).map f = (u.chain u.size b).map g := by
  have meant {a b : AtomId} {A B : Atom} (ha : t.get a = A) (hb : u.get b = B)
      (hA : A ≠ .sentinel) (hB : B ≠ .sentinel) :
      f a = t.meaning bindings f A ∧ g b = u.meaning bindings g B := by
    rw [← ha, ← hb]
    exact ⟨hf a (lt_size_of_get ha hA), hg b (lt_size_of_get hb hB)⟩
  induction h with
  | const ha hb | name ha hb =>
    obtain ⟨hfa, hgb⟩ := meant ha hb (by simp) (by simp)
    refine value_single (by simp [ha]) (by simp [hb]) ?_
    rw [hfa, hgb]
    rfl
  | @one _ _ _ _ op _ _ ha hb _ ih =>
    obtain ⟨hfa, hgb⟩ := meant ha hb (by simp) (by simp)
    refine value_single (by simp [ha]) (by simp [hb]) ?_
    rw [hfa, hgb]
    cases op <;> simp only [meaning, listArguments, List.map_cons, List.map_nil, ih.1]
  | @two _ _ _ _ _ _ op _ _ ha hb _ _ ih ih' =>
    obtain ⟨hfa, hgb⟩ := meant ha hb (by simp) (by simp)
    refine value_single (by simp [ha]) (by simp [hb]) ?_
    rw [hfa, hgb]
    cases op <;> simp only [meaning, listArguments, List.map_cons, ih.1, ih'.1, ih'.2]
  | element ha hb _ _ ih ih' =>
    obtain ⟨hfa, hgb⟩ := meant ha hb (by simp) (by simp)
    have hlt := lt_size_of_get ha (by simp)
    have hlt' := lt_size_of_get hb (by simp)
    constructor
    · rw [hfa, hgb]
      rfl
    · rw [chain_element ht ha hlt, chain_element hu hb hlt', List.map_cons, List.map_cons, ih.1,
        ih'.2]

end Copies

/-- A table that shares its literals, beside one that keeps them apart: every atom of the one has a
copy in the other. -/
structure Beside (fold : Bool) (Leaf : ParseTree → Prop) (t u : AtomTable) : Prop where
  shared : Sound fold Leaf t
  apart : Sound fold Leaf u
  names : t.names = u.names
  covered : ∀ a, Within t.size a → ∃ b, Copies t u a b
  reached : ∀ b, Within u.size b → ∃ a, Copies t u a b

/-- Atoms that are copies wherever they stand keep the tables beside each other. -/
theorem Beside.grow (h : Beside fold Leaf t u) (ht : Extends t t') (hu : Extends u u')
    (hshared : Sound fold Leaf t') (hapart : Sound fold Leaf u') (hnames : t'.names = u'.names)
    (hA : Adds t t' (· = A)) (hB : Adds u u' (· = B)) (hget : t'.get a = A) (hget' : u'.get b = B)
    (hcopies : ∀ a b, t'.get a = A → u'.get b = B → Copies t' u' a b) : Beside fold Leaf t' u' := by
  refine ⟨hshared, hapart, hnames, fun x hx => ?_, fun y hy => ?_⟩
  · rcases Nat.lt_or_ge x t.size with hlt | hge
    · obtain ⟨y, hxy⟩ := h.covered x ⟨hx.1, hlt⟩
      exact ⟨y, hxy.mono ht hu⟩
    · exact ⟨b, hcopies x b (hA x hge hx.2) hget'⟩
  · rcases Nat.lt_or_ge y u.size with hlt | hge
    · obtain ⟨x, hxy⟩ := h.reached y ⟨hy.1, hlt⟩
      exact ⟨x, hxy.mono ht hu⟩
    · exact ⟨a, hcopies a y hget (hB y hge hy.2)⟩

/-- Every atom of the one table has a value just when every atom of the other has. -/
theorem Beside.isSome_iff (h : Beside fold Leaf t u) (hf : t.Valuation bindings f)
    (hg : u.Valuation bindings g) :
    (∀ a < t.size, (f a).isSome) ↔ ∀ b < u.size, (g b).isSome := by
  have hvalue {a b : AtomId} (hab : Copies t u a b) : f a = g b :=
    (hab.value h.shared.backward h.apart.backward hf hg).1
  have hzero {t : AtomTable} {f : AtomId → Option Float} (hsound : Sound fold Leaf t)
      (hf : t.Valuation bindings f) : (f 0).isSome := by
    rw [hf 0 hsound.pos, hsound.sentinel]
    rfl
  constructor
  · intro hall b hb
    rcases Nat.eq_zero_or_pos b with rfl | hpos
    · exact hzero h.apart hg
    · obtain ⟨a, hab⟩ := h.reached b ⟨hpos, hb⟩
      exact hvalue hab ▸ hall a hab.lt_size.1
  · intro hall a ha
    rcases Nat.eq_zero_or_pos a with rfl | hpos
    · exact hzero h.shared hf
    · obtain ⟨b, hab⟩ := h.covered a ⟨hpos, ha⟩
      exact hvalue hab ▸ hall b hab.lt_size.2

/-- An argument or the rest of a chain, and its copy. -/
structure Linked (t u : AtomTable) (a b : AtomId) : Prop where
  left : Within t.size a
  right : Within u.size b
  copies : Copies t u a b

/-- An operand and its copy. -/
structure Copied (t u : AtomTable) (a b : AtomId) : Prop where
  left : t.IsOperand t.size a
  right : u.IsOperand u.size b
  copies : Copies t u a b

theorem Copied.mono (ht : Extends t t') (hu : Extends u u') (h : Copied t u a b) :
    Copied t' u' a b :=
  ⟨h.left.mono ht le_rfl ht.size, h.right.mono hu le_rfl hu.size, h.copies.mono ht hu⟩

theorem Copied.linked (h : Copied t u a b) : Linked t u a b :=
  ⟨h.left.within, h.right.within, h.copies⟩

end AtomTable

namespace Assembly

theorem both_grow_refl (w : AtomTable × AtomTable) : Extends w.1 w.1 ∧ Extends w.2 w.2 :=
  ⟨.refl w.1, .refl w.2⟩

theorem both_grow_trans {w w' w'' : AtomTable × AtomTable}
    (h : Extends w.1 w'.1 ∧ Extends w.2 w'.2) (h' : Extends w'.1 w''.1 ∧ Extends w'.2 w''.2) :
    Extends w.1 w''.1 ∧ Extends w.2 w''.2 :=
  ⟨h.1.trans h'.1, h.2.trans h'.2⟩

/-- Sharing literals beside keeping them apart; either table may be full before the other. -/
def copying (fold : Bool) (Leaf : ParseTree → Prop) :
    Correspondence AtomTable AtomTable AtomId AtomId where
  Inv w := Beside fold Leaf w.1 w.2
  Grows w w' := Extends w.1 w'.1 ∧ Extends w.2 w'.2
  Rel w a b := Copied w.1 w.2 a b
  Excused f := f = .grammar (.tooManyAtoms limit)
  Pardoned f := f = .grammar (.tooManyAtoms limit)
  refl := both_grow_refl
  trans := @both_grow_trans
  mono h hab := hab.mono h.1 h.2

variable {P : AtomTable × AtomTable → AtomId → AtomId → Prop}

theorem names_intern_congr (h : t.names = u.names) (htext : A.text? = B.text?)
    (ht : t.intern A = .ok (a, t')) (hu : u.intern B = .ok (b, u')) : t'.names = u'.names := by
  have name_of_text? {atom : Atom} {n : String} (h : atom.text? = some n) : atom = .name n := by
    cases atom <;> cases h
    rfl
  cases hA : A.text? with
  | none => rw [names_intern hA ht, names_intern (htext ▸ hA) hu, h]
  | some n =>
    obtain rfl := name_of_text? hA
    obtain rfl := name_of_text? (htext ▸ hA)
    rw [names_intern_name ht, names_intern_name hu, h]

/-- Atoms other than literals are interned side by side. -/
theorem addAtom_copied (hA : Formed fold Leaf w.1 w.1.size A) (hB : Formed fold Leaf w.2 w.2.size B)
    (hconstA : ∀ x k, A ≠ .const x k) (hconstB : ∀ x k, B ≠ .const x k)
    (htext : A.text? = B.text?)
    (hcopies : ∀ w' : AtomTable × AtomTable, (copying fold Leaf).Grows w w' → ∀ a b,
      w'.1.get a = A → w'.2.get b = B → Copies w'.1 w'.2 a b)
    (hP : ∀ w' a b, Linked w'.1 w'.2 a b → w'.1.get a = A → w'.2.get b = B → P w' a b) :
    (copying fold Leaf).Agrees w (addAtom A) (addAtom B) P := by
  intro hw
  have h : Beside fold Leaf w.1 w.2 := hw
  show (copying fold Leaf).Outcome w P (w.1.intern A) (w.2.intern B)
  rcases h.shared.intern (fun x k hx => absurd hx (hconstA x k)) hA with
    ⟨a, t, ht, hext, hsound, ha, hget, hadds⟩ | hfull
  · rcases h.apart.intern (fun x k hx => absurd hx (hconstB x k)) hB with
      ⟨b, u, hu, hext', hsound', hb, hget', hadds'⟩ | hfull
    · rw [ht, hu]
      have hcopies' := hcopies (t, u) ⟨hext, hext'⟩
      have hnames := names_intern_congr h.names htext ht hu
      exact .ok ⟨hext, hext'⟩
        (h.grow hext hext' hsound hsound' hnames hadds hadds' hget hget' hcopies')
        (hP (t, u) a b ⟨ha, hb, hcopies' a b hget hget'⟩ hget hget')
    · rw [hfull]
      exact .pardoned rfl
  · rw [hfull]
    exact .excused rfl

/-- What is no list element is an operand. -/
theorem operator_copied (hA : Formed fold Leaf w.1 w.1.size A)
    (hB : Formed fold Leaf w.2 w.2.size B)
    (hconstA : ∀ x k, A ≠ .const x k) (hconstB : ∀ x k, B ≠ .const x k)
    (helementA : ∀ x y, A ≠ .element x y) (helementB : ∀ x y, B ≠ .element x y)
    (htext : A.text? = B.text?)
    (hcopies : ∀ w' : AtomTable × AtomTable, (copying fold Leaf).Grows w w' → ∀ a b,
      w'.1.get a = A → w'.2.get b = B → Copies w'.1 w'.2 a b) :
    (copying fold Leaf).Agrees w (addAtom A) (addAtom B) (copying fold Leaf).Rel := by
  refine addAtom_copied hA hB hconstA hconstB htext hcopies fun w' a b hab hget hget' => ?_
  refine ⟨⟨hab.left, ?_⟩, ⟨hab.right, ?_⟩, hab.copies⟩
  · rw [hget]
    exact helementA
  · rw [hget']
    exact helementB

theorem number_copied (hdistinct : Distinct Leaf) {x : Float} (hx : Leaf (.number x)) :
    (copying fold Leaf).Agrees w (addAtom (.const x false)) (appendAtom (.const x false))
      (copying fold Leaf).Rel := by
  intro hw
  have h : Beside fold Leaf w.1 w.2 := hw
  have hformed {t : AtomTable} : Formed fold Leaf t t.size (.const x false) := ⟨rfl, hx⟩
  show (copying fold Leaf).Outcome w _ (w.1.intern (.const x false))
    (appendAtom (.const x false) w.2)
  unfold appendAtom
  rcases h.shared.intern (fun _ _ _ => hdistinct) hformed with
    ⟨a, t, ht, hext, hsound, ha, hget, hadds⟩ | hfull
  · rw [ht]
    split
    · have hpos := h.apart.pos
      have hget' := @get_push_size w.2 (.const x false)
      have hnames : t.names = names { w.2 with atoms := w.2.atoms.push (.const x false) } := by
        rw [names_intern rfl ht, names_push, h.names]
        exact (List.append_nil _).symm
      refine .ok ⟨hext, extends_push⟩ (h.grow hext extends_push hsound (h.apart.push hformed) hnames
        hadds (adds_of_size size_push hget') hget hget' fun _ _ => .const)
        ⟨⟨ha, ?_⟩, ⟨⟨hpos, ?_⟩, ?_⟩, .const hget hget'⟩
      · rw [hget]
        nofun
      · exact size_push.symm ▸ Nat.lt_succ_self _
      · rw [hget']
        nofun
    · exact .pardoned rfl
  · rw [hfull]
    exact .excused rfl

theorem unary_copied (hab : Copied w.1 w.2 a b) (op : UnaryOp)
    (hkind : (w.1.get a).isBoolean = decide (op = .not)) :
    (copying fold Leaf).Agrees w (applyOp fold (.unary op) a none (decide (op = .not)))
      (applyOp fold (.unary op) b none (decide (op = .not))) (copying fold Leaf).Rel := by
  intro hw
  have hkind' := hab.copies.isBoolean_eq.symm.trans hkind
  rw [applyOp_unary, applyOp_unary, ← hab.copies.constant_eq]
  refine operator_copied ⟨hab.left, rfl, hkind, rfl⟩ ⟨hab.right, rfl, hkind', ?_⟩ nofun nofun nofun
    nofun rfl (fun w' hgrows c d hget hget' => ?_) hw
  · rw [hab.copies.constant_eq]
  · exact .one hget hget' (hab.copies.mono hgrows.1 hgrows.2)

theorem binary_copied {a' b' : AtomId} (hab : Copied w.1 w.2 a b) (hab' : Copied w.1 w.2 a' b')
    (op : BinaryOp) :
    (copying fold Leaf).Agrees w (applyOp fold (.binary op) a (some a') op.isBoolean)
      (applyOp fold (.binary op) b (some b') op.isBoolean) (copying fold Leaf).Rel := by
  intro hw
  rw [applyOp_binary, applyOp_binary, ← hab.copies.constant_eq, ← hab'.copies.constant_eq]
  refine operator_copied ⟨hab.left, hab'.left, rfl, rfl⟩ ⟨hab.right, hab'.right, rfl, ?_⟩ nofun
    nofun nofun nofun rfl (fun w' hgrows c d hget hget' => ?_) hw
  · rw [hab.copies.constant_eq, hab'.copies.constant_eq]
  · exact .two hget hget' (hab.copies.mono hgrows.1 hgrows.2) (hab'.copies.mono hgrows.1 hgrows.2)

/-- Both operands are applications of the operator, or neither is. -/
theorem operandOf?_copied (h : Beside fold Leaf t u) (hab : Copied t u a b) (op : UnaryOp) :
    (operandOf? op (t.get a) = none ∧ operandOf? op (u.get b) = none) ∨
      ∃ x y, operandOf? op (t.get a) = some x ∧ operandOf? op (u.get b) = some y ∧
        Copied t u x y := by
  have hleft := h.shared.formed a hab.left.within
  have hright := h.apart.formed b hab.right.within
  cases hab.copies with
  | const ha hb | name ha hb | two ha hb | element ha hb =>
    rw [ha, hb]
    exact .inl ⟨by simp [operandOf?], by simp [operandOf?]⟩
  | @one _ _ x y op' folded isBoolean ha hb hxy =>
    rw [ha, hb]
    rw [ha] at hleft
    rw [hb] at hright
    match op', hleft, hright with
    | .unary op', hleft, hright =>
      by_cases hop : op' = op
      · have hx := hleft.1.within.2.trans hab.left.within.2
        have hy := hright.1.within.2.trans hab.right.within.2
        exact .inr ⟨x, y, by simp [operandOf?, hop], by simp [operandOf?, hop],
          ⟨⟨hleft.1.within.1, hx⟩, hleft.1.value⟩, ⟨⟨hright.1.within.1, hy⟩, hright.1.value⟩, hxy⟩
      · exact .inl ⟨by simp [operandOf?, hop], by simp [operandOf?, hop]⟩

theorem lead_copied (op : LeadOp) (start : Nat) (hab : Copied w.1 w.2 a b) :
    (copying fold Leaf).Agrees w (applyLead fold op a start) (applyLead fold op b start)
      (copying fold Leaf).Rel := by
  intro hw
  rw [applyLead_eq, applyLead_eq, ← hab.copies.isBoolean_eq]
  split
  · rename_i hkind
    rcases operandOf?_copied hw hab op.unary with ⟨hnone, hnone'⟩ | ⟨x, y, hx, hy, hxy⟩
    · rw [hnone, hnone']
      exact unary_copied hab op.unary hkind hw
    · rw [hx, hy]
      exact agrees_pure hxy hw
  · exact .fault

theorem join_copied (op : BinaryOp) (start : Nat) {a' b' : AtomId} (hab : Copied w.1 w.2 a b)
    (hab' : Copied w.1 w.2 a' b') :
    (copying fold Leaf).Agrees w (applyJoin fold op a a' start) (applyJoin fold op b b' start)
      (copying fold Leaf).Rel := by
  intro hw
  rw [applyJoin_eq, applyJoin_eq, ← hab.copies.isBoolean_eq, ← hab'.copies.isBoolean_eq,
    ← hab'.copies.constant_eq]
  cases htype : typeFault? op (w.1.get a).isBoolean (w.1.get a').isBoolean start with
  | some fault => exact .fault
  | none =>
    dsimp only
    split
    · rename_i hpow
      obtain ⟨rfl, -⟩ := hpow
      have hkind : (w.1.get a).isBoolean = false := by
        cases hboolean : (w.1.get a).isBoolean with
        | false => rfl
        | true => simp [typeFault?, hboolean] at htype
      exact unary_copied hab .square hkind hw
    · split
      · exact .fault
      · exact binary_copied hab hab' op hw

theorem call_copied {op : UnaryOp} {name : String} (start : Nat)
    (hop : UnaryOp.ofFunctionName? name = some op) (hab : Copied w.1 w.2 a b) :
    (copying fold Leaf).Agrees w (applyCall fold op name a start) (applyCall fold op name b start)
      (copying fold Leaf).Rel := by
  intro hw
  rw [applyCall_eq, applyCall_eq, ← hab.copies.isBoolean_eq]
  split
  · exact .fault
  · rename_i hkind
    have hfalse : decide (op = .not) = false := decide_eq_false (ne_not_of_ofFunctionName? hop)
    rw [← hfalse]
    exact unary_copied hab op ((Bool.eq_false_iff.2 hkind).trans hfalse.symm) hw

/-- Arguments are chained side by side. -/
theorem addChain_copied : ∀ {as bs : List AtomId} {w : AtomTable × AtomTable}, as ≠ [] →
    List.Forall₂ (Copied w.1 w.2) as bs →
    (copying fold Leaf).Agrees w (addChain as) (addChain bs) fun w => Linked w.1 w.2
  | [], _, _, hne, _ => absurd rfl hne
  | [a], [b], w, _, .cons hab .nil => agrees_pure hab.linked
  | a :: a' :: as, b :: b' :: bs, w, _, .cons hab hrest => by
    refine (addChain_copied (List.cons_ne_nil a' as) hrest).bind fun w' x y hgrows hxy => ?_
    have hab' := hab.mono hgrows.1 hgrows.2
    refine addAtom_copied ⟨hab'.left, hxy.left⟩ ⟨hab'.right, hxy.right⟩ nofun nofun rfl
      (fun w'' hgrows' c d hget hget' => .element hget hget' ?_ ?_) fun _ _ _ hcd _ _ => hcd
    · exact hab'.copies.mono hgrows'.1 hgrows'.2
    · exact hxy.copies.mono hgrows'.1 hgrows'.2

theorem any_isBoolean_copied {as bs : List AtomId} (habs : List.Forall₂ (Copied t u) as bs) :
    (bs.any fun b => (u.get b).isBoolean) = as.any fun a => (t.get a).isBoolean := by
  induction habs with
  | nil => rfl
  | cons hab _ ih => rw [List.any_cons, List.any_cons, hab.copies.isBoolean_eq, ih]

theorem list_copied (op : ListOp) (name : String) (start : Nat) {as bs : List AtomId}
    (habs : List.Forall₂ (Copied w.1 w.2) as bs) (hthree : 3 ≤ as.length) :
    (copying fold Leaf).Agrees w (applyList op name as start) (applyList op name bs start)
      (copying fold Leaf).Rel := by
  intro hw
  rcases habs with _ | @⟨first, first', rest, rest', hfirst, hrest⟩
  · simp at hthree
  have hne : rest ≠ [] := by
    rintro rfl
    simp at hthree
  rw [applyList_cons, applyList_cons, any_isBoolean_copied (.cons hfirst hrest)]
  split
  · exact .fault
  · have hchain : (copying fold Leaf).Agrees w (addChain rest) (addChain rest')
        fun w => Linked w.1 w.2 := addChain_copied hne hrest
    have hagrees := hchain.bind
      (k := fun tail => addAtom (.apply (.list op) first (some tail) none false))
      (l := fun tail => addAtom (.apply (.list op) first' (some tail) none false))
      (R := (copying fold Leaf).Rel) fun w' x y hgrows hxy => ?_
    · exact hagrees hw
    · have hfirst' := hfirst.mono hgrows.1 hgrows.2
      refine operator_copied ⟨hfirst'.left, hxy.left, rfl, rfl⟩ ⟨hfirst'.right, hxy.right, rfl, rfl⟩
        nofun nofun nofun nofun rfl fun w'' hgrows' c d hget hget' => .two hget hget' ?_ ?_
      · exact hfirst'.copies.mono hgrows'.1 hgrows'.2
      · exact hxy.copies.mono hgrows'.1 hgrows'.2

/-- Assembling with shared literals goes side by side with keeping them apart. -/
theorem copying_simulates (hdistinct : Distinct Leaf) : Simulates (copying fold Leaf) (algebra fold)
    (apart fold) Leaf (fun _ => False) where
  number _ _ hx := number_copied hdistinct hx
  name _ n hn := operator_copied (A := .name n) (B := .name n) hn hn nofun nofun nofun nofun rfl
    fun _ _ _ _ hget hget' => .name hget hget'
  reciprocal _ _ _ _ := False.elim
  lead _ op _ _ start hab := lead_copied op start hab
  join _ op _ _ _ _ start hab hab' := join_copied op start hab hab'
  call _ _ _ _ _ start hop hab := call_copied start hop hab
  callList _ op name _ _ start habs hthree _ := list_copied op name start habs hthree

theorem costs_appendAtom (atom : Atom) : Costs (fun _ => 0) (appendAtom atom) 1 := by
  intro t
  unfold appendAtom
  split
  · refine ⟨fun id t' h => ?_, nofun⟩
    cases h
    exact size_push.le
  · exact ⟨nofun, fun _ => by omega⟩

end Assembly

/-! ### Whole texts -/

theorem assembleApart_full
    (h : assembleApart fold items = .error (.grammar (.tooManyAtoms limit))) :
    limit ≤ items.length := by
  have same : SameOperators (apart fold) (algebra fold) := ⟨rfl, rfl, rfl, rfl⟩
  simp only [assembleApart, StateT.run, bind, Except.bind] at h
  split at h
  · rename_i fault hrun
    cases h
    exact run_full (costs_run (fun _ => costs_appendAtom _) (fun _ => costs_addAtom _)
      same.reduce_eq items) hrun
  · cases h

/-- Another root keeps the tables beside each other. -/
theorem AtomTable.Beside.root (h : Beside fold Leaf t u) (a b : AtomId) :
    Beside fold Leaf { t with root := a } { u with root := b } :=
  have hext := extends_root t a
  have hext' := extends_root u b
  { shared := h.shared.root a
    apart := h.apart.root b
    names := h.names
    covered := fun x hx => (h.covered x hx).imp fun _ hxy => hxy.mono hext hext'
    reached := fun y hy => (h.reached y hy).imp fun _ hxy => hxy.mono hext hext' }

theorem AtomTable.beside_empty : Beside fold Leaf empty empty :=
  ⟨sound_empty, sound_empty, rfl, fun _ ha => absurd ha.2 (Nat.not_lt.2 ha.1),
    fun _ hb => absurd hb.2 (Nat.not_lt.2 hb.1)⟩

theorem namesFirst_assembleApart (h : assembleApart fold items = .ok t) : t.NamesFirst := by
  simp only [assembleApart, StateT.run, bind, Except.bind] at h
  split at h
  · cases h
  · rename_i r hrun
    cases h
    have htable : r.2.NamesFirst := by
      refine namesFirst_of_run (apart fold) ⟨rfl, rfl, rfl, rfl⟩ rfl
        (fun x t t' a hx ht => ?_) hrun
      have hx : appendAtom (.const x false) t = .ok (a, t') := hx
      unfold appendAtom at hx
      split at hx
      · cases hx
        exact Unlisted.push ht rfl
      · cases hx
    exact htable

/-- What is assembled with shared literals is assembled without, unless that is too large. -/
theorem assemble_copied (hzero : OneZero (Item.literals items)) (ht : assemble fold items = .ok t) :
    (∃ u, assembleApart fold items = .ok u ∧ Beside fold (· ∈ leaves items) t u ∧
      Copied t u t.root u.root) ∨
    assembleApart fold items = .error (.grammar (.tooManyAtoms limit)) := by
  obtain ⟨root, table, hrun, rfl⟩ := assemble_eq_ok.1 ht
  have hsimulates : Simulates (copying fold (· ∈ leaves items)) (algebra fold) (apart fold)
      (· ∈ leaves items) (fun _ => False) := copying_simulates (distinct_leaves hzero)
  have hagrees := run_agrees hsimulates (fun _ => False.elim)
    (AtomTable.empty, AtomTable.empty) (expanded_self items) (fun _ => id)
    beside_empty
  rw [hrun] at hagrees
  simp only [assembleApart, StateT.run, bind, Except.bind]
  generalize Reduction.run (apart fold) items AtomTable.empty = y at hagrees ⊢
  cases hagrees with
  | @ok _ u _ b _ hbeside hroot =>
    have hbeside : Beside fold (· ∈ leaves items) table u := hbeside
    exact .inl ⟨_, rfl, hbeside.root root b,
      Copied.mono (extends_root table root) (extends_root u b) hroot⟩
  | pardoned hfull =>
    obtain rfl := hfull
    exact .inr rfl

/-- Tables beside each other evaluate alike. -/
theorem AtomTable.Beside.evaluate_eq (h : Beside fold Leaf t u) (hroot : Copied t u t.root u.root)
    (hfirst : t.NamesFirst) (hfirst' : u.NamesFirst) (bindings : Bindings) :
    u.evaluate bindings = t.evaluate bindings := by
  have hback := h.shared.backward
  have hback' := h.apart.backward
  have hroots := hroot.left.within.2
  have hroots' := hroot.right.within.2
  refine evaluate_congr hback' hback hroots' hroots hfirst' hfirst h.names.symm fun hbound => ?_
  obtain ⟨f, hf⟩ := exists_valuation hback bindings
  obtain ⟨g, hg⟩ := exists_valuation hback' bindings
  rcases evaluate_of_names hback' hroots' hbound with ⟨y, hy⟩ | hstrays'
  · obtain ⟨hgy, hall⟩ := hg.of_evaluate hback' hroots' hy
    obtain ⟨x, hfx, hx⟩ := hf.evaluate_ok hback hroots ((h.isSome_iff hf hg).2 hall)
    have hvalue := (hroot.copies.value hback hback' hf hg).1
    rw [hfx, hgy] at hvalue
    rw [hx, hy, Option.some.inj hvalue]
  · rcases evaluate_of_names hback hroots (h.names ▸ hbound) with ⟨x, hx⟩ | hstrays
    · have hall := (h.isSome_iff hf hg).1 (hf.of_evaluate hback hroots hx).2
      obtain ⟨y, -, hy⟩ := hg.evaluate_ok hback' hroots' hall
      rw [hstrays'] at hy
      cases hy
    · rw [hstrays, hstrays']

/-- Where a text compiles, every literal has an atom that holds its own value just when no two of
the literals are zeros of different signs. Then the text evaluates as if every literal had an atom
of its own, for all bindings, unless the text is too large for that. -/
theorem compile_sharing (h : compile text settings = .ok t) :
    (∃ items ps table, itemsOf text settings = .ok items ∧
      pieces (Assembly.algebra settings.foldConstants) items AtomTable.empty = .ok (ps, table) ∧
      (List.Forall₂ table.Holds (leaves items) (operands ps) ↔
        OneZero (literalsOf text settings))) ∧
    (OneZero (literalsOf text settings) →
      (∃ u, compileApart text settings = .ok u ∧
        ∀ bindings, u.evaluate bindings = t.evaluate bindings) ∨
      (limit ≤ text.length ∧
        compileApart text settings = .error (.grammar (.tooManyAtoms limit)))) := by
  obtain ⟨items, table, hitems, hassemble, rfl⟩ := compile_eq_ok.1 h
  have hliterals : literalsOf text settings = Item.literals items := by rw [literalsOf, hitems]
  rw [hliterals]
  constructor
  · obtain ⟨root, table', hrun, -⟩ := assemble_eq_ok.1 hassemble
    obtain ⟨ps, t₀, hpieces, -⟩ := build_bind_eq_ok.1 hrun
    exact ⟨items, ps, t₀, hitems, hpieces, holds_leaves_iff hpieces⟩
  · intro hzero
    simp only [compileApart, hitems, bind, Except.bind]
    rcases assemble_copied hzero hassemble with ⟨u, hu, hbeside, hroot⟩ | hfull
    · rw [hu]
      refine .inl ⟨_, rfl, fun bindings => ?_⟩
      rw [evaluate_optimize hbeside.apart hroot.right.within.2,
        evaluate_optimize hbeside.shared hroot.left.within.2]
      exact hbeside.evaluate_eq hroot (namesFirst_assemble hassemble) (namesFirst_assembleApart hu)
        bindings
    · rw [hfull]
      exact .inr ⟨(assembleApart_full hfull).trans (length_itemsOf_le hitems), rfl⟩

theorem compile_sharing_negative : ∃ t u, compile "1/(x*-0)+x*-0" {} = .ok t ∧
    compileApart "1/(x*-0)+x*-0" {} = .ok u ∧
      ∀ bindings, u.evaluate bindings = t.evaluate bindings := by
  have hok : (compile "1/(x*-0)+x*-0" {}).isOk = true := by decide +kernel
  cases hcompile : compile "1/(x*-0)+x*-0" {} with
  | error f =>
    rw [hcompile] at hok
    cases hok
  | ok t =>
    rcases (compile_sharing hcompile).2 (by decide +kernel) with ⟨u, hu, hevaluate⟩ | ⟨hfull, -⟩
    · exact ⟨t, u, rfl, hu, hevaluate⟩
    · exact absurd hfull (by decide +kernel)

/-- Zeros of both signs share an atom, although dividing by them makes a difference. -/
theorem compile_sharing_zeros : ∃ t u, compile "0+1/(x*-0)" {} = .ok t ∧
    compileApart "0+1/(x*-0)" {} = .ok u ∧ (∃ v, t.evaluate (fun _ => some 1) = .ok v ∧ 0 < v) ∧
      ∃ v, u.evaluate (fun _ => some 1) = .ok v ∧ v < 0 := by
  have hshared : (compile "0+1/(x*-0)" {}).toOption.any (fun t =>
      (t.evaluate fun _ => some 1).toOption.any (0 < ·)) = true := by decide +kernel
  have hapart : (compileApart "0+1/(x*-0)" {}).toOption.any (fun t =>
      (t.evaluate fun _ => some 1).toOption.any (· < 0)) = true := by decide +kernel
  have yields {α : Type} {x : Except Fault α} {p : α → Bool} (h : x.toOption.any p = true) :
      ∃ a, x = .ok a ∧ p a = true := by
    cases x with
    | error f => cases h
    | ok a => exact ⟨a, rfl, h⟩
  obtain ⟨t, ht, hpos⟩ := yields hshared
  obtain ⟨u, hu, hneg⟩ := yields hapart
  obtain ⟨v, hv, hpos⟩ := yields hpos
  obtain ⟨v', hv', hneg⟩ := yields hneg
  exact ⟨t, u, ht, hu, ⟨v, hv, of_decide_eq_true hpos⟩, v', hv', of_decide_eq_true hneg⟩

end Behavioral
