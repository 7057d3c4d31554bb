import Behavioral.Proofs.Relocation

/-!
# Private cells

A place in the tree of calls is named by the instructions that lead to it, and has a segment in the
index field (`Function.segmentAt?`). The segment says where the private cells of the function there
start. Composing has added up what a body needs, and the layout hands out as much to one instruction
after the other (`Segment.Filled.call`); so the cells of two calls are apart, and with them all that
lies below the one from all that lies below the other (`Segment.Filled.disjoint`).
-/

namespace Behavioral

open Behavioral.Composition

def Function.localCount : Function → Nat
  | builtin _ => 0
  | composed c => c.localCount

/-- The segment of an index field that belongs to one place in the tree of calls. -/
structure Segment where
  origin : Nat
  function : Function

namespace Segment

/-- The segment of an instruction of the function. -/
def call? (s : Segment) (pc : Nat) : Option Segment :=
  match s.function with
  | .builtin _ => none
  | .composed c => c.body[pc]?.map fun i =>
      ⟨s.origin + (2 + c.paramCount) + segmentsSize (c.body.take pc), i.callee⟩

/-- Where the private cells of the function start. -/
def start (field : Array Nat) (s : Segment) : Nat :=
  field[s.origin + 1]?.getD 0

def privateCells (field : Array Nat) (s : Segment) : Set Nat :=
  Set.Ico (s.start field) (s.start field + s.function.storageSize)

def localCells (field : Array Nat) (s : Segment) : Set Nat :=
  Set.Ico (s.start field) (s.start field + s.function.localCount)

/-- The function's locals and the private cells of each of its instructions are apart, and all of
them are among its own private cells. -/
structure Apart (field : Array Nat) (s : Segment) : Prop where
  locals : s.localCells field ⊆ s.privateCells field
  inside : ∀ pc t, s.call? pc = some t → t.privateCells field ⊆ s.privateCells field
  behind : ∀ pc t, s.call? pc = some t → Disjoint (s.localCells field) (t.privateCells field)
  apart : ∀ j k t u, j ≠ k → s.call? j = some t → s.call? k = some u →
    Disjoint (t.privateCells field) (u.privateCells field)

end Segment

/-- The segment of the function that the instructions `path` lead to, each in the body of the one
before. -/
def Function.segmentAt? (f : Function) (path : List Nat) : Option Segment :=
  path.foldlM Segment.call? ⟨0, f⟩

variable {f : Function} {own : List Nat} {i : Instruction Function}
  {body : List (Instruction Function)} {field : Array Nat} {s t u : Segment} {pc j k : Nat}

theorem privateSize_append (front back : List (Instruction Function)) :
    privateSize (front ++ back) = privateSize front + privateSize back := by
  induction front with
  | nil => simp [privateSize]
  | cons i rest ih =>
    have h : ∀ body, privateSize (i :: body) = i.callee.storageSize + privateSize body :=
      fun _ => rfl
    rw [List.cons_append, h, h, ih]
    omega

/-- The private cells of an instruction stand before those of all instructions behind it. -/
theorem privateSize_take_le (hj : body[j]? = some i) (hjk : j < k) :
    privateSize (body.take j) + i.callee.storageSize ≤ privateSize (body.take k) := by
  obtain ⟨d, rfl⟩ := Nat.exists_eq_add_of_lt hjk
  rw [List.getElem?_eq_some_iff] at hj
  obtain ⟨hlength, rfl⟩ := hj
  have hone : privateSize [body[j]] = body[j].callee.storageSize := rfl
  rw [Nat.add_right_comm, List.take_add, privateSize_append,
    List.take_succ_eq_append_getElem hlength, privateSize_append, hone]
  omega

theorem privateSize_le (hj : body[j]? = some i) :
    privateSize (body.take j) + i.callee.storageSize ≤ privateSize body := by
  have hlength := (List.getElem?_eq_some_iff.1 hj).1
  have hle := privateSize_take_le hj hlength
  rwa [List.take_length] at hle

theorem Holds.getD {origin : Nat} {row : List Nat} (h : Holds field origin row)
    (hk : k < row.length) : field[origin + k]?.getD 0 = row[k]?.getD 0 := by
  obtain ⟨front, back, hfield, rfl⟩ := h
  rw [← Array.getElem?_toList, hfield, List.getElem?_append_right (Nat.le_add_right _ _),
    Nat.add_sub_cancel_left, List.getElem?_append_left hk]

namespace Segment

/-- The index field holds, in the segment, the record of its function for some header. -/
structure Filled (field : Array Nat) (s : Segment) : Prop where
  built : Built s.function
  held : ∃ own, own.length = s.function.headerSize ∧
    Holds field s.origin (s.function.layout own)

theorem start_eq (hown : own.length = s.function.headerSize)
    (h : Holds field s.origin (s.function.layout own)) : s.start field = own[1]?.getD 0 := by
  have hone : 1 < own.length := by
    rw [hown, Function.headerSize]
    omega
  exact h.header.getD hone

theorem call?_eq_some (h : s.call? pc = some t) :
    ∃ c i, s.function = .composed c ∧ c.body[pc]? = some i ∧ t.function = i.callee ∧
      t.origin = (Frame.reached c s.origin pc).base := by
  unfold call? at h
  split at h
  · cases h
  · rename_i c hc
    obtain ⟨i, hi, rfl⟩ := Option.map_eq_some_iff.1 h
    exact ⟨c, i, hc, hi, rfl, rfl⟩

/-- An instruction's segment is filled as well; its private cells stand behind the locals and the
private cells of the instructions before it. -/
theorem Filled.call (h : s.Filled field) (ht : s.call? pc = some t) :
    t.Filled field ∧ ∃ c i, s.function = .composed c ∧ c.body[pc]? = some i ∧
      t.function = i.callee ∧
      t.start field = s.start field + c.localCount + privateSize (c.body.take pc) := by
  obtain ⟨c, i, hc, hi, hcallee, horigin⟩ := call?_eq_some ht
  obtain ⟨hbuilt, own, hown, hheld⟩ := h
  have hstart := start_eq hown hheld
  rw [hc] at hbuilt hown hheld
  have hruns : Runs field (Frame.reached c s.origin pc) ⟨c, own, pc⟩ := ⟨hbuilt, hown, rfl, hheld⟩
  obtain ⟨hbuilt', -, hsize, hheld'⟩ := hruns.callee hi
  rw [← hcallee] at hbuilt' hsize hheld'
  rw [← horigin] at hheld'
  refine ⟨⟨hbuilt', _, hsize, hheld'⟩, c, i, hc, hi, hcallee, ?_⟩
  rw [start_eq hsize hheld', hstart]
  exact @Direct.Frame.calleeHeader_one i ⟨c, own, pc⟩ hi

theorem Filled.storageSize {c : Composed} (h : s.Filled field) (hc : s.function = .composed c) :
    s.function.storageSize = c.localCount + privateSize c.body := by
  have hbuilt := h.built
  rw [hc] at hbuilt ⊢
  exact (wellComposed hbuilt).storageSize

theorem Filled.apart (h : s.Filled field) : s.Apart field := by
  refine ⟨?_, fun pc t ht => ?_, fun pc t ht => ?_, fun j k t u hjk ht hu => ?_⟩
  · refine Set.Ico_subset_Ico_right (Nat.add_le_add_left ?_ _)
    rcases hs : s.function with b | c
    · exact Nat.zero_le _
    · have hsize := h.storageSize hs
      rw [hs] at hsize
      rw [hsize]
      exact Nat.le_add_right _ _
  · obtain ⟨-, c, i, hc, hi, hcallee, hstart⟩ := h.call ht
    have hsize := h.storageSize hc
    have hle := privateSize_le hi
    rw [privateCells, privateCells, hcallee, hstart, hsize]
    exact Set.Ico_subset_Ico (by omega) (by omega)
  · obtain ⟨-, c, i, hc, hi, hcallee, hstart⟩ := h.call ht
    rw [localCells, privateCells, hstart, hc]
    exact Set.Ico_disjoint_Ico.2 (by simp only [Function.localCount]; omega)
  · -- whichever stands first ends before the other starts
    obtain ⟨-, c, i, hc, hi, hcallee, hstart⟩ := h.call ht
    obtain ⟨-, c', i', hc', hi', hcallee', hstart'⟩ := h.call hu
    obtain rfl : c = c' := by
      rw [hc] at hc'
      cases hc'
      rfl
    rw [privateCells, privateCells, hcallee, hcallee', hstart, hstart', Set.Ico_disjoint_Ico]
    rcases Nat.lt_or_gt_of_ne hjk with hlt | hlt
    · have hle := privateSize_take_le hi hlt
      omega
    · have hle := privateSize_take_le hi' hlt
      omega

/-- Below a filled segment all are filled, and have their private cells among its own. -/
theorem Filled.reach {path : List Nat} (h : s.Filled field)
    (ht : path.foldlM call? s = some t) :
    t.Filled field ∧ t.privateCells field ⊆ s.privateCells field := by
  induction path generalizing s with
  | nil =>
    cases ht
    exact ⟨h, subset_rfl⟩
  | cons pc path ih =>
    rw [List.foldlM_cons] at ht
    obtain ⟨u, hu, ht⟩ := Option.bind_eq_some_iff.1 ht
    obtain ⟨hfilled, hsubset⟩ := ih (h.call hu).1 ht
    exact ⟨hfilled, hsubset.trans (h.apart.inside pc u hu)⟩

/-- Where two paths part, the private cells below the one and below the other are apart. -/
theorem Filled.disjoint {p q : List Nat} (h : s.Filled field)
    (ht : p.foldlM call? s = some t) (hu : q.foldlM call? s = some u) (hpq : ¬ p <+: q)
    (hqp : ¬ q <+: p) : Disjoint (t.privateCells field) (u.privateCells field) := by
  induction p generalizing s q with
  | nil => exact absurd (List.nil_prefix) hpq
  | cons j p ih =>
    rcases q with _ | ⟨k, q⟩
    · exact absurd (List.nil_prefix) hqp
    · rw [List.foldlM_cons] at ht hu
      obtain ⟨t', ht', ht⟩ := Option.bind_eq_some_iff.1 ht
      obtain ⟨u', hu', hu⟩ := Option.bind_eq_some_iff.1 hu
      by_cases hjk : j = k
      · subst hjk
        rw [ht'] at hu'
        cases hu'
        rw [List.prefix_cons_inj] at hpq hqp
        exact ih (h.call ht').1 ht hu hpq hqp
      · have hparted := h.apart.apart j k t' u' hjk ht' hu'
        have ht := ((h.call ht').1.reach ht).2
        have hu := ((h.call hu').1.reach hu).2
        exact (hparted.mono_left ht).mono_right hu

/-- Nothing lies below a builtin. -/
theorem eq_of_below {p q : List Nat} {b : Builtin} (ht : p.foldlM call? s = some t)
    (hb : t.function = .builtin b) (hu : q.foldlM call? s = some u) (hpq : p <+: q) : p = q := by
  obtain ⟨rest, rfl⟩ := hpq
  rw [List.foldlM_append, ht] at hu
  rcases rest with _ | ⟨pc, rest⟩
  · exact (List.append_nil p).symm
  · rw [Option.bind_eq_bind, Option.bind_some, List.foldlM_cons] at hu
    obtain ⟨v, hv, -⟩ := Option.bind_eq_some_iff.1 hu
    rw [call?, hb] at hv
    cases hv

/-- The segments of two delays in the tree of calls have different delay slots. -/
theorem Filled.delaySlot_ne {p q : List Nat} (h : s.Filled field)
    (ht : p.foldlM call? s = some t) (hu : q.foldlM call? s = some u) (hpq : p ≠ q)
    (hlast : t.function = .builtin .last) (hlast' : u.function = .builtin .last) :
    t.start field ≠ u.start field := by
  have hdisjoint := h.disjoint ht hu (fun hbelow => hpq (eq_of_below ht hlast hu hbelow))
    (fun hbelow => hpq (eq_of_below hu hlast' ht hbelow).symm)
  have hone : (Function.builtin .last).storageSize = 1 := rfl
  rw [privateCells, privateCells, hlast, hlast', hone, Set.Ico_disjoint_Ico] at hdisjoint
  omega

theorem storage_headerAt (b : Builtin) (hs : s.function = .builtin b) (h : s.Filled field) :
    (headerAt field s.origin b.fieldSize).storage = s.start field := by
  obtain ⟨-, own, hown, hheld⟩ := h
  have hstart := start_eq hown hheld
  rw [hs] at hown hheld
  have hheader := headerAt_of_holds hheld.header
  rw [hown] at hheader
  rw [hstart]
  exact congrArg Header.storage hheader

/-- The whole index field is the segment of the function that it belongs to. -/
theorem filled_layout (hf : Built f) (hown : own.length = f.headerSize) :
    Filled (f.layout own).toArray ⟨0, f⟩ :=
  ⟨hf, own, hown, [], [], by simp, rfl⟩

end Segment

theorem length_activationHeader (f : Function) : (Activation.header f).length = f.headerSize := by
  simp [Activation.header, Function.headerSize]
  omega

theorem Function.filled_fill (hf : Built f) (offsets : List Nat) :
    Segment.Filled (f.fill offsets).toArray ⟨0, f⟩ :=
  Segment.filled_layout hf (by simp)

/-- An activation's index field is filled from the activation's header. -/
theorem field_activation (f : Function) (constants : List Float) :
    (Activation.build f constants).call.field = (f.fill (Activation.header f)).toArray := by
  rw [Function.fill, ← length_activationHeader f, List.take_left]
  rfl

/-- In an activation the private cells stand behind the result and the parameters, up to the end of
the working array. -/
theorem privateCells_activation (f : Function) (constants : List Float) :
    let a := Activation.build f constants
    Segment.privateCells a.call.field ⟨0, f⟩ = Set.Ico (1 + f.paramCount) a.workingArray.size ∧
      a.call.slot 0 = 0 ∧ ∀ i < f.paramCount, a.call.slot (2 + i) = 1 + i := by
  intro a
  have hlength := length_activationHeader f
  have hsize : a.workingArray.size = 1 + f.paramCount + f.storageSize := Array.size_replicate
  have hheld : Holds a.call.field 0 (f.layout (Activation.header f)) := ⟨[], [], by simp [a,
    Activation.build], rfl⟩
  have hslot : ∀ k < (Activation.header f).length,
      a.call.slot k = (Activation.header f)[k]?.getD 0 := by
    intro k hk
    have hk := hheld.header.getD hk
    rwa [Nat.zero_add] at hk
  rw [hlength, Function.headerSize] at hslot
  have hstart : Segment.start a.call.field ⟨0, f⟩ = 1 + f.paramCount :=
    Segment.start_eq (s := ⟨0, f⟩) hlength hheld
  refine ⟨by rw [Segment.privateCells, hstart, hsize], hslot 0 (by omega), fun i hi => ?_⟩
  rw [hslot (2 + i) (by omega), Nat.add_comm 2 i]
  simp [Activation.header, hi]

/-- However an index field is filled, at every place in the tree of calls the private cells of the
instructions are apart from one another and from the locals, and are among the private cells of the
function that they stand in. Two delays in the tree never share a delay slot. In an activation all
private cells are there, and none of them is the result or a parameter. -/
theorem private_cells_apart (hf : Built f) :
    (∀ offsets, let field := (f.fill offsets).toArray
      (∀ path s, f.segmentAt? path = some s →
        s.Apart field ∧ s.privateCells field ⊆ Segment.privateCells field ⟨0, f⟩) ∧
      ∀ p q s t, f.segmentAt? p = some s → f.segmentAt? q = some t → p ≠ q →
        s.function = .builtin .last → t.function = .builtin .last →
        (headerAt field s.origin Builtin.last.fieldSize).storage ≠
          (headerAt field t.origin Builtin.last.fieldSize).storage) ∧
      ∀ constants, let a := Activation.build f constants
        a.call.field = (f.fill (Activation.header f)).toArray ∧
          ∀ path s, f.segmentAt? path = some s → ∀ cell ∈ s.privateCells a.call.field,
            cell < a.workingArray.size ∧ cell ≠ a.call.slot 0 ∧
              ∀ i < f.paramCount, cell ≠ a.call.slot (2 + i) := by
  constructor
  · intro offsets field
    have hroot := Function.filled_fill hf offsets
    refine ⟨fun path s hs => ?_, fun p q s t hs ht hpq hlast hlast' => ?_⟩
    · obtain ⟨hfilled, hsubset⟩ := hroot.reach hs
      exact ⟨hfilled.apart, hsubset⟩
    · rw [Segment.storage_headerAt .last hlast (hroot.reach hs).1,
        Segment.storage_headerAt .last hlast' (hroot.reach ht).1]
      exact hroot.delaySlot_ne hs ht hpq hlast hlast'
  · intro constants a
    have hfield := field_activation f constants
    obtain ⟨hcells, hresult, hparams⟩ := privateCells_activation f constants
    refine ⟨hfield, fun path s hs cell hcell => ?_⟩
    have hroot := Function.filled_fill hf (Activation.header f)
    rw [← hfield] at hroot
    have hcell := (hroot.reach hs).2 hcell
    rw [hcells, Set.mem_Ico] at hcell
    refine ⟨hcell.2, ?_, fun i hi => ?_⟩
    · rw [hresult]
      omega
    · rw [hparams i hi]
      omega

/-- Runs `running` on its parameter, and again on the sum. -/
def stages : Composed :=
  ⟨"stages", 1, 1, [⟨.composed running, [.localCell 0, .caller 2], [], none⟩,
    ⟨.composed running, [.caller 0, .localCell 0], [], none⟩], 27, 5⟩

theorem built_stages : Built (.composed stages) := by
  have hbody : ∀ i ∈ stages.body, Built i.callee := by
    simp [stages, built_running]
  exact @Built.composed "stages" 1 1 stages.body stages hbody rfl

theorem private_cells_apart_stages :
    let field := ((Function.composed stages).fill [0, 2, 1]).toArray
    let first : Segment := ⟨6, .builtin .last⟩
    let second : Segment := ⟨18, .builtin .last⟩
    Built (.composed stages) ∧
      (Function.composed stages).segmentAt? [0, 0] = some first ∧
      (Function.composed stages).segmentAt? [1, 0] = some second ∧
      (headerAt field first.origin Builtin.last.fieldSize).storage = 4 ∧
      (headerAt field first.origin Builtin.last.fieldSize).storage ≠
        (headerAt field second.origin Builtin.last.fieldSize).storage := by
  intro field first second
  have hfirst : (Function.composed stages).segmentAt? [0, 0] = some first := rfl
  have hsecond : (Function.composed stages).segmentAt? [1, 0] = some second := rfl
  have hapart := (private_cells_apart built_stages).1 [0, 2, 1]
  exact ⟨built_stages, hfirst, hsecond, by decide,
    hapart.2 [0, 0] [1, 0] first second hfirst hsecond (by decide) rfl rfl⟩

end Behavioral
