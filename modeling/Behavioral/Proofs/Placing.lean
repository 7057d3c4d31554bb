import Behavioral.Proofs.Regions

/-!
# Filling an index field in place

The offsets behind a header can be written into the slice that is there for them, an instruction at
a time: its operands are read from the same slice, its header is written in front of what its callee
fills, and its callee fills a slice of its own. Every read and write is checked against the slice.
None fails for a function that has been composed (`place?_eq`): the slice ends up as the layout of
its header, whatever it held behind the header before. The segment of an instruction is what its
callee makes of the header that the instruction resolves to (`place?_composed`).
-/

namespace Behavioral

open Behavioral.Composition

/-- The offset of an operand, read from a slice in which the instruction before has its segment at
`previousBase`. -/
def Operand.cell? (field : List Nat) (previousBase : Nat) : Operand → Option Nat
  | caller slot => field[slot]?
  | localCell index => field[1]?.map (· + index)
  | previous slot => field[previousBase + slot]?

/-- Writes a slot of the slice. -/
def put? (field : List Nat) (slot value : Nat) : Option (List Nat) :=
  if slot < field.length then some (field.set slot value) else none

/-- Writes the offsets of operands from the given slot of the segment at `base` on; slot one is left
to the start of the private cells. -/
def placeOperands? (base previousBase : Nat) :
    (slot : Nat) → List Operand → List Nat → Option (List Nat)
  | _, [], field => some field
  | slot, o :: rest, field => do
    let cell ← o.cell? field previousBase
    let field ← put? field (base + slot) cell
    placeOperands? base previousBase (if slot = 0 then 2 else slot + 1) rest field

mutual

/-- Fills the slice of an index field that belongs to the function, from its header. -/
def Function.place? : Function → List Nat → Option (List Nat)
  | .builtin _, field => some field
  | .composed ⟨_, paramCount, localCount, body, _, _⟩, field => do
    let storage ← field[1]?
    placeBody? body (2 + paramCount) (storage + localCount) (2 + paramCount) field

/-- Fills the segments of instructions from `base` on. -/
def placeBody? : List (Instruction Function) → (base privateStart previousBase : Nat) →
    List Nat → Option (List Nat)
  | [], _, _, _, field => some field
  | ⟨callee, operands, _, _⟩ :: rest, base, privateStart, previousBase, field => do
    let field ← placeOperands? base previousBase 0 operands field
    let field ← put? field (base + 1) privateStart
    if base + callee.fieldSize ≤ field.length then
      let segment ← callee.place? ((field.drop base).take callee.fieldSize)
      placeBody? rest (base + callee.fieldSize) (privateStart + callee.storageSize) base
        (field.take base ++ (segment ++ field.drop (base + callee.fieldSize)))
    else none

end

variable {f : Function} {own done segment front old tail field : List Nat}
  {i : Instruction Function} {body : List (Instruction Function)} {os : List Operand}
  {paramCount localCount length pc base previousBase privateStart slot value k : Nat}
  {before : Option Nat} {o : Operand} {cell : Operand → Nat}

/-! ### An instruction -/

theorem put?_append (h : front.length = slot) (x : Nat) :
    put? (front ++ x :: tail) slot value = some (front ++ value :: tail) := by
  subst h
  rw [put?, if_pos (by simp), List.set_append_right _ _ le_rfl, Nat.sub_self, List.set_cons_zero]

/-- The segment of the instruction before ends what has been filled. -/
structure Adjoins (before : Option Nat) (previousBase : Nat) (filled segment : List Nat) :
    Prop where
  drop : before ≠ none → filled.drop previousBase = segment
  size : ∀ size, before = some size → segment.length = size

/-- An operand that composing has checked is read from what has been filled. -/
theorem cell?_eq (h : o.Checked paramCount localCount before) (hown : own.length = 2 + paramCount)
    (hlast : Adjoins before previousBase (own ++ done) segment) (tail : List Nat) :
    o.cell? (own ++ done ++ tail) previousBase =
      some (o.offset own (own[1]?.getD 0) segment) := by
  have read {s : Nat} (hs : s < own.length) :
      (own ++ done ++ tail)[s]? = some (own[s]?.getD 0) := by
    rw [List.append_assoc, List.getElem?_append_left hs, List.getElem?_eq_getElem hs]
    rfl
  cases o with
  | caller s =>
    have hs : s < own.length := by
      obtain rfl | ⟨-, hs⟩ := h <;> omega
    exact read hs
  | localCell index =>
    rw [Operand.cell?, read (by omega)]
    rfl
  | previous s =>
    obtain ⟨size, rfl, hs⟩ := h
    have hsegment := hlast.drop nofun
    rw [← hlast.size size rfl, ← hsegment, List.length_drop] at hs
    rw [Operand.cell?, List.getElem?_append_left (by omega), Operand.offset, ← hsegment,
      List.getElem?_drop, List.getElem?_eq_getElem (by omega)]
    rfl

/-- The operands can be read in front of what is to be filled, where they live in `cell`. -/
def Reads (front : List Nat) (previousBase : Nat) (cell : Operand → Nat) (os : List Operand) :
    Prop :=
  ∀ o ∈ os, ∀ tail, o.cell? (front ++ tail) previousBase = some (cell o)

/-- Operands are written one behind the other. -/
theorem placeOperands?_eq (hread : Reads front previousBase cell os) :
    ∀ {mid old : List Nat} {slot : Nat}, slot ≠ 0 → (front ++ mid).length = base + slot →
      old.length = os.length → placeOperands? base previousBase slot os
        (front ++ mid ++ (old ++ tail)) = some (front ++ mid ++ (os.map cell ++ tail)) := by
  induction os with
  | nil =>
    intro mid old slot _ _ hold
    rw [List.length_eq_zero_iff.1 hold]
    rfl
  | cons o os ih =>
    intro mid old slot hslot hmid hold
    obtain ⟨x, old, rfl⟩ := List.exists_cons_of_length_eq_add_one hold
    obtain ⟨hfirst, hrest⟩ := List.forall_mem_cons.1 hread
    have hcell : o.cell? (front ++ mid ++ (x :: old ++ tail)) previousBase = some (cell o) := by
      rw [List.append_assoc front]
      exact hfirst _
    have hput : put? (front ++ mid ++ (x :: old ++ tail)) (base + slot) (cell o) =
        some (front ++ (mid ++ [cell o]) ++ (old ++ tail)) := by
      rw [List.cons_append, put?_append hmid]
      simp
    simp only [placeOperands?, hcell, hput, Option.bind_eq_bind, Option.bind_some, if_neg hslot]
    rw [ih hrest (Nat.succ_ne_zero slot) (by simp at hmid ⊢; omega) (by simpa using hold)]
    simp

/-- The header of an instruction is written over what was there. -/
theorem placeHeader?_eq (hread : Reads front previousBase cell os) (hfront : front.length = base)
    (hos : os ≠ []) (hold : old.length = os.length + 1) (privateStart : Nat) (tail : List Nat) :
    ((placeOperands? base previousBase 0 os (front ++ (old ++ tail))).bind
        (put? · (base + 1) privateStart)) =
      some (front ++ (headerOffsets privateStart (os.map cell) ++ tail)) := by
  obtain ⟨o, os, rfl⟩ := List.exists_cons_of_ne_nil hos
  obtain ⟨x, old, rfl⟩ := List.exists_cons_of_length_eq_add_one hold
  obtain ⟨y, old, rfl⟩ := List.exists_cons_of_length_eq_add_one (Nat.succ.inj hold)
  obtain ⟨hfirst, hrest⟩ := List.forall_mem_cons.1 hread
  have hresult : put? (front ++ (x :: y :: old ++ tail)) (base + 0) (cell o) =
      some (front ++ [cell o, y] ++ (old ++ tail)) := by
    rw [List.cons_append, put?_append (hfront.trans (Nat.add_zero base).symm)]
    simp
  have hoperands : placeOperands? base previousBase 2 os (front ++ [cell o, y] ++ (old ++ tail)) =
      some (front ++ [cell o, y] ++ (os.map cell ++ tail)) :=
    placeOperands?_eq hrest (by decide) (by simp [hfront]) (by simpa using hold)
  have hstart : put? (front ++ [cell o, y] ++ (os.map cell ++ tail)) (base + 1) privateStart =
      some (front ++ [cell o] ++ privateStart :: (os.map cell ++ tail)) := by
    rw [List.append_cons front, List.append_assoc (front ++ _), List.singleton_append,
      put?_append (by simp [hfront])]
  simp only [placeOperands?, hfirst, hresult, Option.bind_eq_bind, Option.bind_some, if_pos,
    hoperands, hstart, headerOffsets, List.map_cons]
  simp

/-- The slice of a function ends up as the layout of its header. -/
def PlacesSlots (f : Function) : Prop :=
  ∀ field, field.length = f.fieldSize → f.place? field = some (f.layout (field.take f.headerSize))

theorem headerSize_le (h : Built f) : f.headerSize ≤ f.fieldSize := by
  cases f with
  | builtin b => exact le_rfl
  | composed c =>
    have hsize := (wellComposed h).fieldSize
    simp only [Function.headerSize, Function.fieldSize, Function.paramCount, hsize]
    omega

theorem length_headerOffsets_map (hi : i.Checked paramCount localCount length pc before)
    (cell : Operand → Nat) (privateStart : Nat) :
    (headerOffsets privateStart (i.operands.map cell)).length = i.callee.headerSize := by
  have harity := hi.arity
  have hne : i.operands ≠ [] := List.length_pos_iff.1 (by omega)
  rw [length_headerOffsets (by simpa using hne), List.length_map, Function.headerSize]
  omega

theorem reads_of_checked (hi : i.Checked paramCount localCount length pc before)
    (hown : own.length = 2 + paramCount)
    (hlast : Adjoins before previousBase (own ++ done) segment) :
    Reads (own ++ done) previousBase (·.offset own (own[1]?.getD 0) segment) i.operands :=
  fun o ho => cell?_eq (hi.operands o ho) hown hlast

/-- The segment of an instruction is filled in its turn. -/
theorem placeBody?_cons (hbuilt : Built i.callee) (hplaces : PlacesSlots i.callee)
    (hi : i.Checked paramCount localCount length pc before)
    (hread : Reads front previousBase cell i.operands) (hfront : front.length = base)
    (hold : old.length = i.callee.fieldSize) (rest : List (Instruction Function)) :
    placeBody? (i :: rest) base privateStart previousBase (front ++ (old ++ tail)) =
      placeBody? rest (base + i.callee.fieldSize) (privateStart + i.callee.storageSize) base
        (front ++ i.callee.layout (headerOffsets privateStart (i.operands.map cell)) ++ tail) := by
  obtain ⟨callee, operands, constants, jump⟩ := i
  have harity : operands.length = 1 + callee.paramCount := hi.arity
  have hne : operands ≠ [] := List.length_pos_iff.1 (by omega)
  have hheader : (headerOffsets privateStart (operands.map cell)).length = callee.headerSize :=
    length_headerOffsets_map hi cell privateStart
  obtain ⟨given, behind, rfl, hgiven⟩ : ∃ given behind, old = given ++ behind ∧
      given.length = callee.headerSize :=
    ⟨_, _, (List.take_append_drop callee.headerSize old).symm, by
      rw [List.length_take, hold, min_eq_left (headerSize_le hbuilt)]⟩
  have hsize : given.length = operands.length + 1 := by
    rw [hgiven, Function.headerSize]
    omega
  have hwrite := placeHeader?_eq hread hfront hne hsize privateStart (behind ++ tail)
  have hsegment : (headerOffsets privateStart (operands.map cell) ++ behind).length =
      callee.fieldSize := by
    rw [← hold, List.length_append, List.length_append, hheader, hgiven]
  have hplace : callee.place? (headerOffsets privateStart (operands.map cell) ++ behind) =
      some (callee.layout (headerOffsets privateStart (operands.map cell))) := by
    rw [hplaces _ hsegment, List.take_left' hheader]
  subst hfront
  generalize headerOffsets privateStart (operands.map cell) = header at *
  have hfilled : front ++ (header ++ (behind ++ tail)) = front ++ (header ++ behind ++ tail) := by
    simp
  rw [placeBody?, List.append_assoc given]
  simp only [Option.bind_eq_bind]
  rw [← Option.bind_assoc, hwrite, Option.bind_some, hfilled, if_pos (by simp [← hsegment]),
    List.drop_left, List.take_left' hsegment, hplace, Option.bind_some, List.take_left,
    ← List.drop_drop, List.drop_left, List.drop_left' hsegment, List.append_assoc front]

/-! ### A body -/

/-- What an instruction lays out behind the segment before it. -/
def laidOut (own : List Nat) (privateStart : Nat) (segment : List Nat) (i : Instruction Function) :
    List Nat :=
  i.callee.layout
    (headerOffsets privateStart (i.operands.map (·.offset own (own[1]?.getD 0) segment)))

theorem layoutBody_laidOut (i : Instruction Function) (rest : List (Instruction Function)) :
    layoutBody (i :: rest) own (own[1]?.getD 0) privateStart segment =
      laidOut own privateStart segment i ++ layoutBody rest own (own[1]?.getD 0)
        (privateStart + i.callee.storageSize) (laidOut own privateStart segment i) := by
  obtain ⟨callee, operands, constants, jump⟩ := i
  rfl

theorem length_laidOut (hbuilt : Built i.callee)
    (hi : i.Checked paramCount localCount length pc before) :
    (laidOut own privateStart segment i).length = i.callee.fieldSize :=
  (hbuilt.rows _ (length_headerOffsets_map hi _ privateStart)).1

theorem segmentsSize_cons (i : Instruction Function) (rest : List (Instruction Function)) :
    segmentsSize (i :: rest) = i.callee.fieldSize + segmentsSize rest :=
  rfl

/-- The segments of a body are filled behind what has been filled before, as they are laid out. -/
theorem placeBody?_eq (hbody : ∀ i ∈ body, Built i.callee ∧ PlacesSlots i.callee)
    (hchecks : Checks paramCount localCount length pc before body)
    (hown : own.length = 2 + paramCount) (hdone : (own ++ done).length = base)
    (hlast : Adjoins before previousBase (own ++ done) segment)
    (htail : tail.length = segmentsSize body) (privateStart : Nat) :
    placeBody? body base privateStart previousBase (own ++ done ++ tail) =
      some (own ++ done ++ layoutBody body own (own[1]?.getD 0) privateStart segment) := by
  induction body generalizing pc before base previousBase done segment tail privateStart with
  | nil =>
    rw [List.length_eq_zero_iff.1 htail]
    rfl
  | cons i rest ih =>
    obtain ⟨⟨hbuilt, hplaces⟩, hrest⟩ := List.forall_mem_cons.1 hbody
    obtain ⟨old, tail, rfl, hold, hbehind⟩ : ∃ old tail', tail = old ++ tail' ∧
        old.length = i.callee.fieldSize ∧ tail'.length = segmentsSize rest := by
      rw [segmentsSize_cons] at htail
      refine ⟨_, _, (List.take_append_drop i.callee.fieldSize tail).symm, ?_, ?_⟩
      · rw [List.length_take]
        omega
      · rw [List.length_drop]
        omega
    have hlength : (laidOut own privateStart segment i).length = i.callee.fieldSize :=
      length_laidOut hbuilt hchecks.1
    have hnext : Adjoins (some i.callee.fieldSize) base
        (own ++ (done ++ laidOut own privateStart segment i))
        (laidOut own privateStart segment i) :=
      ⟨fun _ => by rw [← List.append_assoc, List.drop_left' hdone],
        fun size hsize => hlength.trans (Option.some.inj hsize)⟩
    rw [placeBody?_cons hbuilt hplaces hchecks.1 (reads_of_checked hchecks.1 hown hlast) hdone hold,
      ← laidOut, layoutBody_laidOut, List.append_assoc own]
    rw [ih hrest hchecks.2 (by simp [← hdone, hlength, Nat.add_assoc]) hnext hbehind]
    simp

/-- The slice of a composed function ends up as the layout of its header. -/
theorem Built.placesSlots (h : Built f) : PlacesSlots f := by
  induction h with
  | builtin b =>
    intro field hfield
    exact congrArg some (List.take_of_length_le (le_of_eq hfield)).symm
  | @composed name localCount paramCount body c hbody hc ih =>
    obtain ⟨hchecks, rfl⟩ := compose_eq_ok hc
    intro field hfield
    have hfield : field.length = 2 + paramCount + segmentsSize body := hfield
    obtain ⟨own, tail, rfl, hown⟩ : ∃ own tail, field = own ++ tail ∧ own.length = 2 + paramCount :=
      ⟨_, _, (List.take_append_drop (2 + paramCount) field).symm, by rw [List.length_take]; omega⟩
    have htail : tail.length = segmentsSize body := by
      rw [List.length_append] at hfield
      omega
    have hstorage : (own ++ tail)[1]? = some (own[1]?.getD 0) := by
      rw [List.getElem?_append_left (by omega), List.getElem?_eq_getElem (by omega)]
      rfl
    have hplace : placeBody? body (2 + paramCount) (own[1]?.getD 0 + localCount) (2 + paramCount)
        (own ++ [] ++ tail) = some (own ++ [] ++
          layoutBody body own (own[1]?.getD 0) (own[1]?.getD 0 + localCount) []) :=
      placeBody?_eq (fun i hi => ⟨hbody i hi, ih i hi⟩) hchecks hown (by simpa using hown)
        ⟨fun h => absurd rfl h, nofun⟩ htail _
    rw [Function.place?, hstorage]
    rw [List.append_nil] at hplace
    simp only [Function.headerSize, Function.paramCount, List.take_left' hown]
    exact hplace

/-! ### The segments -/

variable {c : Composed}

/-- Where the segment of an instruction starts in the slice of its function. -/
def segmentBase (c : Composed) (k : Nat) : Nat :=
  2 + c.paramCount + segmentsSize (c.body.take k)

theorem segmentsSize_take_succ (hk : body[k]? = some i) :
    segmentsSize (body.take (k + 1)) = segmentsSize (body.take k) + i.callee.fieldSize := by
  obtain ⟨hlength, rfl⟩ := List.getElem?_eq_some_iff.1 hk
  rw [List.take_succ_eq_append_getElem hlength, segmentsSize_append]
  rfl

/-- The segment of an instruction is laid out behind those of the instructions before it. -/
theorem layoutBody_segment (hbody : ∀ i ∈ body, Built i.callee)
    (hchecks : Checks paramCount localCount length pc before body) (own : List Nat)
    (privateStart : Nat) (segment : List Nat) (hk : body[k]? = some i) :
    ∃ front back, front.length = segmentsSize (body.take k) ∧
      layoutBody body own (own[1]?.getD 0) privateStart segment =
        front ++ (laidOut own (privateStart + privateSize (body.take k)) (if k = 0 then segment
          else front.drop (segmentsSize (body.take (k - 1)))) i ++ back) := by
  induction body generalizing pc before segment privateStart k with
  | nil => simp at hk
  | cons first rest ih =>
    obtain ⟨hfirst, hrest⟩ := List.forall_mem_cons.1 hbody
    have hlength : (laidOut own privateStart segment first).length = first.callee.fieldSize :=
      length_laidOut hfirst hchecks.1
    rw [layoutBody_laidOut]
    obtain _ | k := k
    · cases hk
      exact ⟨[], _, rfl, rfl⟩
    · obtain ⟨front, back, hfront, hback⟩ := ih hrest hchecks.2
        (privateStart + first.callee.storageSize) (laidOut own privateStart segment first) hk
      refine ⟨laidOut own privateStart segment first ++ front, back, ?_, ?_⟩
      · rw [List.length_append, hlength, hfront]
        rfl
      · have hstart : privateStart + first.callee.storageSize + privateSize (rest.take k) =
            privateStart + privateSize ((first :: rest).take (k + 1)) := Nat.add_assoc ..
        have hbefore : (if k = 0 then laidOut own privateStart segment first
            else front.drop (segmentsSize (rest.take (k - 1)))) =
            (laidOut own privateStart segment first ++ front).drop
              (segmentsSize ((first :: rest).take k)) := by
          obtain _ | k := k
          · rw [List.length_eq_zero_iff.1 hfront, List.append_nil]
            rfl
          · rw [List.take_succ_cons, segmentsSize_cons, ← hlength, ← List.drop_drop,
              List.drop_left]
            rfl
        rw [hback, hstart, hbefore, List.append_assoc]
        rfl

/-- The segments before an instruction end with that of the one before it. -/
theorem adjoins_front (hown : own.length = 2 + c.paramCount)
    (hfront : front.length = segmentsSize (c.body.take k)) :
    Adjoins (if k = 0 then none else c.body[k - 1]?.map (·.callee.fieldSize))
      (segmentBase c (k - 1)) (own ++ front)
      (if k = 0 then [] else front.drop (segmentsSize (c.body.take (k - 1)))) := by
  obtain _ | k := k
  · exact ⟨fun h => absurd rfl h, nofun⟩
  · simp only [Nat.add_eq_zero_iff, one_ne_zero, and_false, if_false, Nat.add_sub_cancel]
    refine ⟨fun _ => ?_, fun size hsize => ?_⟩
    · rw [segmentBase, ← hown, ← List.drop_drop, List.drop_left]
    · obtain ⟨first, hfirst, rfl⟩ := Option.map_eq_some_iff.1 hsize
      rw [List.length_drop, hfront, segmentsSize_take_succ hfirst]
      omega

/-- An instruction reads its operands from the header of its function and from the segment of the
instruction before it, and its own segment is what its callee lays out for them. -/
theorem segment_reads (hc : Built (.composed c)) (hown : own.length = 2 + c.paramCount)
    (hk : c.body[k]? = some i) : ∃ storage offsets, own[1]? = some storage ∧
      List.Forall₂ (fun o v => o.cell? ((Function.composed c).layout own) (segmentBase c (k - 1)) =
        some v) i.operands offsets ∧
      (headerOffsets (storage + c.localCount + privateSize (c.body.take k)) offsets).length =
        i.callee.headerSize ∧
      segmentBase c k + i.callee.fieldSize ≤ c.fieldSize ∧
      (((Function.composed c).layout own).drop (segmentBase c k)).take i.callee.fieldSize =
        i.callee.layout
          (headerOffsets (storage + c.localCount + privateSize (c.body.take k)) offsets) := by
  obtain ⟨hbody, hchecks, hsize, -⟩ := wellComposed hc
  obtain ⟨front, back, hfront, hlayout⟩ := layoutBody_segment hbody hchecks own
    (own[1]?.getD 0 + c.localCount) [] hk
  have hchecked := hchecks.behind hk
  have hlast := adjoins_front hown hfront
  generalize (if k = 0 then [] else front.drop (segmentsSize (c.body.take (k - 1)))) = last
    at hlayout hlast
  have hrow : (Function.composed c).layout own = own ++ front ++ (laidOut own
      (own[1]?.getD 0 + c.localCount + privateSize (c.body.take k)) last i ++ back) := by
    rw [layout_composed, hlayout, List.append_assoc]
  have hlength : (laidOut own (own[1]?.getD 0 + c.localCount + privateSize (c.body.take k)) last
      i).length = i.callee.fieldSize := length_laidOut (hbody i (List.mem_of_getElem? hk)) hchecked
  have hbase : (own ++ front).length = segmentBase c k := by
    rw [List.length_append, hown, hfront]
    rfl
  refine ⟨own[1]?.getD 0, i.operands.map (·.offset own (own[1]?.getD 0) last), ?_, ?_, ?_, ?_, ?_⟩
  · rw [List.getElem?_eq_getElem (by omega)]
    rfl
  · rw [List.forall₂_map_right_iff, List.forall₂_same, hrow]
    exact fun o ho => reads_of_checked hchecked hown hlast o ho _
  · exact length_headerOffsets_map hchecked _ _
  · have hrows := (hc.rows own hown).1
    rw [hrow, List.length_append, hbase, List.length_append, hlength] at hrows
    simp only [Function.fieldSize] at hrows ⊢
    omega
  · rw [hrow, List.drop_left' hbase, List.take_left' hlength]
    rfl

/-- Filling the slice of a composed function stays inside of it and leaves the header as it is. What
it writes behind the header depends on the header only: the slice ends up as the layout of the
header, whatever it held before, and filling it again changes nothing. The segment of each
instruction is what its callee makes of the header that the instruction resolves to, in a slice of
its own. -/
theorem place?_composed (hc : Built (.composed c)) (hfield : field.length = c.fieldSize) :
    ∃ filled, (Function.composed c).place? field = some filled ∧
      filled = (Function.composed c).layout (field.take (2 + c.paramCount)) ∧
      filled.length = field.length ∧
      filled.take (2 + c.paramCount) = field.take (2 + c.paramCount) ∧
      (∀ field', field'.length = c.fieldSize →
        field'.take (2 + c.paramCount) = field.take (2 + c.paramCount) →
        (Function.composed c).place? field' = some filled) ∧
      (Function.composed c).place? filled = some filled ∧
      ∀ k i, c.body[k]? = some i → ∃ storage offsets, field[1]? = some storage ∧
        List.Forall₂ (fun o v => o.cell? filled (segmentBase c (k - 1)) = some v)
          i.operands offsets ∧
        (headerOffsets (storage + c.localCount + privateSize (c.body.take k)) offsets).length =
          i.callee.headerSize ∧
        segmentBase c k + i.callee.fieldSize ≤ filled.length ∧
        ∀ alone, alone.length = i.callee.fieldSize →
          alone.take i.callee.headerSize =
            headerOffsets (storage + c.localCount + privateSize (c.body.take k)) offsets →
          i.callee.place? alone =
            some ((filled.drop (segmentBase c k)).take i.callee.fieldSize) := by
  have hwell := wellComposed hc
  have hown : (field.take (2 + c.paramCount)).length = 2 + c.paramCount := by
    rw [List.length_take, hfield, hwell.fieldSize]
    omega
  have hplace (field' : List Nat) (hlength : field'.length = c.fieldSize)
      (hheader : field'.take (2 + c.paramCount) = field.take (2 + c.paramCount)) :
      (Function.composed c).place? field' =
        some ((Function.composed c).layout (field.take (2 + c.paramCount))) := by
    rw [hc.placesSlots field' hlength, ← hheader]
    rfl
  have hlength := (hc.rows _ hown).1
  have hheader : ((Function.composed c).layout (field.take (2 + c.paramCount))).take
      (2 + c.paramCount) = field.take (2 + c.paramCount) := by
    rw [layout_composed, List.take_left' hown]
  refine ⟨_, hplace field hfield rfl, rfl, hlength.trans hfield.symm, hheader, hplace,
    hplace _ hlength hheader, fun k i hk => ?_⟩
  obtain ⟨storage, offsets, hstorage, hreads, hsize, hinside, hsegment⟩ :=
    segment_reads hc hown hk
  refine ⟨storage, offsets, ?_, hreads, hsize, hinside.trans hlength.ge,
    fun alone halone hgiven => ?_⟩
  · rwa [List.getElem?_take_of_lt (by omega)] at hstorage
  · rw [(hwell.built i (List.mem_of_getElem? hk)).placesSlots alone halone, hgiven, hsegment]

theorem place?_composed_again :
    Built (.composed again) ∧ ([0, 2, 1] ++ List.replicate 12 9).length = again.fieldSize ∧
      (Function.composed again).place? ([0, 2, 1] ++ List.replicate 12 9) =
        some [0, 2, 1, 0, 2, 1, 0, 2, 1, 1, 1, 2, 0, 0, 2] := by
  have hsize : ([0, 2, 1] ++ List.replicate 12 9).length = again.fieldSize := rfl
  obtain ⟨filled, hplace, hfilled, -⟩ := place?_composed built_again hsize
  refine ⟨built_again, hsize, ?_⟩
  rw [hplace, hfilled]
  decide

end Behavioral
