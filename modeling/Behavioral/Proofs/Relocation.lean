import Behavioral.Proofs.Confined
import Behavioral.Proofs.Footprint

/-!
# A call runs like an activation of its own

A call of a function finds in the index field the record of its callee, and an activation of the
callee has the same record for a header of its own. The cells of the one are the places of the cells
of the other, private cells behind one another (`Shifts`), and so are the headers of all calls in it
(`headers_map`). A builtin that works on cells of the activation does the same in their places and
touches nothing else (`Relocated.run`), and therefore a whole run does (`Relocated.steps`). The
frames under a run do not matter to it (`State.run_append`), so this holds of a call wherever it
stands (`run_call`).
-/

namespace Behavioral

open Behavioral.Composition Direct

/-- Cells from `start` on are placed behind one another. -/
def Shifts (place : Nat → Nat) (start : Nat) : Prop :=
  ∀ cell, start ≤ cell → ∀ k, place (cell + k) = place cell + k

variable {f : Function} {own : List Nat} {i : Instruction Function} {start pc : Nat}
  {body : List (Instruction Function)} {paramCount localCount length privateBase : Nat}
  {before : Option Nat} {place previous previous' : Nat → Nat}

theorem headerOffsets_map {cells : List Nat} (h : cells ≠ []) :
    headerOffsets (place privateBase) (cells.map place) =
      (headerOffsets privateBase cells).map place := by
  obtain ⟨result, operands, rfl⟩ := List.exists_cons_of_ne_nil h
  rfl

theorem getD_map {s : Nat} (hs : s < own.length) :
    (own.map place)[s]?.getD 0 = place (own[s]?.getD 0) := by
  simp [hs]

/-- A place in a body: the function's own header and the private cells from `privateBase` on are at
or behind `start`, and the slots of the instruction before are placed. -/
structure Spot (place : Nat → Nat) (start : Nat) (own : List Nat) (paramCount : Nat)
    (before : Option Nat) (privateBase : Nat) (previous previous' : Nat → Nat) : Prop where
  length : own.length = 2 + paramCount
  own : start ≤ own[1]?.getD 0
  base : start ≤ privateBase
  slots : ∀ n, before = some n → ∀ s < n, previous' s = place (previous s)

/-- The record for a header that is placed elsewhere has its slots there. -/
def Placed (place : Nat → Nat) (start : Nat) (f : Function) : Prop :=
  ∀ own, own.length = f.headerSize → start ≤ own[1]?.getD 0 →
    ∀ s < f.fieldSize, slot f (own.map place) s = place (slot f own s)

namespace Spot

variable (hplace : Shifts place start)
  (h : Spot place start own paramCount before privateBase previous previous')

include hplace h

theorem resolve_map {o : Operand} (ho : o.Checked paramCount localCount before) :
    resolve (own.map place) previous' o = place (resolve own previous o) := by
  have hone : 1 < own.length := by
    rw [h.length]
    omega
  rcases o with slot | index | slot
  · have hslot : slot = 0 ∨ (2 ≤ slot ∧ slot < 2 + paramCount) := ho
    exact getD_map (by rw [h.length]; omega)
  · rw [resolve, getD_map hone]
    exact (hplace _ h.own index).symm
  · obtain ⟨n, hn, hslot⟩ := ho
    exact h.slots n hn slot hslot

theorem header_map (hi : i.Checked paramCount localCount length pc before) :
    header (own.map place) (place privateBase) previous' i =
      (header own privateBase previous i).map place := by
  have hoperands : i.operands ≠ [] := by
    rintro hnil
    have harity := hi.arity
    simp only [hnil, List.length_nil] at harity
    omega
  have hcells : i.operands.map (resolve (own.map place) previous') =
      (i.operands.map (resolve own previous)).map place := by
    rw [List.map_map]
    exact List.map_congr_left fun o ho => h.resolve_map hplace (hi.operands o ho)
  rw [header, hcells, headerOffsets_map (by simpa using hoperands), header]

theorem next (hi : i.Checked paramCount localCount length pc before)
    (hcallee : Placed place start i.callee) :
    Spot place start own paramCount (some i.callee.fieldSize) (privateBase + i.callee.storageSize)
      (slot i.callee (header own privateBase previous i))
      (slot i.callee (header (own.map place) (place privateBase) previous' i)) := by
  refine ⟨h.length, h.own, h.base.trans (Nat.le_add_right _ _), fun n hn s hs => ?_⟩
  cases hn
  rw [h.header_map hplace hi]
  exact hcallee _ (length_header hi own _ _) (by rw [header_one]; exact h.base) s hs

end Spot

theorem slotIn_map (hplace : Shifts place start) (hbody : ∀ i ∈ body, Placed place start i.callee)
    (hchecks : Checks paramCount localCount length pc before body)
    (h : Spot place start own paramCount before privateBase previous previous') :
    ∀ s < segmentsSize body, slotIn (own.map place) (place privateBase) previous' body s =
      place (slotIn own privateBase previous body s) := by
  induction body generalizing pc before privateBase previous previous' with
  | nil => simp [segmentsSize]
  | cons i rest ih =>
    obtain ⟨hi, hrest⟩ := List.forall_mem_cons.1 hbody
    have hsize : segmentsSize (i :: rest) = i.callee.fieldSize + segmentsSize rest := rfl
    have hnext := h.next hplace hchecks.1 hi
    intro s hs
    rw [slotIn_cons, slotIn_cons]
    split
    · rename_i hfirst
      exact hnext.slots _ rfl s hfirst
    · rename_i hbehind
      rw [← hplace _ h.base]
      exact ih hrest hchecks.2 hnext _ (by omega)

theorem Built.placed (hplace : Shifts place start) (h : Built f) : Placed place start f := by
  induction h with
  | builtin b => exact fun own hown _ s hs => getD_map (by rwa [hown])
  | @composed name localCount paramCount body c hbody hc ih =>
    obtain ⟨hchecks, rfl⟩ := compose_eq_ok hc
    intro own hown hstart s hs
    have hown : own.length = 2 + paramCount := hown
    have hs : s < 2 + paramCount + segmentsSize body := hs
    rw [slot, slot, List.length_map]
    split
    · rename_i hthere
      exact getD_map hthere
    · rename_i hbehind
      rw [getD_map (by omega), ← hplace _ hstart]
      refine slotIn_map hplace ih hchecks ⟨hown, hstart, ?_, by simp⟩ _ (by omega)
      exact hstart.trans (Nat.le_add_right _ _)

/-- A call has a header whose private cells are behind those of the instructions before it. -/
theorem exists_header {k : Nat} (hi : body[k]? = some i) :
    ∃ previous', (headers own privateBase previous body)[k]? =
      some (header own (privateBase + privateSize (body.take k)) previous' i) := by
  induction body generalizing privateBase previous k with
  | nil => simp at hi
  | cons first rest ih =>
    rw [headers]
    rcases k with _ | k
    · cases hi
      exact ⟨previous, rfl⟩
    · obtain ⟨previous', hgiven⟩ := @ih (privateBase + first.callee.storageSize)
        (slot first.callee (header own privateBase previous first)) k hi
      rw [Nat.add_assoc] at hgiven
      exact ⟨previous', hgiven⟩

/-- The headers of a body that is given a header placed elsewhere are placed there. -/
theorem headers_map (hplace : Shifts place start) (hbody : ∀ i ∈ body, Built i.callee)
    (hchecks : Checks paramCount localCount length pc before body)
    (h : Spot place start own paramCount before privateBase previous previous') :
    headers (own.map place) (place privateBase) previous' body =
      (headers own privateBase previous body).map (List.map place) := by
  induction body generalizing pc before privateBase previous previous' with
  | nil => rfl
  | cons i rest ih =>
    obtain ⟨hi, hrest⟩ := List.forall_mem_cons.1 hbody
    have hnext := h.next hplace hchecks.1 (hi.placed hplace)
    rw [headers, headers, List.map_cons, h.header_map hplace hchecks.1]
    rw [h.header_map hplace hchecks.1] at hnext
    rw [← hplace _ h.base, ih hrest hchecks.2 hnext]

namespace Direct.Frame

/-- The frame with its header placed elsewhere. -/
def relocate (place : Nat → Nat) (g : Frame) : Frame :=
  { g with header := g.header.map place }

variable {g : Frame} {size : Nat}

theorem calleeHeader_relocate (hplace : Shifts place start) (hg : Keeps size g)
    (hstart : start ≤ g.header[1]?.getD 0) :
    (g.relocate place).calleeHeader = g.calleeHeader.map place := by
  obtain ⟨hbuilt, room, hgiven, -⟩ := hg
  have hwell := wellComposed hbuilt
  have hlength : g.header.length = 2 + g.function.paramCount := hgiven.length
  have hspot : Spot place start g.header g.function.paramCount none
      (g.header[1]?.getD 0 + g.function.localCount) (fun _ => 0) (fun _ => 0) :=
    ⟨hlength, hstart, hstart.trans (Nat.le_add_right _ _), by simp⟩
  have hheaders := headers_map hplace hwell.built hwell.checks hspot
  simp only [calleeHeader, relocate]
  rw [getD_map (by omega), ← hplace _ hstart, hheaders, List.getElem?_map]
  rcases (headers g.header _ _ g.function.body)[g.pc]? with _ | given <;> rfl

theorem exists_calleeHeader (hi : g.function.body[g.pc]? = some i) :
    ∃ previous, g.calleeHeader = Direct.header g.header (g.header[1]?.getD 0 +
      g.function.localCount + privateSize (g.function.body.take g.pc)) previous i := by
  obtain ⟨previous, hgiven⟩ := exists_header hi
  exact ⟨previous, by rw [calleeHeader, hgiven, Option.getD_some]⟩

theorem getElem?_headers (hi : g.function.body[g.pc]? = some i) :
    (headers g.header (g.header[1]?.getD 0 + g.function.localCount) (fun _ => 0)
      g.function.body)[g.pc]? = some g.calleeHeader := by
  obtain ⟨previous, hgiven⟩ := exists_header hi
  rw [calleeHeader, hgiven, Option.getD_some]

/-- The private cells of a call stand behind the locals and the private cells of the calls before
it. -/
theorem calleeHeader_one (hi : g.function.body[g.pc]? = some i) :
    g.calleeHeader[1]?.getD 0 = g.header[1]?.getD 0 + g.function.localCount +
      privateSize (g.function.body.take g.pc) := by
  obtain ⟨previous, hgiven⟩ := exists_calleeHeader hi
  rw [hgiven, header_one]

theorem le_calleeHeader (hi : g.function.body[g.pc]? = some i) :
    g.header[1]?.getD 0 + g.function.localCount ≤ g.calleeHeader[1]?.getD 0 := by
  rw [calleeHeader_one hi]
  exact Nat.le_add_right _ _

theorem follow_relocate (control : Control) (outer : List Frame) :
    (g.relocate place).follow (outer.map (relocate place)) control =
      (g.follow outer control).map (relocate place) := by
  rcases control with _ | _ | d | _ <;> rfl

/-- Wherever a frame goes, it keeps its header. -/
theorem header_of_mem_follow {control : Control} {outer : List Frame} {x : Frame}
    (h : x ∈ g.follow outer control) : x.header = g.header ∨ x ∈ outer := by
  rcases control with _ | _ | d | _
  · exact (List.mem_cons.1 h).imp (fun hx => by rw [hx]) id
  · exact .inr h
  · exact (List.mem_cons.1 h).imp (fun hx => by rw [hx]) id
  · exact (List.mem_cons.1 h).imp (fun hx => by rw [hx]) id

end Direct.Frame

section Simulation

variable {size : Nat} {m : Memory} {s s' : Direct.State}

theorem Inside.reads {b : Builtin} {h : Header} (he : Inside size (b, h)) :
    ∀ cell ∈ b.reads h, cell < size := by
  have hresult : h.result < size := he.result
  have hoperands : ∀ cell ∈ h.operands, cell < size := he.operands
  cases b
  case storeIf r => exact List.forall_mem_cons.2 ⟨hresult, hoperands⟩
  case last => exact List.forall_mem_cons.2 ⟨he.storage Nat.one_ne_zero, hoperands⟩
  all_goals exact hoperands

theorem Inside.writes {b : Builtin} {h : Header} (he : Inside size (b, h)) :
    ∀ cell ∈ b.writes h, cell < size := by
  intro cell hcell
  rw [Builtin.writes] at hcell
  rcases List.mem_append.1 hcell with hcell | hcell
  · split at hcell
    · rw [List.mem_singleton.1 hcell]
      exact he.result
    · cases hcell
  · split at hcell
    · cases hcell
    · rename_i hstorage
      rw [List.mem_singleton.1 hcell]
      exact he.storage hstorage

/-- A run on the cells of `m` that are the places of the first `size`, beside the same run on
those. -/
structure Relocated (place : Nat → Nat) (start size : Nat) (m : Memory) (s s' : Direct.State) :
    Prop where
  keeps : ∀ g ∈ s.frames, Keeps size g
  start : ∀ g ∈ s.frames, start ≤ g.header[1]?.getD 0
  frames : s'.frames = s.frames.map (Direct.Frame.relocate place)
  matched : Matched place {cell | cell < size} s.memory s'.memory
  inner : s.memory.cells.size = size
  outer : s'.memory.cells.size = m.cells.size
  others : ∀ cell, (∀ c < size, place c ≠ cell) → s'.memory.read cell = m.read cell

namespace Relocated

variable (hplace : Shifts place start) (hinj : Set.InjOn place {cell | cell < size})
  (hthere : ∀ cell < size, place cell < m.cells.size)

include hinj hthere in
/-- A builtin that works on cells among the first `size` does the same in their places. -/
theorem run {b : Builtin} (constants : List Float) (jump : Option Int) {h : Header}
    (hs : Relocated place start size m s s') (he : Inside size (b, h)) :
    (b.run constants jump (h.map place) s'.memory).1 = (b.run constants jump h s.memory).1 ∧
      Matched place {cell | cell < size} (b.run constants jump h s.memory).2
        (b.run constants jump (h.map place) s'.memory).2 ∧
      ∀ cell, (∀ c < size, place c ≠ cell) →
        (b.run constants jump (h.map place) s'.memory).2.read cell = m.read cell := by
  have hknown : {cell | cell < size} ∪ {cell | cell ∈ b.writes h} = {cell | cell < size} :=
    Set.union_eq_self_of_subset_right he.writes
  have hbounds : ∀ cell ∈ b.writes h,
      (cell < s.memory.cells.size ↔ place cell < s'.memory.cells.size) := by
    intro cell hcell
    rw [hs.inner, hs.outer]
    exact iff_of_true (he.writes cell hcell) (hthere cell (he.writes cell hcell))
  rw [← hknown] at hinj
  refine ⟨(hs.matched.run constants jump he.reads hinj hbounds).1,
    hs.matched.run_known constants jump he.reads hinj hbounds, fun cell hcell => ?_⟩
  rw [Builtin.read_run_of_notMem, hs.others cell hcell]
  rw [Builtin.writes_map, List.mem_map]
  rintro ⟨c, hc, rfl⟩
  exact hcell c (he.writes c hc) rfl

include hplace hinj hthere in
theorem step (h : Relocated place start size m s s') :
    Relocated place start size m s.step s'.step := by
  obtain ⟨frames, memory⟩ := s
  obtain ⟨frames', memory'⟩ := s'
  have hframes : frames' = frames.map (Direct.Frame.relocate place) := h.frames
  subst hframes
  have hkeeps := keeps_step h.keeps
  rcases frames with _ | ⟨g, outer⟩
  · exact h
  · obtain ⟨hg, houter⟩ := List.forall_mem_cons.1 h.keeps
    obtain ⟨hstart, hbehind⟩ := List.forall_mem_cons.1 h.start
    have hcallee := Direct.Frame.calleeHeader_relocate hplace hg hstart
    have hfunction : (g.relocate place).function = g.function := rfl
    have hpc : (g.relocate place).pc = g.pc := rfl
    unfold Direct.State.step at hkeeps ⊢
    simp only [List.map_cons, hfunction, hpc, hcallee] at hkeeps ⊢
    rcases hi : g.function.body[g.pc]? with _ | i
    · exact ⟨houter, hbehind, rfl, h.matched, h.inner, h.outer, h.others⟩
    · have hprivate := Direct.Frame.le_calleeHeader hi
      obtain ⟨-, room, hgiven, -⟩ := hg.callee hi
      obtain ⟨callee, operands, constants, jump⟩ := i
      simp only [hi] at hkeeps ⊢
      rcases callee with b | c
      · have htwo : 2 ≤ g.calleeHeader.length := by
          rw [hgiven.length]
          exact Nat.le_add_right _ _
        obtain ⟨hcontrol, hmatched, hothers⟩ :=
          h.run hinj hthere constants jump hgiven.inside
        simp only [Header.ofList_map htwo, hcontrol]
        refine ⟨hkeeps, ?_, Direct.Frame.follow_relocate _ _, hmatched,
          Builtin.size_run.trans h.inner, Builtin.size_run.trans h.outer, hothers⟩
        intro x hx
        rcases Direct.Frame.header_of_mem_follow hx with hx | hx
        · rw [hx]
          exact hstart
        · exact hbehind x hx
      · refine ⟨hkeeps, ?_, rfl, h.matched, h.inner, h.outer, h.others⟩
        refine List.forall_mem_cons.2 ⟨?_, List.forall_mem_cons.2 ⟨hstart, hbehind⟩⟩
        exact hstart.trans ((Nat.le_add_right _ _).trans hprivate)

include hplace hinj hthere in
theorem steps (h : Relocated place start size m s s') (n : Nat) :
    Relocated place start size m (s.run n) (s'.run n) := by
  induction n generalizing s s' with
  | zero => exact h
  | succ n ih => exact ih (h.step hplace hinj hthere)

include hplace in
theorem event? (h : Relocated place start size m s s') :
    s'.event? = s.event?.map (Prod.map id (Header.map place)) := by
  obtain ⟨frames, memory⟩ := s
  obtain ⟨frames', memory'⟩ := s'
  have hframes : frames' = frames.map (Direct.Frame.relocate place) := h.frames
  subst hframes
  rcases frames with _ | ⟨g, outer⟩
  · rfl
  · have hg := (List.forall_mem_cons.1 h.keeps).1
    have hstart := (List.forall_mem_cons.1 h.start).1
    have hcallee := Direct.Frame.calleeHeader_relocate hplace hg hstart
    have hfunction : (g.relocate place).function = g.function := rfl
    have hpc : (g.relocate place).pc = g.pc := rfl
    unfold Direct.State.event?
    simp only [List.map_cons, hfunction, hpc, hcallee]
    rcases hi : g.function.body[g.pc]? with _ | i
    · rfl
    · obtain ⟨-, room, hgiven, -⟩ := hg.callee hi
      have htwo : 2 ≤ g.calleeHeader.length := by
        rw [hgiven.length]
        exact Nat.le_add_right _ _
      obtain ⟨callee, operands, constants, jump⟩ := i
      rcases callee with b | c
      · simp only [Header.ofList_map htwo, Option.map_some, Prod.map_apply, id]
      · rfl

include hplace hinj hthere in
theorem trace (h : Relocated place start size m s s') (n : Nat) :
    trace Direct.State.step Direct.State.event? n s' =
      (trace Direct.State.step Direct.State.event? n s).map (Prod.map id (Header.map place)) := by
  induction n generalizing s s' with
  | zero => rfl
  | succ n ih =>
    rw [Behavioral.trace, Behavioral.trace, h.event? hplace, ih (h.step hplace hinj hthere),
      List.map_append]
    cases s.event? <;> rfl

end Relocated

end Simulation

section Hidden

mutual

/-- Whether no operand, at any depth, is taken from a private start. -/
def Function.hidesStarts : Function → Bool
  | .builtin _ => true
  | .composed ⟨_, _, _, body, _, _⟩ => hidesStartsIn (fun _ => true) body

/-- The same for instructions; `allowed` tells which slots of the instruction before are results or
operands. -/
def hidesStartsIn : (allowed : Nat → Bool) → List (Instruction Function) → Bool
  | _, [] => true
  | allowed, ⟨callee, operands, _, _⟩ :: rest =>
    operands.all (Operand.allowed allowed) && callee.hidesStarts &&
      hidesStartsIn (fun s => (callee.privateSlot? s).isNone) rest

end

theorem hidesStartsIn_cons {allowed : Nat → Bool} (i : Instruction Function)
    (rest : List (Instruction Function)) :
    hidesStartsIn allowed (i :: rest) = (i.operands.all (Operand.allowed allowed) &&
      i.callee.hidesStarts && hidesStartsIn (fun s => (i.callee.privateSlot? s).isNone) rest) := by
  obtain ⟨callee, operands, constants, jump⟩ := i
  rw [hidesStartsIn]

theorem confinedIn_of_hidesStartsIn {room : Nat} {allowed allowed' : Nat → Bool}
    (hbody : ∀ i ∈ body, ∀ room, i.callee.hidesStarts = true → i.callee.confined room = true)
    (hallowed : ∀ s, allowed s = true → allowed' s = true)
    (h : hidesStartsIn allowed body = true) : confinedIn room allowed' body = true := by
  induction body generalizing room allowed allowed' with
  | nil => rfl
  | cons i rest ih =>
    obtain ⟨hi, hrest⟩ := List.forall_mem_cons.1 hbody
    rw [hidesStartsIn_cons, Bool.and_eq_true, Bool.and_eq_true, List.all_eq_true] at h
    obtain ⟨⟨hoperands, hcallee⟩, hbehind⟩ := h
    rw [confinedIn_cons, Bool.and_eq_true, Bool.and_eq_true, List.all_eq_true]
    refine ⟨⟨fun o ho => ?_, hi room hcallee⟩, ih hrest (fun s hs => ?_) hbehind⟩
    · have hslot := hoperands o ho
      cases o with
      | caller slot => rfl
      | localCell index => rfl
      | previous slot => exact hallowed slot hslot
    · rw [Option.isNone_iff_eq_none.1 hs]
      rfl

/-- Without private starts among the operands, a function is confined however little room it has. -/
theorem Built.confined (h : Built f) :
    ∀ room, f.hidesStarts = true → f.confined room = true := by
  induction h with
  | builtin b => exact fun _ _ => rfl
  | @composed name localCount paramCount body c hbody hc ih =>
    obtain ⟨-, rfl⟩ := compose_eq_ok hc
    intro room hhides
    rw [confined_composed]
    exact confinedIn_of_hidesStartsIn ih (fun s hs => hs) hhides

end Hidden

section Call

namespace Header

/-- The cells of a call of a function with so many private cells, in the order in which an
activation of its own has them. -/
def cells (h : Header) (storageSize : Nat) : List Nat :=
  h.result :: h.operands ++ (List.range storageSize).map (h.storage + ·)

/-- Where a call keeps a cell of an activation. -/
def cellAt (h : Header) (index : Nat) : Nat :=
  ((h.result :: h.operands)[index]?).getD (h.storage + (index - (1 + h.operands.length)))

variable {h : Header} {storageSize : Nat}

theorem toList_ofList (h : 2 ≤ own.length) : (ofList own).toList = own := by
  obtain _ | ⟨result, _ | ⟨storage, operands⟩⟩ := own
  · simp at h
  · simp at h
  · rfl

theorem length_cells : (h.cells storageSize).length = 1 + h.operands.length + storageSize := by
  simp only [cells, List.length_append, List.length_cons, List.length_map, List.length_range]
  omega

theorem getElem?_cells {cell : Nat} (hcell : cell < 1 + h.operands.length + storageSize) :
    (h.cells storageSize)[cell]? = some (h.cellAt cell) := by
  by_cases hoperand : cell < 1 + h.operands.length
  · have hlength : cell < (h.result :: h.operands).length := by
      simp only [List.length_cons]
      omega
    rw [cells, cellAt, List.getElem?_append_left hlength, List.getElem?_eq_getElem hlength,
      Option.getD_some]
  · have hlength : (h.result :: h.operands).length ≤ cell := by
      simp only [List.length_cons]
      omega
    rw [cells, cellAt, List.getElem?_append_right hlength, List.getElem?_eq_none hlength]
    simp only [List.length_cons, List.getElem?_map, Option.getD_none]
    rw [List.getElem?_range (by omega), Option.map_some]
    congr 2
    omega

theorem shifts_cellAt : Shifts h.cellAt (1 + h.operands.length) := by
  intro cell hcell k
  have hlength : (h.result :: h.operands).length ≤ cell := by
    simp only [List.length_cons]
    omega
  rw [cellAt, cellAt, List.getElem?_eq_none hlength, List.getElem?_eq_none (by omega)]
  simp only [Option.getD_none]
  omega

/-- The header of an activation, put in the places of a call, is the call's header. -/
theorem map_cellAt (f : Function) (hparams : h.operands.length = f.paramCount) :
    (Activation.header f).map h.cellAt = h.toList := by
  have hoperands : (List.range f.paramCount).map (fun i => h.cellAt (1 + i)) = h.operands := by
    rw [← hparams]
    refine List.ext_getElem (by simp) fun i hi hi' => ?_
    simp [cellAt, Nat.add_comm 1, hi']
  simp only [Activation.header, List.map_cons, List.map_map, Function.comp_def, hoperands]
  simp [cellAt, toList, ← hparams, Nat.add_comm 1]

end Header

namespace Memory

/-- A memory of its own with the given cells. -/
def gather (m : Memory) (cells : List Nat) : Memory :=
  ⟨(cells.map m.read).toArray, m.context⟩

/-- The memory with the given cells put back from a memory of their own. -/
def scatter (m : Memory) (cells : List Nat) (own : Memory) : Memory :=
  ⟨m.cells.mapIdx fun cell value => ((cells.idxOf? cell).map own.read).getD value, own.context⟩

variable {m own : Memory} {cells : List Nat}

theorem size_gather : (m.gather cells).cells.size = cells.length := by
  simp [gather]

theorem read_gather {index cell : Nat} (h : cells[index]? = some cell) :
    (m.gather cells).read index = m.read cell := by
  simp [gather, Memory.read, h]

theorem read_scatter {cell : Nat} (h : cell < m.cells.size) :
    (m.scatter cells own).read cell = ((cells.idxOf? cell).map own.read).getD (m.read cell) := by
  simp [scatter, Memory.read, h]

end Memory

variable {h : Header} {g : Composed} {m : Memory}

theorem injOn_cellAt {storageSize : Nat} (hdistinct : (h.cells storageSize).Nodup) :
    Set.InjOn h.cellAt {index | index < 1 + h.operands.length + storageSize} := by
  intro i hi j hj hsame
  have hcells : (h.cells storageSize)[i]? = (h.cells storageSize)[j]? := by
    rw [Header.getElem?_cells hi, Header.getElem?_cells hj, hsame]
  exact (List.getElem?_inj (by rwa [Header.length_cells]) hdistinct).1 hcells

theorem cellAt_lt {storageSize size : Nat} (hin : ∀ cell ∈ h.cells storageSize, cell < size) :
    ∀ index < 1 + h.operands.length + storageSize, h.cellAt index < size :=
  fun _ hindex => hin _ (List.mem_of_getElem? (Header.getElem?_cells hindex))

/-- The call beside the activation, before their first step. -/
theorem relocated_start (hg : Built (.composed g))
    (hhides : (Function.composed g).hidesStarts = true)
    (hparams : h.operands.length = g.paramCount) :
    Relocated h.cellAt (1 + h.operands.length) (1 + h.operands.length + g.storageSize) m
      ⟨[⟨g, Activation.header (.composed g), 0⟩], m.gather (h.cells g.storageSize)⟩
      ⟨[⟨g, h.toList, 0⟩], m⟩ := by
  have hgiven := @given_header g
  rw [← hparams] at hgiven
  refine ⟨?_, ?_, ?_, ⟨rfl, fun index hindex => ?_⟩, ?_, rfl, fun _ _ => rfl⟩
  · exact List.forall_mem_singleton.2 ⟨hg, _, hgiven, hg.confined _ hhides⟩
  · refine List.forall_mem_singleton.2 ?_
    rw [hparams]
    exact le_rfl
  · rw [← Header.map_cellAt (.composed g) hparams]
    rfl
  · exact (Memory.read_gather (Header.getElem?_cells hindex)).symm
  · rw [Memory.size_gather, Header.length_cells]

/-- What a call leaves is what the activation leaves, put back. -/
theorem Relocated.memory {start storageSize : Nat} {s s' : Direct.State}
    (hs : Relocated h.cellAt start (1 + h.operands.length + storageSize) m s s') :
    s'.memory = m.scatter (h.cells storageSize) s.memory := by
  refine Memory.eq_of_read ?_ hs.matched.context fun cell hcell => ?_
  · rw [hs.outer, Memory.scatter, Array.size_mapIdx]
  · rw [hs.outer] at hcell
    rw [Memory.read_scatter hcell]
    rcases hindex : (h.cells storageSize).idxOf? cell with _ | index
    · refine hs.others cell ?_
      rintro index hin rfl
      exact List.idxOf?_eq_none_iff.1 hindex (List.mem_of_getElem? (Header.getElem?_cells hin))
    · obtain ⟨hlength, hfound, -⟩ := List.idxOf?_eq_some_iff.1 hindex
      have hcellAt := Header.getElem?_cells (Header.length_cells ▸ hlength)
      rw [List.getElem?_eq_getElem hlength, hfound, Option.some_inj] at hcellAt
      rw [hcellAt]
      exact hs.matched.cells index (Header.length_cells ▸ hlength)

end Call

section Frames

variable {field : Array Nat} {s : State}

theorem Frame.follow_append (f : Frame) (size : Nat) (inner outer : List Frame)
    (control : Control) :
    f.follow size (inner ++ outer) control = f.follow size inner control ++ outer := by
  rcases control with _ | _ | d | _
  · rfl
  · rfl
  · rw [Frame.follow, Frame.follow]
    split <;> rfl
  · rfl

/-- What lies under the frames of a run does not matter to it. -/
theorem State.step_append (outer : List Frame) (h : s.frames ≠ []) :
    State.step field ⟨s.frames ++ outer, s.memory⟩ =
      ⟨(s.step field).frames ++ outer, (s.step field).memory⟩ := by
  obtain ⟨frames, memory⟩ := s
  obtain ⟨f, inner, rfl⟩ := List.exists_cons_of_ne_nil h
  unfold State.step
  simp only [List.cons_append]
  rcases f.function.body[f.pc]? with _ | ⟨callee, operands, constants, jump⟩
  · rfl
  · rcases callee with b | c
    · simp only [Frame.follow_append]
    · rfl

theorem State.event?_append (outer : List Frame) (h : s.frames ≠ []) :
    State.event? field ⟨s.frames ++ outer, s.memory⟩ = s.event? field := by
  obtain ⟨frames, memory⟩ := s
  obtain ⟨f, inner, rfl⟩ := List.exists_cons_of_ne_nil h
  rfl

theorem State.run_append (outer : List Frame) {n : Nat}
    (h : ∀ k < n, (s.run field k).frames ≠ []) :
    State.run field n ⟨s.frames ++ outer, s.memory⟩ =
      ⟨(s.run field n).frames ++ outer, (s.run field n).memory⟩ := by
  induction n generalizing s with
  | zero => rfl
  | succ n ih =>
    have hs : s.frames ≠ [] := h 0 (Nat.zero_lt_succ n)
    rw [State.run_succ, State.step_append outer hs, State.run_succ]
    refine ih fun k hk => ?_
    rw [← State.run_succ]
    exact h (k + 1) (Nat.succ_lt_succ hk)

theorem State.trace_append (outer : List Frame) {n : Nat}
    (h : ∀ k < n, (s.run field k).frames ≠ []) :
    trace (State.step field) (State.event? field) n ⟨s.frames ++ outer, s.memory⟩ =
      trace (State.step field) (State.event? field) n s := by
  induction n generalizing s with
  | zero => rfl
  | succ n ih =>
    have hs : s.frames ≠ [] := h 0 (Nat.zero_lt_succ n)
    rw [trace, trace, State.event?_append outer hs, State.step_append outer hs, ih]
    intro k hk
    rw [← State.run_succ]
    exact h (k + 1) (Nat.succ_lt_succ hk)

end Frames

theorem Holds.header {field : Array Nat} {origin : Nat} {f : Function}
    (h : Holds field origin (f.layout own)) : Holds field origin own := by
  rcases f with b | c
  · exact h
  · rw [layout_composed] at h
    exact @Holds.within field origin [] own _ h

/-- The header that a call finds in the index field is the one that its callee is given. -/
theorem Runs.header {field : Array Nat} {f : Frame} {g : Direct.Frame} (h : Runs field f g)
    (hi : g.function.body[g.pc]? = some i) :
    Behavioral.headerAt field f.base i.callee.headerSize = .ofList g.calleeHeader := by
  obtain ⟨-, -, hsize, hheld⟩ := h.callee hi
  rw [← hsize]
  exact headerAt_of_holds hheld.header

/-- Wherever the record of a function `c` stands in an index field, a call in it of a function `g`
none of whose operands is taken from a private start does what an activation of `g` does on the
cells of the call, step by step: the same builtins on those cells, and the same values and
simulation put back, while the other cells stay as they are. When the activation has ended, the
caller goes on behind the call. -/
theorem run_call {c g : Composed} (hc : Built (.composed c)) {own : List Nat}
    (hown : own.length = 2 + c.paramCount) {field : Array Nat} {origin : Nat}
    (hfield : Holds field origin ((Function.composed c).layout own)) {pc : Nat}
    {i : Instruction Function} (hi : c.body[pc]? = some i) (hcallee : i.callee = .composed g)
    (hhides : (Function.composed g).hidesStarts = true) :
    let h := headerAt field (Frame.reached c origin pc).base (2 + g.paramCount)
    let cells := h.cells g.storageSize
    cells.Nodup → ∀ m : Memory, (∀ cell ∈ cells, cell < m.cells.size) →
    let activation := Activation.ofFunction (.composed g)
    let alone : State := ⟨[Frame.enter g 0], m.gather cells⟩
    ∀ (outer : List Frame) (n : Nat),
    (∀ k < n, (alone.run activation.call.field k).frames ≠ []) →
    let start : State := ⟨Frame.reached c origin pc :: outer, m⟩
    trace (State.step field) (State.event? field) (n + 1) start =
        (trace (State.step activation.call.field) (State.event? activation.call.field) n
          alone).map (Prod.map id (Header.map h.cellAt)) ∧
      (start.run field (n + 1)).memory =
        m.scatter cells (alone.run activation.call.field n).memory ∧
      ∃ inner, (start.run field (n + 1)).frames =
          inner ++ Frame.reached c origin (pc + 1) :: outer ∧
        inner.length = (alone.run activation.call.field n).frames.length := by
  intro h cells hdistinct m hin activation alone outer n hrunning start
  have hcaller : Runs field (Frame.reached c origin pc) ⟨c, own, pc⟩ := ⟨hc, hown, rfl, hfield⟩
  obtain ⟨hg, -, hsize, -⟩ := hcaller.callee hi
  have hheader : h = .ofList (Direct.Frame.calleeHeader ⟨c, own, pc⟩) := by
    rw [← hcaller.header hi, hcallee]
    rfl
  rw [hcallee] at hg hsize
  have hparams : h.operands.length = g.paramCount := by
    rw [hheader, Header.ofList, List.length_drop, hsize, Function.headerSize]
    exact Nat.add_sub_cancel_left 2 g.paramCount
  have htoList : h.toList = Direct.Frame.calleeHeader ⟨c, own, pc⟩ := by
    rw [hheader, Header.toList_ofList (by rw [hsize]; exact Nat.le_add_right _ _)]
  -- the call, without the frames under it, and the activation, each beside its direct run
  let called : State := ⟨[Frame.enter g (Frame.reached c origin pc).base], m⟩
  have hcalled : Tracks field called ⟨[⟨g, h.toList, 0⟩], m⟩ := by
    rw [htoList]
    exact ⟨.cons (hcaller.enter hi hcallee) .nil, rfl⟩
  have halone : Tracks activation.call.field alone
      ⟨[⟨g, Activation.header (.composed g), 0⟩], m.gather cells⟩ :=
    tracks_enter hg given_header.length rfl _
  have hstart := @relocated_start h g m hg hhides hparams
  have hplace := @Header.shifts_cellAt h
  have hinj := injOn_cellAt hdistinct
  have hthere := cellAt_lt hin
  have hrun := hstart.steps hplace hinj hthere
  have hframes : ∀ k, (called.run field k).frames.length =
      (alone.run activation.call.field k).frames.length := by
    intro k
    rw [(hcalled.run k).frames.length_eq, (halone.run k).frames.length_eq, (hrun k).frames,
      List.length_map]
  have hcalling : ∀ k < n, (called.run field k).frames ≠ [] := by
    intro k hk
    rw [← List.length_pos_iff, hframes, List.length_pos_iff]
    exact hrunning k hk
  have henter : start.step field = ⟨called.frames ++ Frame.reached c origin (pc + 1) :: outer,
      called.memory⟩ := by
    have hbody : (Frame.reached c origin pc).function.body[(Frame.reached c origin pc).pc]? =
        some i := hi
    have hnext : (Frame.reached c origin pc).advance g.fieldSize =
        Frame.reached c origin (pc + 1) := by
      rw [← Frame.advance_reached hi, hcallee]
      rfl
    simp only [State.step, start, hbody, hcallee, hnext]
    rfl
  have hevent : start.event? field = none := by
    obtain ⟨callee, operands, constants, jump⟩ := i
    obtain rfl : callee = .composed g := hcallee
    simp only [State.event?, start, Frame.reached, hi]
  refine ⟨?_, ?_, (called.run field n).frames, ?_, hframes n⟩
  · rw [trace, hevent, henter, State.trace_append _ hcalling, hcalled.trace, halone.trace,
      hstart.trace hplace hinj hthere]
    rfl
  · rw [State.run_succ, henter, State.run_append _ hcalling, (hcalled.run n).memory,
      (halone.run n).memory, (hrun n).memory]
  · rw [State.run_succ, henter, State.run_append _ hcalling]

/-- Adds what it is given to what it was given before, over and over. -/
def running : Composed :=
  ⟨"running", 1, 1, [⟨.builtin .last, [.localCell 0, .caller 2], [], none⟩,
    ⟨.builtin (.binary .add), [.caller 0, .previous 0, .previous 2], [], none⟩,
    ⟨.builtin .jump, [.caller 0], [], some (-1)⟩], 12, 2⟩

/-- Calls `running` with a local of its own. -/
def calling : Composed :=
  ⟨"calling", 1, 1, [⟨.builtin (.unary .neg), [.localCell 0, .caller 2], [], none⟩,
    ⟨.composed running, [.caller 0, .localCell 0], [], none⟩], 18, 3⟩

theorem built_running : Built (.composed running) := by
  have hbody : ∀ i ∈ running.body, Built i.callee := by
    simp [running, Built.builtin]
  exact @Built.composed "running" 1 1 running.body running hbody rfl

theorem built_calling : Built (.composed calling) := by
  have hbody : ∀ i ∈ calling.body, Built i.callee := by
    simp [calling, built_running, Built.builtin]
  exact @Built.composed "calling" 1 1 calling.body calling hbody rfl

theorem run_call_running :
    let field := ((Function.composed calling).layout [0, 2, 1]).toArray
    let m : Memory := ⟨#[0, 3, 5, 7, 9], {}⟩
    let own := (Activation.ofFunction (.composed running)).call.field
    let alone : State := ⟨[Frame.enter running 0], ⟨#[0, 5, 7, 9], {}⟩⟩
    let start : State := ⟨[Frame.reached calling 0 1], m⟩
    headerAt field (Frame.reached calling 0 1).base 3 = ⟨0, 3, [2]⟩ ∧
      (Function.composed running).hidesStarts = true ∧ [0, 2, 3, 4].Nodup ∧
      (∀ cell ∈ [0, 2, 3, 4], cell < m.cells.size) ∧
      (∀ k < 4, (alone.run own k).frames ≠ []) ∧
      trace (State.step field) (State.event? field) 5 start =
        (trace (State.step own) (State.event? own) 4 alone).map
          (Prod.map id (Header.map (Header.cellAt ⟨0, 3, [2]⟩))) ∧
      trace (State.step own) (State.event? own) 4 alone =
        [(.last, ⟨2, 3, [1]⟩), (.binary .add, ⟨0, 4, [2, 1]⟩), (.jump, ⟨0, 4, []⟩),
          (.binary .add, ⟨0, 4, [2, 1]⟩)] ∧
      (start.run field 5).memory = m.scatter [0, 2, 3, 4] (alone.run own 4).memory := by
  intro field m own alone start
  have hhides : (Function.composed running).hidesStarts = true := by decide
  have hdistinct : [0, 2, 3, 4].Nodup := by decide
  have hin : ∀ cell ∈ [0, 2, 3, 4], cell < m.cells.size := by decide
  have hrunning : ∀ k < 4, (alone.run own k).frames ≠ [] := by
    intro k hk
    interval_cases k <;> exact List.cons_ne_nil _ _
  have hheld : Holds field 0 ((Function.composed calling).layout [0, 2, 1]) :=
    ⟨[], [], by simp [field], rfl⟩
  have hown : [0, 2, 1].length = 2 + calling.paramCount := rfl
  have hi : calling.body[1]? = some ⟨.composed running, [.caller 0, .localCell 0], [], none⟩ := rfl
  have hcall := run_call built_calling hown hheld hi rfl hhides hdistinct m hin [] 4 hrunning
  exact ⟨rfl, hhides, hdistinct, hin, hrunning, hcall.1, by decide, hcall.2.1⟩

end Behavioral
