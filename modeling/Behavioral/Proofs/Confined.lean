import Behavioral.Machine.Activation
import Behavioral.Proofs.Refinement

/-!
# The cells that a function may touch

An index field holds results and operands, and private starts (`privateSlot?`). Results and operands
name cells that are there, unless an operand is taken from a private start of the instruction before
in the text: where no private cells lie behind it, that is the end of the working array. Composing
does not look for that. `confined` does, and it tells exactly the functions all of whose results and
operands name cells of the working array.
-/

namespace Behavioral

open Behavioral.Composition Direct

mutual

/-- How far behind the function's own private start the one in a slot of its record is; `none` for a
result or an operand. -/
def Function.privateSlot? : Function → Nat → Option Nat
  | .builtin _, s => if s = 1 then some 0 else none
  | .composed ⟨_, paramCount, localCount, body, _, _⟩, s =>
    if s < 2 + paramCount then if s = 1 then some 0 else none
    else privateSlotIn? localCount body (s - (2 + paramCount))

/-- The same in the records of instructions whose private cells start `shift` cells behind. -/
def privateSlotIn? : (shift : Nat) → List (Instruction Function) → Nat → Option Nat
  | _, [], _ => none
  | shift, ⟨callee, _, _, _⟩ :: rest, s =>
    if s < callee.fieldSize then (callee.privateSlot? s).map (shift + ·)
    else privateSlotIn? (shift + callee.storageSize) rest (s - callee.fieldSize)

end

/-- Whether an operand is one of the slots of the instruction before that are `allowed`, if it is
one of them at all. -/
def Operand.allowed (allowed : Nat → Bool) : Operand → Bool
  | .previous slot => allowed slot
  | _ => true

mutual

/-- Whether no operand is taken from a private start that is `room` or more cells behind the
function's own. -/
def Function.confined : Function → (room : Nat) → Bool
  | .builtin _, _ => true
  | .composed ⟨_, _, localCount, body, _, _⟩, room =>
    confinedIn (room - localCount) (fun _ => true) body

/-- The same for instructions with `room` cells from their private start on. -/
def confinedIn : (room : Nat) → (allowed : Nat → Bool) → List (Instruction Function) → Bool
  | _, _, [] => true
  | room, allowed, ⟨callee, operands, _, _⟩ :: rest =>
    operands.all (Operand.allowed allowed) && callee.confined room &&
      confinedIn (room - callee.storageSize) (fun s => (callee.privateSlot? s).all (· < room)) rest

end

variable {f : Function} {own : List Nat} {i : Instruction Function} {s d shift : Nat}
  {body rest : List (Instruction Function)} {paramCount localCount length pc : Nat}
  {before : Option Nat} {size room privateBase : Nat} {previous : Nat → Nat} {allowed : Nat → Bool}

theorem header_one : (header own privateBase previous i)[1]?.getD 0 = privateBase := by
  unfold header headerOffsets
  split <;> rfl

theorem eraseIdx_header (h : i.operands ≠ []) :
    (header own privateBase previous i).eraseIdx 1 = i.operands.map (resolve own previous) := by
  obtain ⟨result, operands, hi⟩ := List.exists_cons_of_ne_nil h
  rw [header, hi]
  rfl

theorem cell_lt (h : ∀ cell ∈ own.eraseIdx 1, cell < size) (hs : s < own.length) (hone : s ≠ 1) :
    own[s]?.getD 0 < size := by
  rw [List.getElem?_eq_getElem hs, Option.getD_some]
  exact h _ (List.mem_eraseIdx_iff_getElem?.2 ⟨s, hone, List.getElem?_eq_getElem hs⟩)

theorem Function.privateSlot?_one (f : Function) : f.privateSlot? 1 = some 0 := by
  rcases f with b | ⟨name, paramCount, localCount, body, fieldSize, storageSize⟩
  · rfl
  · rw [privateSlot?, if_pos (by omega), if_pos rfl]

/-- What a record holds in a private slot. -/
def PrivateStarts (f : Function) : Prop :=
  ∀ own, own.length = f.headerSize → ∀ s d, f.privateSlot? s = some d →
    slot f own s = own[1]?.getD 0 + d

theorem privateStarts_body (hbody : ∀ i ∈ body, PrivateStarts i.callee)
    (hchecks : Checks paramCount localCount length pc before body) {start : Nat}
    (h : privateSlotIn? shift body s = some d) :
    slotIn own (start + shift) previous body s = start + d := by
  induction body generalizing pc before previous shift s with
  | nil => simp [privateSlotIn?] at h
  | cons i rest ih =>
    obtain ⟨hi, hrest⟩ := List.forall_mem_cons.1 hbody
    rw [slotIn_cons]
    unfold privateSlotIn? at h
    split at h
    · rename_i hs
      obtain ⟨e, he, rfl⟩ := Option.map_eq_some_iff.1 h
      rw [if_pos hs, hi _ (length_header hchecks.1 own _ previous) s e he, header_one]
      omega
    · rename_i hs
      rw [if_neg hs, Nat.add_assoc]
      exact ih hrest hchecks.2 h

theorem Built.privateStarts (h : Built f) : PrivateStarts f := by
  induction h with
  | builtin b =>
    intro own hown s d h
    unfold Function.privateSlot? at h
    split at h
    · rename_i hs
      cases h
      rw [slot, hs]
      rfl
    · cases h
  | @composed name localCount paramCount body c hbody hc ih =>
    obtain ⟨hchecks, rfl⟩ := compose_eq_ok hc
    intro own hown s d h
    have hown : own.length = 2 + paramCount := hown
    unfold Function.privateSlot? at h
    rw [slot, hown]
    split at h
    · rename_i hs
      split at h
      · rename_i hone
        cases h
        rw [if_pos hs, hone]
        rfl
      · cases h
    · rename_i hs
      rw [if_neg hs]
      exact privateStarts_body ih hchecks h

/-- A header that hands a function results and operands among `size` cells, and the last `room` of
them to keep its own in. -/
structure Given (size room : Nat) (f : Function) (own : List Nat) : Prop where
  length : own.length = f.headerSize
  base : own[1]?.getD 0 + room = size
  fits : f.storageSize ≤ room
  cells : ∀ cell ∈ own.eraseIdx 1, cell < size

/-- A place in a body: the function's own header is in order, the private cells from `privateBase`
on are there, and `allowed` tells which slots of the instruction before are. -/
structure Stands (size room privateBase : Nat) (own : List Nat) (paramCount localCount : Nat)
    (before : Option Nat) (previous : Nat → Nat) (allowed : Nat → Bool)
    (body : List (Instruction Function)) : Prop where
  length : own.length = 2 + paramCount
  cells : ∀ cell ∈ own.eraseIdx 1, cell < size
  locals : own[1]?.getD 0 + localCount ≤ privateBase
  base : privateBase + room = size
  fits : privateSize body ≤ room
  slots : ∀ n, before = some n → ∀ s < n, (allowed s = true ↔ previous s < size)

theorem Stands.resolve_lt_iff
    (h : Stands size room privateBase own paramCount localCount before previous allowed body)
    {o : Operand} (ho : o.Checked paramCount localCount before) :
    resolve own previous o < size ↔ o.allowed allowed = true := by
  have hlocals := h.locals
  have hbase := h.base
  rcases o with slot | index | slot
  · have hslot : slot = 0 ∨ (2 ≤ slot ∧ slot < 2 + paramCount) := ho
    have hthere : slot < own.length := by
      rw [h.length]
      omega
    have hcell : own[slot]?.getD 0 < size := cell_lt h.cells hthere (by omega)
    simp [resolve, Operand.allowed, hcell]
  · have hindex : index < localCount := ho
    have hcell : own[1]?.getD 0 + index < size := by omega
    simp [resolve, Operand.allowed, hcell]
  · obtain ⟨n, hn, hslot⟩ := ho
    exact (h.slots n hn slot hslot).symm

/-- A call is given cells that are there exactly if its operands are allowed. -/
theorem Stands.given_iff
    (h : Stands size room privateBase own paramCount localCount before previous allowed (i :: rest))
    (hi : i.Checked paramCount localCount length pc before) :
    Given size room i.callee (header own privateBase previous i) ↔
      i.operands.all (Operand.allowed allowed) = true := by
  have hoperands : i.operands ≠ [] := by
    rintro hnil
    have harity := hi.arity
    simp only [hnil, List.length_nil] at harity
    omega
  have hfits : i.callee.storageSize ≤ room := (Nat.le_add_right _ _).trans h.fits
  have hcells : (∀ cell ∈ (header own privateBase previous i).eraseIdx 1, cell < size) ↔
      i.operands.all (Operand.allowed allowed) = true := by
    rw [eraseIdx_header hoperands, List.forall_mem_map, List.all_eq_true]
    exact forall₂_congr fun o ho => h.resolve_lt_iff (hi.operands o ho)
  rw [← hcells]
  refine ⟨fun hgiven => hgiven.cells, fun hall => ⟨length_header hi own _ _, ?_, hfits, hall⟩⟩
  rw [header_one, h.base]

/-- The results and operands of a record are among `size` cells. -/
def Within (size : Nat) (f : Function) (own : List Nat) : Prop :=
  ∀ s < f.fieldSize, f.privateSlot? s = none → slot f own s < size

/-- A record that is given cells that are there has all its results and operands there exactly if
its function is confined. -/
def Judged (f : Function) : Prop :=
  ∀ size room own, Given size room f own → (Within size f own ↔ f.confined room = true)

theorem Stands.next
    (h : Stands size room privateBase own paramCount localCount before previous allowed (i :: rest))
    (hprivate : PrivateStarts i.callee)
    (hgiven : Given size room i.callee (header own privateBase previous i))
    (hwithin : Within size i.callee (header own privateBase previous i)) :
    Stands size (room - i.callee.storageSize) (privateBase + i.callee.storageSize) own paramCount
      localCount (some i.callee.fieldSize) (slot i.callee (header own privateBase previous i))
      (fun s => (i.callee.privateSlot? s).all (· < room)) rest := by
  have hfits := h.fits
  have hsplit : privateSize (i :: rest) = i.callee.storageSize + privateSize rest := rfl
  have hlocals := h.locals
  have hbase := h.base
  have hroom := hgiven.fits
  refine ⟨h.length, h.cells, by omega, by omega, by omega, fun n hn s hs => ?_⟩
  cases hn
  rcases hslot : i.callee.privateSlot? s with _ | e
  · simp [hwithin s hs hslot]
  · rw [hprivate _ hgiven.length s e hslot, header_one]
    simp only [Option.all_some, decide_eq_true_eq]
    omega

/-- The header stands at the front of a record. -/
theorem Built.slot_header (h : Built f) (hown : own.length = f.headerSize) (hs : s < own.length)
    (hone : s ≠ 1) :
    s < f.fieldSize ∧ f.privateSlot? s = none ∧ slot f own s = own[s]?.getD 0 := by
  rcases f with b | c
  · rw [hown] at hs
    exact ⟨hs, if_neg hone, rfl⟩
  · have hsize := (wellComposed h).fieldSize
    obtain ⟨name, paramCount, localCount, body, fieldSize, storageSize⟩ := c
    have hown : own.length = 2 + paramCount := hown
    refine ⟨?_, ?_, by rw [slot, if_pos hs]⟩
    · simp only [Function.fieldSize] at hsize ⊢
      omega
    · rw [hown] at hs
      rw [Function.privateSlot?, if_pos hs, if_neg hone]

theorem Within.cells (h : Within size f own) (hf : Built f) (hown : own.length = f.headerSize) :
    ∀ cell ∈ own.eraseIdx 1, cell < size := by
  intro cell hcell
  obtain ⟨s, hone, hs⟩ := List.mem_eraseIdx_iff_getElem?.1 hcell
  obtain ⟨hthere, -⟩ := List.getElem?_eq_some_iff.1 hs
  obtain ⟨hfield, hprivate, hslot⟩ := hf.slot_header hown hthere hone
  have hlt := h s hfield hprivate
  rwa [hslot, hs] at hlt

theorem confinedIn_cons (i : Instruction Function) (rest : List (Instruction Function)) :
    confinedIn room allowed (i :: rest) =
      (i.operands.all (Operand.allowed allowed) && i.callee.confined room &&
        confinedIn (room - i.callee.storageSize)
          (fun s => (i.callee.privateSlot? s).all (· < room)) rest) := by
  obtain ⟨callee, operands, constants, jump⟩ := i
  rfl

theorem privateSlotIn?_cons (i : Instruction Function) (rest : List (Instruction Function)) :
    privateSlotIn? shift (i :: rest) s =
      if s < i.callee.fieldSize then (i.callee.privateSlot? s).map (shift + ·)
      else privateSlotIn? (shift + i.callee.storageSize) rest (s - i.callee.fieldSize) := by
  obtain ⟨callee, operands, constants, jump⟩ := i
  rfl

/-- The results and operands of the records of a body are among `size` cells. -/
def WithinIn (size shift privateBase : Nat) (own : List Nat) (previous : Nat → Nat)
    (body : List (Instruction Function)) : Prop :=
  ∀ s < segmentsSize body, privateSlotIn? shift body s = none →
    slotIn own privateBase previous body s < size

theorem withinIn_cons (i : Instruction Function) (rest : List (Instruction Function)) :
    WithinIn size shift privateBase own previous (i :: rest) ↔
      Within size i.callee (header own privateBase previous i) ∧
        WithinIn size (shift + i.callee.storageSize) (privateBase + i.callee.storageSize) own
          (slot i.callee (header own privateBase previous i)) rest := by
  have hsize : segmentsSize (i :: rest) = i.callee.fieldSize + segmentsSize rest := rfl
  constructor
  · intro h
    constructor
    · intro s hs hprivate
      have hlt := h s (by omega) (by rw [privateSlotIn?_cons, if_pos hs, hprivate]; rfl)
      rwa [slotIn_cons, if_pos hs] at hlt
    · intro s hs hprivate
      have hbehind : ¬ i.callee.fieldSize + s < i.callee.fieldSize := by omega
      have hlt := h (i.callee.fieldSize + s) (by omega) (by
        rwa [privateSlotIn?_cons, if_neg hbehind, Nat.add_sub_cancel_left])
      rwa [slotIn_cons, if_neg hbehind, Nat.add_sub_cancel_left] at hlt
  · rintro ⟨hfirst, hrest⟩ s hs hprivate
    rw [privateSlotIn?_cons] at hprivate
    rw [slotIn_cons]
    split
    · rename_i hlt
      rw [if_pos hlt, Option.map_eq_none_iff] at hprivate
      exact hfirst s hlt hprivate
    · rename_i hbehind
      rw [if_neg hbehind] at hprivate
      exact hrest _ (by omega) hprivate

theorem withinIn_iff (hbody : ∀ i ∈ body, Built i.callee ∧ Judged i.callee)
    (hchecks : Checks paramCount localCount length pc before body)
    (h : Stands size room privateBase own paramCount localCount before previous allowed body) :
    WithinIn size shift privateBase own previous body ↔ confinedIn room allowed body = true := by
  induction body generalizing pc before previous allowed room privateBase shift with
  | nil => exact ⟨fun _ => rfl, fun _ s hs => by simp [segmentsSize] at hs⟩
  | cons i rest ih =>
    obtain ⟨⟨hbuilt, hjudged⟩, hrest⟩ := List.forall_mem_cons.1 hbody
    have hlength := length_header hchecks.1 own privateBase previous
    have hgiven := h.given_iff hchecks.1
    rw [withinIn_cons, confinedIn_cons, Bool.and_eq_true, Bool.and_eq_true, ← hgiven, and_assoc]
    constructor
    · rintro ⟨hwithin, hbehind⟩
      have hcells : Given size room i.callee (header own privateBase previous i) :=
        ⟨hlength, by rw [header_one, h.base], (Nat.le_add_right _ _).trans h.fits,
          hwithin.cells hbuilt hlength⟩
      have hnext := h.next hbuilt.privateStarts hcells hwithin
      exact ⟨hcells, (hjudged _ _ _ hcells).1 hwithin, (ih hrest hchecks.2 hnext).1 hbehind⟩
    · rintro ⟨hcells, hconfined, hbehind⟩
      have hwithin := (hjudged _ _ _ hcells).2 hconfined
      have hnext := h.next hbuilt.privateStarts hcells hwithin
      exact ⟨hwithin, (ih hrest hchecks.2 hnext).2 hbehind⟩

theorem Given.stands {c : Composed} (h : Given size room (.composed c) own)
    (hc : WellComposed c) :
    Stands size (room - c.localCount) (own[1]?.getD 0 + c.localCount) own c.paramCount c.localCount
      none (fun _ => 0) (fun _ => true) c.body := by
  have hbase := h.base
  have hfits : c.storageSize ≤ room := h.fits
  have hstorage := hc.storageSize
  exact ⟨h.length, h.cells, le_rfl, by omega, by omega, by simp⟩

theorem confined_composed (c : Composed) :
    (Function.composed c).confined room =
      confinedIn (room - c.localCount) (fun _ => true) c.body := by
  obtain ⟨name, paramCount, localCount, body, fieldSize, storageSize⟩ := c
  rfl

theorem within_composed {c : Composed} (h : Given size room (.composed c) own)
    (hc : Built (.composed c)) :
    Within size (.composed c) own ↔
      WithinIn size c.localCount (own[1]?.getD 0 + c.localCount) own (fun _ => 0) c.body := by
  have hsize := (wellComposed hc).fieldSize
  have hown : own.length = 2 + c.paramCount := h.length
  obtain ⟨name, paramCount, localCount, body, fieldSize, storageSize⟩ := c
  simp only at hown hsize ⊢
  constructor
  · intro hwithin s hs hprivate
    have hbehind : ¬ own.length + s < own.length := by omega
    have hfield : own.length + s < fieldSize := by omega
    have hlt := hwithin (own.length + s) hfield (by
      rwa [Function.privateSlot?, ← hown, if_neg hbehind, Nat.add_sub_cancel_left])
    rwa [slot, if_neg hbehind, Nat.add_sub_cancel_left] at hlt
  · intro hwithin s hs hprivate
    have hfield : s < fieldSize := hs
    rw [slot]
    split
    · rename_i hthere
      refine cell_lt h.cells hthere ?_
      rintro rfl
      rw [Function.privateSlot?_one] at hprivate
      cases hprivate
    · rename_i hbehind
      rw [Function.privateSlot?, ← hown, if_neg hbehind] at hprivate
      exact hwithin _ (by omega) hprivate

theorem Built.judged (h : Built f) : Judged f := by
  induction h with
  | builtin b =>
    refine fun size room own hgiven => ⟨fun _ => rfl, fun _ s hs hprivate => ?_⟩
    refine cell_lt hgiven.cells (by rwa [hgiven.length]) ?_
    rintro rfl
    rw [Function.privateSlot?_one] at hprivate
    cases hprivate
  | @composed name localCount paramCount body c hbody hc ih =>
    intro size room own hgiven
    have hbuilt : Built (.composed c) := .composed hbody hc
    have hwell := wellComposed hbuilt
    have hstands := hgiven.stands hwell
    obtain ⟨-, rfl⟩ := compose_eq_ok hc
    rw [within_composed hgiven hbuilt, confined_composed]
    exact withinIn_iff (fun i hi => ⟨hbody i hi, ih i hi⟩) hwell.checks hstands

section Run

/-- In a confined function every call is given cells that are there, and calls a confined
function. -/
theorem given_headers (hbody : ∀ i ∈ body, Built i.callee)
    (hchecks : Checks paramCount localCount length pc before body)
    (h : Stands size room privateBase own paramCount localCount before previous allowed body)
    (hconfined : confinedIn room allowed body = true) {k : Nat} (hk : body[k]? = some i) :
    ∃ given, (headers own privateBase previous body)[k]? = some given ∧
      ∃ room, Given size room i.callee given ∧ i.callee.confined room = true := by
  induction body generalizing pc before previous allowed room privateBase k with
  | nil => simp at hk
  | cons first rest ih =>
    obtain ⟨hfirst, hrest⟩ := List.forall_mem_cons.1 hbody
    rw [confinedIn_cons, Bool.and_eq_true, Bool.and_eq_true, ← h.given_iff hchecks.1] at hconfined
    obtain ⟨⟨hgiven, hcallee⟩, hbehind⟩ := hconfined
    rcases k with _ | k
    · cases hk
      exact ⟨_, rfl, room, hgiven, hcallee⟩
    · have hwithin := (hfirst.judged _ _ _ hgiven).2 hcallee
      exact ih hrest hchecks.2 (h.next hfirst.privateStarts hgiven hwithin) hbehind hk

/-- A builtin works on cells among the first `size`. -/
structure Inside (size : Nat) (e : Builtin × Header) : Prop where
  result : e.2.result < size
  operands : ∀ cell ∈ e.2.operands, cell < size
  storage : e.1.storageSize ≠ 0 → e.2.storage < size

theorem Given.inside {b : Builtin} (h : Given size room (.builtin b) own) :
    Inside size (b, .ofList own) := by
  have hown : own.length = 2 + b.paramCount := h.length
  have hbase := h.base
  have hfits : b.storageSize ≤ room := h.fits
  refine ⟨cell_lt h.cells (by omega) (by decide), fun cell hcell => ?_, fun hstorage => ?_⟩
  · obtain ⟨s, hs, rfl⟩ := List.getElem_of_mem hcell
    refine h.cells _ (List.mem_eraseIdx_iff_getElem?.2 ⟨2 + s, by omega, ?_⟩)
    simp [Header.ofList]
  · have hstorage : b.storageSize ≠ 0 := hstorage
    simp only [Header.ofList]
    omega

/-- A frame of a confined function that has been given cells that are there. -/
structure Keeps (size : Nat) (g : Direct.Frame) : Prop where
  built : Built (.composed g.function)
  given : ∃ room, Given size room (.composed g.function) g.header ∧
    (Function.composed g.function).confined room = true

variable {g : Direct.Frame} {t : Direct.State}

theorem Keeps.callee (h : Keeps size g) (hi : g.function.body[g.pc]? = some i) :
    Built i.callee ∧
      ∃ room, Given size room i.callee g.calleeHeader ∧ i.callee.confined room = true := by
  obtain ⟨room, hgiven, hconfined⟩ := h.given
  have hwell := wellComposed h.built
  rw [confined_composed] at hconfined
  obtain ⟨given, hheader, hcallee⟩ :=
    given_headers hwell.built hwell.checks (hgiven.stands hwell) hconfined hi
  rw [Direct.Frame.calleeHeader, hheader, Option.getD_some]
  exact ⟨hwell.built i (List.mem_of_getElem? hi), hcallee⟩

theorem Keeps.moved (h : Keeps size g) (pc : Nat) : Keeps size { g with pc } :=
  ⟨h.built, h.given⟩

/-- One instruction leaves only frames of confined functions that have been given cells that are
there. -/
theorem keeps_step (h : ∀ g ∈ t.frames, Keeps size g) : ∀ g ∈ t.step.frames, Keeps size g := by
  obtain ⟨frames, memory⟩ := t
  rcases frames with _ | ⟨g, outer⟩
  · exact h
  · obtain ⟨hg, houter⟩ := List.forall_mem_cons.1 h
    unfold Direct.State.step
    rcases hi : g.function.body[g.pc]? with _ | i
    · simp only [hi]
      exact houter
    · obtain ⟨callee, operands, constants, jump⟩ := i
      obtain ⟨hbuilt, hcallee⟩ := hg.callee hi
      rcases callee with b | c
      · simp only [hi]
        rcases (b.run constants jump (.ofList g.calleeHeader) memory).1 with _ | _ | d | _
        · exact List.forall_mem_cons.2 ⟨hg.moved _, houter⟩
        · exact houter
        · exact List.forall_mem_cons.2 ⟨hg.moved _, houter⟩
        · exact List.forall_mem_cons.2 ⟨hg, houter⟩
      · simp only [hi]
        have hcaller := List.forall_mem_cons.2 ⟨hg.moved (g.pc + 1), houter⟩
        exact List.forall_mem_cons.2 ⟨⟨hbuilt, hcallee⟩, hcaller⟩

theorem inside_event? (h : ∀ g ∈ t.frames, Keeps size g) :
    ∀ e ∈ t.event?, Inside size e := by
  obtain ⟨frames, memory⟩ := t
  rcases frames with _ | ⟨g, outer⟩
  · simp [Direct.State.event?]
  · have hg := (List.forall_mem_cons.1 h).1
    unfold Direct.State.event?
    rcases hi : g.function.body[g.pc]? with _ | i
    · simp [hi]
    · obtain ⟨callee, operands, constants, jump⟩ := i
      obtain ⟨-, room, hgiven, -⟩ := hg.callee hi
      rcases callee with b | c
      · simp only [hi, Option.mem_some_iff]
        rintro e rfl
        exact hgiven.inside
      · simp [hi]

theorem inside_trace (h : ∀ g ∈ t.frames, Keeps size g) (n : Nat) :
    ∀ e ∈ trace Direct.State.step Direct.State.event? n t, Inside size e := by
  induction n generalizing t with
  | zero => simp [trace]
  | succ n ih =>
    rw [trace]
    intro e he
    rcases List.mem_append.1 he with he | he
    · exact inside_event? h e (Option.mem_toList.1 he)
    · exact ih (keeps_step h) e he

end Run

theorem given_header {c : Composed} :
    Given (1 + c.paramCount + c.storageSize) c.storageSize (.composed c)
      (Activation.header (.composed c)) := by
  refine ⟨by simp [Activation.header, Function.headerSize]; omega, rfl, le_rfl, ?_⟩
  intro cell hcell
  simp only [Activation.header, List.eraseIdx_cons_succ, List.eraseIdx_cons_zero, List.mem_cons,
    List.mem_map, List.mem_range, Function.paramCount] at hcell
  omega

/-- In an activation of a composed function, all results and operands that the index field holds
name cells of the working array exactly if the function is confined; and then no builtin of any run
works on a cell outside. -/
theorem slot_lt_iff_confined {c : Composed} (hc : Built (.composed c)) (constants : List Float) :
    let a := Activation.build (.composed c) constants
    ((∀ s < c.fieldSize, (Function.composed c).privateSlot? s = none →
          a.call.slot s < a.workingArray.size) ↔
        (Function.composed c).confined c.storageSize = true) ∧
      ((Function.composed c).confined c.storageSize = true →
        ∀ memory n, ∀ e ∈ trace (State.step a.call.field) (State.event? a.call.field) n
          ⟨[Frame.enter c 0], memory⟩, Inside a.workingArray.size e) := by
  intro a
  have hsize : a.workingArray.size = 1 + c.paramCount + c.storageSize := Array.size_replicate
  have hgiven := @given_header c
  have hslot : ∀ s, a.call.slot s = slot (.composed c) (Activation.header (.composed c)) s := by
    intro s
    rw [(hc.rows _ hgiven.length).2 s]
    simp [a, Call.slot, Activation.build]
  rw [hsize]
  constructor
  · rw [← hc.judged _ _ _ hgiven]
    simp only [hslot]
    rfl
  · intro hconfined memory n e he
    have hstart := @tracks_enter a.call.field c _ hc hgiven.length rfl memory
    rw [hstart.trace] at he
    refine inside_trace (List.forall_mem_singleton.2 ?_) n e he
    exact ⟨hc, _, hgiven, hconfined⟩

theorem slot_lt_again :
    Built (.composed again) ∧ (Function.composed again).confined again.storageSize = true ∧
      ∀ s < again.fieldSize, (Function.composed again).privateSlot? s = none →
        (Activation.build (.composed again) []).call.slot s <
          (Activation.build (.composed again) []).workingArray.size := by
  have hconfined : (Function.composed again).confined again.storageSize = true := by decide
  exact ⟨built_again, hconfined, (slot_lt_iff_confined built_again []).1.2 hconfined⟩

/-- Copies its parameter, and then what the private start of that copy names. -/
def past : Composed :=
  ⟨"past", 1, 0, [⟨.builtin (.unary .mov), [.caller 0, .caller 2], [], none⟩,
    ⟨.builtin (.unary .mov), [.caller 0, .previous 1], [], none⟩], 9, 0⟩

/-- It is composed, and reads behind the end of its working array. -/
theorem past_reads_outside :
    compose "past" 0 1 past.body = .ok past ∧
      (Function.composed past).privateSlot? 8 = none ∧
      ¬ (Activation.build (.composed past) []).call.slot 8 <
        (Activation.build (.composed past) []).workingArray.size ∧
      trace (State.step (Activation.build (.composed past) []).call.field)
          (State.event? (Activation.build (.composed past) []).call.field) 2
          ⟨[Frame.enter past 0], ⟨#[0, 3], {}⟩⟩ =
        [(.unary .mov, ⟨0, 2, [1]⟩), (.unary .mov, ⟨0, 2, [2]⟩)] := by
  refine ⟨rfl, rfl, ?_, by decide⟩
  decide

end Behavioral
