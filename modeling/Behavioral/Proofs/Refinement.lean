import Behavioral.Proofs.Composed
import Behavioral.Proofs.Direct

/-!
# The index field and the direct interpreter

The index field holds the records of all instructions behind one another (`layoutBody_cons`), each where
the sizes of those before it say (`layoutBody_split`). So a frame over the index field and a frame
that only keeps its header run the same builtins on the same cells: they are at the same
instruction, and the segment there is the record of that instruction (`Runs`). A jump moves the
segment by the sizes that it passes, and stays in the body because composing has checked it.
-/

namespace Behavioral

open Behavioral.Composition Direct

variable {f : Function} {own : List Nat} {i : Instruction Function}
  {body : List (Instruction Function)} {paramCount localCount length pc : Nat}
  {before : Option Nat}

theorem length_headerOffsets {privateStart : Nat} {operands : List Nat} (h : operands ≠ []) :
    (headerOffsets privateStart operands).length = operands.length + 1 := by
  obtain ⟨result, rest, rfl⟩ := List.exists_cons_of_ne_nil h
  rfl

theorem length_header (h : i.Checked paramCount localCount length pc before) (own : List Nat)
    (privateBase : Nat) (previous : Nat → Nat) :
    (header own privateBase previous i).length = i.callee.headerSize := by
  have harity := h.arity
  rw [header, length_headerOffsets, List.length_map, Function.headerSize]
  · omega
  · rw [ne_eq, List.map_eq_nil_iff]
    rintro hnil
    rw [hnil] at harity
    simp at harity
    omega

/-- The layout of a function is the row of its record's slots. -/
def Rows (f : Function) : Prop :=
  ∀ own, own.length = f.headerSize → (f.layout own).length = f.fieldSize ∧
    ∀ s, slot f own s = (f.layout own)[s]?.getD 0

theorem offset_eq {segment : List Nat} {previous : Nat → Nat}
    (h : ∀ s, previous s = segment[s]?.getD 0) (o : Operand) :
    o.offset own (own[1]?.getD 0) segment = resolve own previous o := by
  cases o with
  | caller slot => rfl
  | localCell index => rfl
  | previous slot => exact (h slot).symm

theorem layout_composed (c : Composed) (own : List Nat) :
    (Function.composed c).layout own =
      own ++ layoutBody c.body own (own[1]?.getD 0) (own[1]?.getD 0 + c.localCount) [] := by
  obtain ⟨name, paramCount, localCount, body, fieldSize, storageSize⟩ := c
  rfl

/-- A body is laid out one callee behind the other. -/
theorem layoutBody_cons {segment : List Nat} {previous : Nat → Nat} (privateBase : Nat)
    (h : ∀ s, previous s = segment[s]?.getD 0) (i : Instruction Function)
    (rest : List (Instruction Function)) :
    layoutBody (i :: rest) own (own[1]?.getD 0) privateBase segment =
      i.callee.layout (header own privateBase previous i) ++
        layoutBody rest own (own[1]?.getD 0) (privateBase + i.callee.storageSize)
          (i.callee.layout (header own privateBase previous i)) := by
  obtain ⟨callee, operands, constants, jump⟩ := i
  rw [layoutBody, header]
  simp only [offset_eq h]

theorem slotIn_cons {privateBase : Nat} {previous : Nat → Nat} (i : Instruction Function)
    (rest : List (Instruction Function)) (s : Nat) :
    slotIn own privateBase previous (i :: rest) s =
      if s < i.callee.fieldSize then slot i.callee (header own privateBase previous i) s
      else slotIn own (privateBase + i.callee.storageSize)
        (slot i.callee (header own privateBase previous i)) rest (s - i.callee.fieldSize) := by
  obtain ⟨callee, operands, constants, jump⟩ := i
  rw [slotIn, header]

/-- The layout of a body is the row of its records' slots. -/
theorem rows_body (hbody : ∀ i ∈ body, Rows i.callee)
    (hchecks : Checks paramCount localCount length pc before body) (own : List Nat)
    {segment : List Nat} {previous : Nat → Nat} (privateBase : Nat)
    (h : ∀ s, previous s = segment[s]?.getD 0) :
    (layoutBody body own (own[1]?.getD 0) privateBase segment).length = segmentsSize body ∧
      ∀ s, slotIn own privateBase previous body s =
        (layoutBody body own (own[1]?.getD 0) privateBase segment)[s]?.getD 0 := by
  induction body generalizing pc before segment previous privateBase with
  | nil => exact ⟨rfl, fun s => by simp [slotIn, layoutBody]⟩
  | cons i rest ih =>
    obtain ⟨hi, hrest⟩ := List.forall_mem_cons.1 hbody
    obtain ⟨hlength, hslot⟩ := hi _ (length_header hchecks.1 own privateBase previous)
    obtain ⟨hlength', hslot'⟩ := ih hrest hchecks.2 (privateBase + i.callee.storageSize) hslot
    rw [layoutBody_cons privateBase h]
    refine ⟨by rw [List.length_append, hlength, hlength']; rfl, fun s => ?_⟩
    rw [slotIn_cons]
    split
    · rename_i hs
      rw [List.getElem?_append_left (by omega), hslot]
    · rename_i hs
      rw [List.getElem?_append_right (by omega), hslot', hlength]

theorem Built.rows (h : Built f) : Rows f := by
  induction h with
  | builtin b => exact fun own hown => ⟨hown, fun s => rfl⟩
  | @composed name localCount paramCount body c hbody hc ih =>
    obtain ⟨hchecks, rfl⟩ := compose_eq_ok hc
    intro own hown
    have hown : own.length = 2 + paramCount := hown
    obtain ⟨hlength, hslot⟩ := @rows_body body paramCount localCount _ _ _ ih hchecks own []
      (fun _ => 0) (own[1]?.getD 0 + localCount) (fun s => rfl)
    refine ⟨by rw [Function.layout, List.length_append, hlength, hown]; rfl, fun s => ?_⟩
    rw [slot, Function.layout]
    split
    · rename_i hs
      rw [List.getElem?_append_left hs]
    · rename_i hs
      rw [List.getElem?_append_right (by omega), hslot]

/-- The record of an instruction stands behind those of the instructions before it. -/
theorem layoutBody_split (hbody : ∀ i ∈ body, Rows i.callee)
    (hchecks : Checks paramCount localCount length pc before body) (own : List Nat)
    {segment : List Nat} {previous : Nat → Nat} (privateBase : Nat)
    (h : ∀ s, previous s = segment[s]?.getD 0) {k : Nat} (hk : body[k]? = some i) :
    ∃ given front back, (headers own privateBase previous body)[k]? = some given ∧
      given.length = i.callee.headerSize ∧
      layoutBody body own (own[1]?.getD 0) privateBase segment =
        front ++ (i.callee.layout given ++ back) ∧
      front.length = segmentsSize (body.take k) := by
  induction body generalizing pc before segment previous privateBase k with
  | nil => simp at hk
  | cons first rest ih =>
    obtain ⟨hfirst, hrest⟩ := List.forall_mem_cons.1 hbody
    have hheader := length_header hchecks.1 own privateBase previous
    obtain ⟨hlength, hslot⟩ := hfirst _ hheader
    rw [layoutBody_cons privateBase h]
    rcases k with _ | k
    · cases hk
      exact ⟨_, [], _, rfl, hheader, rfl, rfl⟩
    · obtain ⟨given, front, back, hgiven, hsize, hfront, hcount⟩ :=
        ih hrest hchecks.2 (privateBase + first.callee.storageSize) hslot hk
      refine ⟨given, first.callee.layout (header own privateBase previous first) ++ front, back,
        hgiven, hsize, by rw [hfront, List.append_assoc], ?_⟩
      rw [List.length_append, hlength, hcount]
      rfl

/-- The index field holds a row of offsets at a place. -/
def Holds (field : Array Nat) (origin : Nat) (row : List Nat) : Prop :=
  ∃ front back, field.toList = front ++ (row ++ back) ∧ front.length = origin

section Field

variable {field : Array Nat} {origin : Nat}

theorem Holds.within {front row back : List Nat} (h : Holds field origin (front ++ (row ++ back))) :
    Holds field (origin + front.length) row := by
  obtain ⟨ahead, behind, hfield, hahead⟩ := h
  refine ⟨ahead ++ front, back ++ behind, ?_, by rw [List.length_append, hahead]⟩
  rw [hfield]
  simp only [List.append_assoc]

theorem headerAt_of_holds {row : List Nat} (h : Holds field origin row) :
    headerAt field origin row.length = Header.ofList row := by
  obtain ⟨ahead, behind, hfield, hahead⟩ := h
  rw [headerAt, Array.toList_extract, hfield, List.extract_eq_take_drop, ← hahead]
  simp

theorem segmentsSize_append (front back : List (Instruction Function)) :
    segmentsSize (front ++ back) = segmentsSize front + segmentsSize back := by
  induction front with
  | nil => simp [segmentsSize]
  | cons i rest ih =>
    have h : ∀ body, segmentsSize (i :: body) = i.callee.fieldSize + segmentsSize body :=
      fun _ => rfl
    rw [List.cons_append, h, h, ih]
    omega

theorem segmentsSize_take_add (body : List (Instruction Function)) (pc k : Nat) :
    segmentsSize (body.take (pc + k)) =
      segmentsSize (body.take pc) + segmentsSize ((body.drop pc).take k) := by
  rw [List.take_add, segmentsSize_append]

end Field

namespace Frame

variable {c : Composed} {origin : Nat}

/-- A frame whose segment stands behind those of the instructions before it. -/
def reached (c : Composed) (origin pc : Nat) : Behavioral.Frame :=
  ⟨c, origin, pc, origin + (2 + c.paramCount) + segmentsSize (c.body.take pc)⟩

theorem advance_reached (hi : c.body[pc]? = some i) :
    (reached c origin pc).advance i.callee.fieldSize = reached c origin (pc + 1) := by
  have hnext : segmentsSize ((c.body.drop pc).take 1) = i.callee.fieldSize := by
    rw [List.getElem?_eq_some_iff] at hi
    obtain ⟨hpc, rfl⟩ := hi
    rw [List.drop_eq_getElem_cons hpc]
    rfl
  have hsizes := segmentsSize_take_add c.body pc 1
  rw [hnext] at hsizes
  simp only [advance, reached, hsizes, Nat.add_assoc]

/-- A jump, either way, ends at the segment of its target. -/
theorem jump_reached (displacement : Int) :
    (reached c origin pc).jump displacement =
      reached c origin ((pc : Int) + displacement).toNat := by
  unfold jump reached
  simp only
  generalize ((pc : Int) + displacement).toNat = target
  split
  · rename_i hforward
    obtain ⟨k, rfl⟩ := Nat.exists_eq_add_of_lt hforward
    have hsizes := segmentsSize_take_add c.body pc (k + 1)
    rw [Nat.add_assoc pc, Nat.add_sub_cancel_left, hsizes, Nat.add_assoc (origin + _)]
  · rename_i hback
    obtain ⟨k, rfl⟩ := Nat.exists_eq_add_of_le (Nat.le_of_not_lt hback)
    have hsizes := segmentsSize_take_add c.body target k
    rw [Nat.add_sub_cancel_left, hsizes, ← Nat.add_assoc (origin + _), Nat.add_sub_cancel]

end Frame

/-- A table writes the value that it has for its operand, or has none and is stuck. -/
theorem Builtin.run_table (constants : List Float) (jump : Option Int) (h : Header) (m : Memory) :
    (∃ value, table.run constants jump h m = (.next, m.write h.result value)) ∨
      table.run constants jump h m = (.stuck, m) := by
  simp only [run]
  split
  · exact .inl ⟨_, rfl⟩
  · exact .inr rfl

/-- Only the displacement of its instruction is one that a builtin jumps by. -/
theorem Builtin.jump_eq_of_run {b : Builtin} {constants : List Float} {jump : Option Int}
    {h : Header} {m : Memory} {displacement : Int}
    (hrun : (b.run constants jump h m).1 = .jump displacement) : jump = some displacement := by
  have hbranch : ∀ taken, branch jump taken = .jump displacement → jump = some displacement := by
    rintro taken htaken
    rcases jump with _ | d <;> simp only [branch, reduceCtorEq] at htaken
    split at htaken
    · cases htaken
      rfl
    · cases htaken
  by_cases htable : b = .table
  · subst htable
    rcases run_table constants jump h m with ⟨value, hvalue⟩ | hstuck
    · rw [hvalue] at hrun
      cases hrun
    · rw [hstuck] at hrun
      cases hrun
  cases b <;> simp only [run, reduceCtorEq, apply_ite Prod.fst, ite_self, not_true] at hrun htable
  case jump => exact hbranch _ hrun
  case jumpIf => exact hbranch _ hrun
  case jumpIfZero => exact hbranch _ hrun

section Tracking

variable {field : Array Nat} {s : State} {t : Direct.State} {f : Behavioral.Frame}
  {g : Direct.Frame}

/-- A frame over the index field is at the instruction of a frame that keeps its header, and the
index field holds the record of their function. -/
structure Runs (field : Array Nat) (f : Behavioral.Frame) (g : Direct.Frame) : Prop where
  built : Built (.composed g.function)
  given : g.header.length = 2 + g.function.paramCount
  place : f = Frame.reached g.function f.origin g.pc
  held : Holds field f.origin ((Function.composed g.function).layout g.header)

structure Tracks (field : Array Nat) (s : State) (t : Direct.State) : Prop where
  frames : List.Forall₂ (Runs field) s.frames t.frames
  memory : s.memory = t.memory

/-- The segment of the instruction that a frame is at is the record for the header that the
instruction is given. -/
theorem Runs.callee (h : Runs field f g) (hi : g.function.body[g.pc]? = some i) :
    Built i.callee ∧ (∀ d, i.jump = some d → d ≠ 0) ∧
      g.calleeHeader.length = i.callee.headerSize ∧
      Holds field f.base (i.callee.layout g.calleeHeader) := by
  have hc := wellComposed h.built
  obtain ⟨before, hchecked⟩ := hc.checks.get hi
  have hrows : ∀ j ∈ g.function.body, Rows j.callee := fun j hj => (hc.built j hj).rows
  have hfirst : ∀ s : Nat, (fun _ => 0) s = ([] : List Nat)[s]?.getD 0 := fun s => by simp
  obtain ⟨given, front, back, hheader, hsize, hlayout, hfront⟩ :=
    layoutBody_split hrows hc.checks g.header (g.header[1]?.getD 0 + g.function.localCount)
      hfirst hi
  have hcallee : g.calleeHeader = given := by
    rw [Direct.Frame.calleeHeader, hheader, Option.getD_some]
  have hbase : f.base = f.origin + (g.header ++ front).length := by
    rw [List.length_append, h.given, hfront, ← Nat.add_assoc]
    exact congrArg Frame.base h.place
  have hheld := h.held
  rw [layout_composed, hlayout, ← List.append_assoc] at hheld
  rw [hcallee, hbase]
  exact ⟨hc.built i (List.mem_of_getElem? hi), fun d hd => (hchecked.jump d hd).1, hsize,
    hheld.within⟩

/-- The two frames go to the same instruction, whichever it is. -/
theorem Runs.moved (h : Runs field f g) (pc : Nat) :
    Runs field (Frame.reached g.function f.origin pc) { g with pc } :=
  ⟨h.built, h.given, rfl, h.held⟩

theorem Runs.follow (h : Runs field f g) (hi : g.function.body[g.pc]? = some i)
    {control : Control} (hjump : ∀ d, control = .jump d → d ≠ 0)
    {outer : List Behavioral.Frame} {outer' : List Direct.Frame}
    (houter : List.Forall₂ (Runs field) outer outer') :
    List.Forall₂ (Runs field) (f.follow i.callee.fieldSize outer control)
      (g.follow outer' control) := by
  have hplace := h.place
  rcases control with _ | _ | d | _
  · rw [Frame.follow, Direct.Frame.follow, hplace, Frame.advance_reached hi]
    exact .cons (h.moved _) houter
  · exact houter
  · rw [Frame.follow, Direct.Frame.follow, if_neg (hjump d rfl), hplace, Frame.jump_reached]
    exact .cons (h.moved _) houter
  · exact .cons h houter

theorem Runs.enter (h : Runs field f g) (hi : g.function.body[g.pc]? = some i) {c : Composed}
    (hc : i.callee = .composed c) :
    Runs field (Frame.enter c f.base) ⟨c, g.calleeHeader, 0⟩ := by
  obtain ⟨hbuilt, -, hsize, hheld⟩ := h.callee hi
  rw [hc] at hbuilt hsize hheld
  exact ⟨hbuilt, hsize, rfl, hheld⟩

/-- A builtin finds in its segment the header that it is given. -/
theorem Runs.headerAt (h : Runs field f g) (hi : g.function.body[g.pc]? = some i) {b : Builtin}
    (hb : i.callee = .builtin b) :
    Behavioral.headerAt field f.base b.fieldSize = .ofList g.calleeHeader := by
  obtain ⟨-, -, hsize, hheld⟩ := h.callee hi
  rw [hb] at hsize hheld
  rw [Function.layout] at hheld
  rw [← headerAt_of_holds hheld, hsize]
  rfl

/-- One instruction keeps the two runs together. -/
theorem Tracks.step (h : Tracks field s t) : Tracks field (s.step field) t.step := by
  obtain ⟨frames, memory⟩ := s
  obtain ⟨frames', memory'⟩ := t
  obtain ⟨hframes, rfl⟩ := h
  rcases hframes with _ | @⟨f, g, outer, outer', hrun, houter⟩
  · exact ⟨.nil, rfl⟩
  · have hfunction : f.function = g.function := congrArg Behavioral.Frame.function hrun.place
    have hpc : f.pc = g.pc := congrArg Behavioral.Frame.pc hrun.place
    unfold State.step Direct.State.step
    simp only [hfunction, hpc]
    rcases hi : g.function.body[g.pc]? with _ | i
    · exact ⟨houter, rfl⟩
    · obtain ⟨callee, operands, constants, jump⟩ := i
      rcases callee with b | c
      · have hheader := hrun.headerAt hi rfl
        have hjump : ∀ d, (b.run constants jump (.ofList g.calleeHeader) memory).1 = .jump d →
            d ≠ 0 := fun d hd => (hrun.callee hi).2.1 d (Builtin.jump_eq_of_run hd)
        simp only [hheader]
        exact ⟨hrun.follow hi hjump houter, rfl⟩
      · simp only
        have hnext : ∀ d, Control.next = .jump d → d ≠ 0 := by simp
        exact ⟨.cons (hrun.enter hi rfl) (hrun.follow hi hnext houter), rfl⟩

theorem Tracks.event? (h : Tracks field s t) : s.event? field = t.event? := by
  obtain ⟨frames, memory⟩ := s
  obtain ⟨frames', memory'⟩ := t
  obtain ⟨hframes, rfl⟩ := h
  rcases hframes with _ | @⟨f, g, outer, outer', hrun, houter⟩
  · rfl
  · have hfunction : f.function = g.function := congrArg Behavioral.Frame.function hrun.place
    have hpc : f.pc = g.pc := congrArg Behavioral.Frame.pc hrun.place
    unfold State.event? Direct.State.event?
    simp only [hfunction, hpc]
    rcases hi : g.function.body[g.pc]? with _ | i
    · rfl
    · obtain ⟨callee, operands, constants, jump⟩ := i
      rcases callee with b | c
      · simp only [hrun.headerAt hi rfl]
      · rfl

/-- A run that has no frame left stays where it is. -/
theorem State.run_succ (field : Array Nat) (n : Nat) (s : State) :
    s.run field (n + 1) = (s.step field).run field n := by
  rw [State.run]
  split
  · rename_i hframes
    have hstep : s.step field = s := by
      rw [State.step, List.isEmpty_iff.1 hframes]
    rcases n with _ | n
    · exact hstep.symm
    · rw [State.run, hstep, if_pos hframes]
  · rfl

theorem Tracks.run (h : Tracks field s t) (n : Nat) :
    Tracks field (s.run field n) (t.run n) := by
  induction n generalizing s t with
  | zero => exact h
  | succ n ih =>
    rw [State.run_succ, Direct.State.run]
    exact ih h.step

theorem Tracks.trace (h : Tracks field s t) (n : Nat) :
    trace (State.step field) (State.event? field) n s =
      trace Direct.State.step Direct.State.event? n t := by
  induction n generalizing s t with
  | zero => rfl
  | succ n ih => rw [Behavioral.trace, Behavioral.trace, h.event?, ih h.step]

/-- A function entered over the index field and one that is given the header run together. -/
theorem tracks_enter {c : Composed} {own : List Nat} (hc : Built (.composed c))
    (hown : own.length = 2 + c.paramCount)
    (hfield : field.toList = (Function.composed c).layout own) (memory : Memory) :
    Tracks field ⟨[Frame.enter c 0], memory⟩ ⟨[⟨c, own, 0⟩], memory⟩ := by
  have hheld : Holds field 0 ((Function.composed c).layout own) := ⟨[], [], by simp [hfield], rfl⟩
  exact ⟨.cons ⟨hc, hown, rfl, hheld⟩ .nil, rfl⟩

end Tracking

/-- Evaluating a composed function over its index field does what running it without one does: the
same builtins on the same cells, one after the other, and the same memory after any number of steps,
with as many functions left. -/
theorem run_layout {c : Composed} (hc : Built (.composed c)) {own : List Nat}
    (hown : own.length = 2 + c.paramCount) (memory : Memory) :
    let field := ((Function.composed c).layout own).toArray
    let start : State := ⟨[Frame.enter c 0], memory⟩
    let direct : Direct.State := ⟨[⟨c, own, 0⟩], memory⟩
    (∀ n, trace (State.step field) (State.event? field) n start =
          trace Direct.State.step Direct.State.event? n direct ∧
        (start.run field n).memory = (direct.run n).memory ∧
        (start.run field n).frames.length = (direct.run n).frames.length) ∧
      ∀ constants jump, (Function.composed c).evaluate field constants jump memory =
        (if (direct.run Function.stepLimit).frames.isEmpty then .next else .stuck,
          (direct.run Function.stepLimit).memory) := by
  intro field start direct
  have hstart : Tracks field start direct := tracks_enter hc hown rfl memory
  refine ⟨fun n => ⟨hstart.trace n, (hstart.run n).memory, (hstart.run n).frames.length_eq⟩, ?_⟩
  intro constants jump
  have hend := hstart.run Function.stepLimit
  have hleft : (start.run field Function.stepLimit).frames.isEmpty =
      (direct.run Function.stepLimit).frames.isEmpty := by
    rw [Bool.eq_iff_iff, List.isEmpty_iff_length_eq_zero, List.isEmpty_iff_length_eq_zero,
      hend.frames.length_eq]
  rw [← hleft, ← hend.memory]
  rfl

/-- Doubles its parameter. -/
def twice : Composed :=
  ⟨"twice", 1, 0, [⟨.builtin (.binary .add), [.caller 0, .caller 2, .caller 2], [], none⟩], 7, 0⟩

/-- Calls `twice`, takes the sum out of its record, and goes back over the call. -/
def again : Composed :=
  ⟨"again", 1, 0, [⟨.composed twice, [.caller 0, .caller 2], [], none⟩,
    ⟨.builtin (.unary .mov), [.caller 2, .previous 3], [], none⟩,
    ⟨.builtin .jump, [.caller 0], [], some (-2)⟩], 15, 0⟩

theorem built_again : Built (.composed again) := by
  have hadd : ∀ i ∈ twice.body, Built i.callee := by
    simp [twice, Built.builtin]
  have htwice : Built (.composed twice) := @Built.composed "twice" 0 1 twice.body twice hadd rfl
  have hbody : ∀ i ∈ again.body, Built i.callee := by
    simp [again, htwice, Built.builtin]
  exact @Built.composed "again" 0 1 again.body again hbody rfl

theorem run_layout_again :
    let field := ((Function.composed again).layout [0, 2, 1]).toArray
    let start : State := ⟨[Frame.enter again 0], ⟨#[0, 3], {}⟩⟩
    let direct : Direct.State := ⟨[⟨again, [0, 2, 1], 0⟩], ⟨#[0, 3], {}⟩⟩
    Built (.composed again) ∧ [0, 2, 1].length = 2 + again.paramCount ∧
      trace (State.step field) (State.event? field) 7 start =
        trace Direct.State.step Direct.State.event? 7 direct ∧
      (start.run field 7).memory = (direct.run 7).memory ∧
      trace Direct.State.step Direct.State.event? 7 direct =
        [(.binary .add, ⟨0, 2, [1, 1]⟩), (.unary .mov, ⟨1, 2, [0]⟩), (.jump, ⟨0, 2, []⟩),
          (.binary .add, ⟨0, 2, [1, 1]⟩)] := by
  intro field start direct
  have hown : [0, 2, 1].length = 2 + again.paramCount := rfl
  have hrun := (run_layout built_again hown ⟨#[0, 3], {}⟩).1 7
  exact ⟨built_again, hown, hrun.1, hrun.2.1, by decide⟩

end Behavioral
