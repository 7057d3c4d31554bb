import Behavioral.Proofs.Refinement

/-!
# What a builtin reads and writes

A builtin works on the cells of its header, and which of them it reads and writes is told by its
kind alone (`Builtin.reads`, `Builtin.writes`). What it does not write stays as it was
(`read_run_of_notMem`). Two memories that hold the same in the cells that it reads, of which one may
keep them in other places, send it the same way and hold the same in what it has written
(`Matched.run`).
-/

namespace Behavioral

namespace Memory

variable {m : Memory} {cell other : Nat} {value : Float}

@[simp]
theorem size_write : (m.write cell value).cells.size = m.cells.size :=
  Array.size_setIfInBounds

@[simp]
theorem read_setNode {node : Nat} : (m.setNode node value).read cell = m.read cell :=
  rfl

@[simp]
theorem size_setNode {node : Nat} : (m.setNode node value).cells.size = m.cells.size :=
  rfl

theorem read_write_of_ne (h : cell ≠ other) : (m.write cell value).read other = m.read other := by
  simp [read, write, Array.getElem?_setIfInBounds_ne h]

theorem read_write_self (h : cell < m.cells.size) : (m.write cell value).read cell = value := by
  simp [read, write, h]

theorem read_of_size_le (h : m.cells.size ≤ cell) : m.read cell = 0 := by
  simp [read, Array.getElem?_eq_none h]

/-- Memories of one size that hold the same are the same. -/
theorem eq_of_read {m m' : Memory} (hsize : m.cells.size = m'.cells.size)
    (hcontext : m.context = m'.context)
    (hread : ∀ cell < m.cells.size, m.read cell = m'.read cell) : m = m' := by
  obtain ⟨cells, context⟩ := m
  obtain ⟨cells', context'⟩ := m'
  obtain rfl : context = context' := hcontext
  congr 1
  refine Array.ext hsize fun cell hcell hcell' => ?_
  simpa [read, hcell, hcell'] using hread cell hcell

end Memory

/-- The header with its cells in other places. -/
def Header.map (place : Nat → Nat) (h : Header) : Header :=
  ⟨place h.result, place h.storage, h.operands.map place⟩

theorem Header.ofList_map {place : Nat → Nat} {own : List Nat} (h : 2 ≤ own.length) :
    Header.ofList (own.map place) = (Header.ofList own).map place := by
  obtain _ | ⟨result, _ | ⟨storage, operands⟩⟩ := own
  · simp at h
  · simp at h
  · rfl

namespace Builtin

/-- The cells that a builtin reads. A store that is not made keeps its result, which counts. -/
def reads : Builtin → Header → List Nat
  | storeIf _, h => h.result :: h.operands
  | last, h => h.storage :: h.operands
  | _, h => h.operands

/-- The cells that a builtin may write. -/
def writes (b : Builtin) (h : Header) : List Nat :=
  (if b.writesResult then [h.result] else []) ++ if b.storageSize = 0 then [] else [h.storage]

variable {b : Builtin} {constants : List Float} {jump : Option Int} {h : Header} {m : Memory}

theorem writes_map (place : Nat → Nat) : b.writes (h.map place) = (b.writes h).map place := by
  rw [writes, writes, List.map_append, apply_ite (List.map place), apply_ite (List.map place)]
  rfl

/-- Without an answer nothing happens. -/
theorem run_stuck (hstuck : (b.run constants jump h m).1 = .stuck) :
    (b.run constants jump h m).2 = m := by
  have hbranch : ∀ taken, branch jump taken ≠ .stuck := by
    rintro (_ | _) <;> rcases jump with _ | d <;> simp [branch]
  by_cases htable : b = .table
  · subst htable
    rcases run_table constants jump h m with ⟨value, hvalue⟩ | hnone
    · rw [hvalue] at hstuck
      cases hstuck
    · rw [hnone]
  cases b <;>
    simp only [run, reduceCtorEq, apply_ite Prod.fst, ite_self, hbranch, not_true] at hstuck htable

theorem size_run : (b.run constants jump h m).2.cells.size = m.cells.size := by
  cases b
  case table =>
    rcases run_table constants jump h m with ⟨value, hvalue⟩ | hstuck
    · rw [hvalue, Memory.size_write]
    · rw [hstuck]
  all_goals
    simp only [run, Memory.size_write, Memory.size_setNode, apply_ite Prod.snd,
      apply_ite Memory.cells, apply_ite Array.size, ite_self]

/-- What a builtin does not write stays as it was. -/
theorem read_run_of_notMem {cell : Nat} (hcell : cell ∉ b.writes h) :
    (b.run constants jump h m).2.read cell = m.read cell := by
  cases b <;>
    simp only [writes, writesResult, storageSize, reduceIte, Bool.false_eq_true, List.append_nil,
      List.nil_append, List.cons_append, Nat.one_ne_zero, List.mem_cons, List.not_mem_nil, or_false,
      not_or] at hcell
  case table =>
    rcases run_table constants jump h m with ⟨value, hvalue⟩ | hstuck
    · rw [hvalue]
      exact Memory.read_write_of_ne (Ne.symm hcell)
    · rw [hstuck]
  all_goals simp only [run, Memory.read_setNode]
  case storeIf r =>
    split_ifs
    · exact Memory.read_write_of_ne (Ne.symm hcell)
    · rfl
  case last =>
    rw [Memory.read_write_of_ne (Ne.symm hcell.1), Memory.read_write_of_ne (Ne.symm hcell.2)]
  all_goals exact Memory.read_write_of_ne (Ne.symm hcell)

end Builtin

/-- The memory `m'` keeps the known cells of `m` in their places, and the same simulation. -/
structure Matched (place : Nat → Nat) (known : Set Nat) (m m' : Memory) : Prop where
  context : m'.context = m.context
  cells : ∀ cell ∈ known, m'.read (place cell) = m.read cell

namespace Matched

variable {place : Nat → Nat} {known : Set Nat} {m m' : Memory}

theorem mono {fewer : Set Nat} (h : Matched place known m m') (hfewer : fewer ⊆ known) :
    Matched place fewer m m' :=
  ⟨h.context, fun cell hcell => h.cells cell (hfewer hcell)⟩

/-- Writing a cell makes it known. -/
theorem write {cell : Nat} (value : Float) (h : Matched place known m m')
    (hplace : Set.InjOn place (insert cell known))
    (hsize : cell < m.cells.size ↔ place cell < m'.cells.size) :
    Matched place (insert cell known) (m.write cell value) (m'.write (place cell) value) := by
  have hwritten :
      (m'.write (place cell) value).read (place cell) = (m.write cell value).read cell := by
    by_cases hcell : cell < m.cells.size
    · rw [Memory.read_write_self hcell, Memory.read_write_self (hsize.1 hcell)]
    · have hcell' : ¬ place cell < m'.cells.size := mt hsize.2 hcell
      rw [Memory.read_of_size_le (by simpa using hcell'),
        Memory.read_of_size_le (by simpa using hcell)]
  refine ⟨h.context, fun other hother => ?_⟩
  by_cases heq : other = cell
  · rw [heq, hwritten]
  · have hknown : other ∈ known := Set.mem_of_mem_insert_of_ne hother heq
    have hapart : place cell ≠ place other :=
      fun hsame => heq (hplace hother (Set.mem_insert _ _) hsame.symm)
    rw [Memory.read_write_of_ne hapart, Memory.read_write_of_ne (Ne.symm heq), h.cells other hknown]

theorem setNode {node : Nat} {value : Float} (h : Matched place known m m') :
    Matched place known (m.setNode node value) (m'.setNode node value) :=
  ⟨by rw [Memory.setNode, Memory.setNode, h.context], h.cells⟩

open Builtin in
/-- A builtin goes on the same way on both memories, and unless it is stuck what it has written is
known. -/
theorem run {b : Builtin} (constants : List Float) (jump : Option Int) {h : Header}
    (hm : Matched place known m m') (hreads : ∀ cell ∈ b.reads h, cell ∈ known)
    (hplace : Set.InjOn place (known ∪ {cell | cell ∈ b.writes h}))
    (hsize : ∀ cell ∈ b.writes h, (cell < m.cells.size ↔ place cell < m'.cells.size)) :
    (b.run constants jump (h.map place) m').1 = (b.run constants jump h m).1 ∧
      ((b.run constants jump h m).1 ≠ .stuck →
        Matched place (known ∪ {cell | cell ∈ b.writes h}) (b.run constants jump h m).2
          (b.run constants jump (h.map place) m').2) := by
  unfold Builtin.run
  extract_lets arg' first put' arg put
  have harg : arg' = arg := by
    funext i
    have hoperands : ∀ cell ∈ h.operands, cell ∈ b.reads h := by
      cases b <;> simp +contextual [reads]
    simp only [arg, arg', Header.map, List.getElem?_map]
    rcases hi : h.operands[i]? with _ | cell
    · rfl
    · exact hm.cells cell (hreads cell (hoperands cell (List.mem_of_getElem? hi)))
  rw [harg, hm.context]
  have hput : b.writes h = [h.result] → ∀ value, (put' value).1 = (put value).1 ∧
      Matched place (known ∪ {cell | cell ∈ b.writes h}) (put value).2 (put' value).2 := by
    intro hwrites value
    have hresult : h.result ∈ b.writes h := by simp [hwrites]
    have hset : known ∪ {cell | cell ∈ b.writes h} = insert h.result known := by
      ext cell
      simp [hwrites, or_comm]
    rw [hset] at hplace ⊢
    exact ⟨rfl, hm.write value hplace (hsize _ hresult)⟩
  have hkept : b.writes h = [] → Matched place (known ∪ {cell | cell ∈ b.writes h}) m m' := by
    intro hwrites
    refine hm.mono fun cell hcell => ?_
    simpa [hwrites] using hcell
  cases b
  case table =>
    rcases hvalue : (Breakpoints.ofFlat constants).lookup (arg 0) with _ | value
    · exact ⟨rfl, fun hstuck => absurd rfl hstuck⟩
    · exact (hput rfl value).imp_right fun hmatched _ => hmatched
  all_goals refine And.imp_right (fun hmatched _ => hmatched) ?_
  case storeIf r =>
    by_cases hmade : r.holds (arg 0) (arg 1) = true
    · simp only [hmade, reduceIte]
      exact hput rfl _
    · simp only [hmade, Bool.false_eq_true, reduceIte, true_and]
      refine hm.mono fun cell hcell => ?_
      rcases hcell with hcell | hcell
      · exact hcell
      · exact hreads cell (List.mem_singleton.1 hcell ▸ List.mem_cons_self)
  case last =>
    have hstorage : h.storage ∈ known := hreads _ List.mem_cons_self
    have hresult : h.result ∈ last.writes h := List.mem_cons_self
    have hset : known ∪ {cell | cell ∈ last.writes h} = insert h.result known := by
      ext cell
      grind [writes, writesResult, storageSize]
    rw [hset] at hplace ⊢
    have hfewer : insert h.storage known ⊆ insert h.result known :=
      (Set.insert_eq_of_mem hstorage).subset.trans (Set.subset_insert _ _)
    have hheld := hm.write (arg 0) (hplace.mono hfewer) (hsize _ (by simp [writes, storageSize]))
    rw [Set.insert_eq_of_mem hstorage] at hheld
    have hread : m'.read (h.map place).storage = m.read h.storage := hm.cells _ hstorage
    simp only [hread, true_and]
    exact hheld.write _ hplace (by simpa using hsize _ hresult)
  case jump => exact ⟨rfl, hkept rfl⟩
  case jumpIf => exact ⟨rfl, hkept rfl⟩
  case jumpIfZero => exact ⟨rfl, hkept rfl⟩
  case leave => exact ⟨rfl, hkept rfl⟩
  case storeNode => exact ⟨rfl, (hkept rfl).setNode⟩
  all_goals exact hput rfl _

/-- What was known before a builtin is known after it. -/
theorem run_known {b : Builtin} (constants : List Float) (jump : Option Int) {h : Header}
    (hm : Matched place known m m') (hreads : ∀ cell ∈ b.reads h, cell ∈ known)
    (hplace : Set.InjOn place (known ∪ {cell | cell ∈ b.writes h}))
    (hsize : ∀ cell ∈ b.writes h, (cell < m.cells.size ↔ place cell < m'.cells.size)) :
    Matched place known (b.run constants jump h m).2 (b.run constants jump (h.map place) m').2 := by
  obtain ⟨hcontrol, hwritten⟩ := hm.run constants jump hreads hplace hsize
  by_cases hstuck : (b.run constants jump h m).1 = .stuck
  · rw [Builtin.run_stuck hstuck, Builtin.run_stuck (hcontrol.trans hstuck)]
    exact hm
  · exact (hwritten hstuck).mono Set.subset_union_left

end Matched

theorem Header.map_id (h : Header) : h.map id = h := by
  simp [Header.map]

namespace State

variable {field : Array Nat} {frames : List Frame} {s : State}

theorem step_builtin {f : Frame} {outer : List Frame} {b : Builtin} {operands : List Operand}
    {constants : List Float} {jump : Option Int}
    (hi : f.function.body[f.pc]? = some ⟨.builtin b, operands, constants, jump⟩) (m : Memory) :
    step field ⟨f :: outer, m⟩ =
      ⟨f.follow b.fieldSize outer
          (b.run constants jump (headerAt field f.base b.fieldSize) m).1,
        (b.run constants jump (headerAt field f.base b.fieldSize) m).2⟩ := by
  simp only [step, hi]

theorem event?_builtin {f : Frame} {outer : List Frame} {b : Builtin} {operands : List Operand}
    {constants : List Float} {jump : Option Int}
    (hi : f.function.body[f.pc]? = some ⟨.builtin b, operands, constants, jump⟩) (m : Memory) :
    event? field ⟨f :: outer, m⟩ = some (b, headerAt field f.base b.fieldSize) := by
  simp only [event?, hi]

/-- A step runs a builtin and goes where it says, or runs none; which of the two, and which builtin,
the frames tell. Without an answer it goes nowhere. -/
theorem step_cases (field : Array Nat) (frames : List Frame) :
    ((∀ m, event? field ⟨frames, m⟩ = none) ∧ ∃ next, ∀ m, step field ⟨frames, m⟩ = ⟨next, m⟩) ∨
      ∃ (b : Builtin) (h : Header) (constants : List Float) (jump : Option Int)
        (next : Control → List Frame), (∀ m, event? field ⟨frames, m⟩ = some (b, h)) ∧
          (∀ m, step field ⟨frames, m⟩ =
            ⟨next (b.run constants jump h m).1, (b.run constants jump h m).2⟩) ∧
          next .stuck = frames := by
  rcases frames with _ | ⟨f, outer⟩
  · exact .inl ⟨fun _ => rfl, [], fun _ => rfl⟩
  · rcases hi : f.function.body[f.pc]? with _ | ⟨callee, operands, constants, jump⟩
    · exact .inl ⟨fun m => by simp only [event?, hi], outer, fun m => by simp only [step, hi]⟩
    · rcases callee with b | c
      · exact .inr ⟨b, headerAt field f.base b.fieldSize, constants, jump,
          f.follow b.fieldSize outer, event?_builtin hi, step_builtin hi, rfl⟩
      · exact .inl ⟨fun m => by simp only [event?, hi],
          Frame.enter c f.base :: f.advance c.fieldSize :: outer, fun m => by simp only [step, hi]⟩

/-- A state that a step leaves as it is stays so. -/
theorem run_of_step_eq (h : s.step field = s) (n : Nat) : s.run field n = s := by
  induction n with
  | zero => rfl
  | succ n ih => rw [run_succ, h, ih]

theorem size_step : (s.step field).memory.cells.size = s.memory.cells.size := by
  obtain ⟨frames, m⟩ := s
  rcases step_cases field frames with ⟨-, next, hstep⟩ | ⟨b, h, constants, jump, next, -, hstep, -⟩
  · rw [hstep]
  · rw [hstep]
    exact Builtin.size_run

theorem size_run (n : Nat) : (s.run field n).memory.cells.size = s.memory.cells.size := by
  induction n generalizing s with
  | zero => rfl
  | succ n ih => rw [run_succ, ih, size_step]

/-- A cell that no builtin of a run writes stays as it was. -/
theorem read_run_of_notMem {cell : Nat} {n : Nat}
    (h : ∀ e ∈ trace (step field) (event? field) n s, cell ∉ e.1.writes e.2) :
    (s.run field n).memory.read cell = s.memory.read cell := by
  induction n generalizing s with
  | zero => rfl
  | succ n ih =>
    rw [trace, List.forall_mem_append] at h
    rw [run_succ, ih h.2]
    obtain ⟨frames, m⟩ := s
    rcases step_cases field frames with
      ⟨-, next, hstep⟩ | ⟨b, header, constants, jump, next, hevent, hstep, -⟩
    · rw [hstep]
    · rw [hstep]
      exact Builtin.read_run_of_notMem (h.1 (b, header) (by simp [hevent]))

end State

end Behavioral
