import Behavioral.Proofs.Relocation
import Behavioral.Proofs.Statements

/-!
# Literals

A hidden local is a cell like any other. It is loaded once, in front of the body (`run_loads`), and
then serves every use of its literal. So a literal is a constant as long as no builtin writes its
result to that cell, neither one of the body nor one in what the body calls. Which cells they write
to is told by the headers alone (`Function.results`), and a frame that spares a range of cells
spares it whatever it does (`Spares.step`). Delays keep their operands behind all locals.

Where hidden locals are spared, a literal has its value whenever an instruction with it is about to
run (`read_literal`). A definition need not name a hidden local to write to it: it is a slot of the
instruction before (`overwrites_literal`).
-/

namespace Behavioral

open Behavioral.Composition Direct

mutual

/-- The cells to which the builtins in a function with the header `own` write their results. -/
def Function.results : Function → (own : List Nat) → List Nat
  | .builtin b, own => if b.writesResult then [own[0]?.getD 0] else []
  | .composed ⟨_, _, localCount, body, _, _⟩, own =>
    resultsIn own (own[1]?.getD 0 + localCount) (fun _ => 0) body

/-- The same of instructions whose private cells start at `privateBase`. -/
def resultsIn (own : List Nat) (privateBase : Nat) (previous : Nat → Nat) :
    List (Instruction Function) → List Nat
  | [] => []
  | ⟨callee, operands, _, _⟩ :: rest =>
    let header := headerOffsets privateBase (operands.map (resolve own previous))
    callee.results header ++
      resultsIn own (privateBase + callee.storageSize) (slot callee header) rest

end

variable {own : List Nat} {i : Instruction Function} {body : List (Instruction Function)}
  {privateBase : Nat} {previous : Nat → Nat} {g : Direct.Frame} {low high floor pc : Nat}

theorem resultsIn_cons (i : Instruction Function) (rest : List (Instruction Function)) :
    resultsIn own privateBase previous (i :: rest) =
      i.callee.results (header own privateBase previous i) ++
        resultsIn own (privateBase + i.callee.storageSize)
          (slot i.callee (header own privateBase previous i)) rest := by
  obtain ⟨callee, operands, constants, jump⟩ := i
  rw [resultsIn, header]

theorem results_composed (c : Composed) :
    (Function.composed c).results own =
      resultsIn own (own[1]?.getD 0 + c.localCount) (fun _ => 0) c.body := by
  obtain ⟨name, paramCount, localCount, body, fieldSize, storageSize⟩ := c
  rw [Function.results]

theorem results_header {k : Nat} {given : List Nat} (hi : body[k]? = some i)
    (hgiven : (headers own privateBase previous body)[k]? = some given) :
    ∀ cell ∈ i.callee.results given, cell ∈ resultsIn own privateBase previous body := by
  induction body generalizing privateBase previous k with
  | nil => simp at hi
  | cons first rest ih =>
    intro cell hcell
    rw [resultsIn_cons, List.mem_append]
    rcases k with _ | k
    · cases hi
      cases hgiven
      exact .inl hcell
    · exact .inr (ih hi hgiven cell hcell)

/-- What a call writes, the function that it stands in writes. -/
theorem results_callee (hi : g.function.body[g.pc]? = some i) :
    ∀ cell ∈ i.callee.results g.calleeHeader,
      cell ∈ (Function.composed g.function).results g.header := by
  rw [results_composed]
  exact results_header hi (Direct.Frame.getElem?_headers hi)

/-- From the instruction `floor` on, where the frame stays, no builtin writes to a cell from `low`
to `high`. -/
structure Spares (low high floor : Nat) (g : Direct.Frame) : Prop where
  reached : floor ≤ g.pc
  behind : high ≤ g.header[1]?.getD 0 + g.function.localCount
  results : ∀ pc i, floor ≤ pc → g.function.body[pc]? = some i →
    ∀ cell ∈ i.callee.results (Direct.Frame.calleeHeader { g with pc }), low ≤ cell → high ≤ cell
  jumps : ∀ pc i, floor ≤ pc → g.function.body[pc]? = some i →
    ∀ d, i.jump = some d → floor ≤ ((pc : Int) + d).toNat

namespace Spares

theorem moved (h : Spares low high floor g) (hpc : floor ≤ pc) :
    Spares low high floor { g with pc } :=
  ⟨hpc, h.behind, h.results, h.jumps⟩

theorem enter (h : Spares low high floor g) (hi : g.function.body[g.pc]? = some i) {c : Composed}
    (hc : i.callee = .composed c) : Spares low high 0 ⟨c, g.calleeHeader, 0⟩ := by
  have hbehind : high ≤ g.calleeHeader[1]?.getD 0 :=
    h.behind.trans (Direct.Frame.le_calleeHeader hi)
  refine ⟨le_rfl, hbehind.trans (Nat.le_add_right _ _), fun pc j _ hj cell hcell => ?_,
    fun _ _ _ _ _ _ => Nat.zero_le _⟩
  have hcalled := @results_callee j ⟨c, g.calleeHeader, pc⟩ hj cell hcell
  rw [← hc] at hcalled
  exact h.results g.pc i h.reached hi cell hcalled

theorem notMem_writes (h : Spares low high floor g) (hi : g.function.body[g.pc]? = some i)
    {b : Builtin} (hb : i.callee = .builtin b) {cell : Nat} (hlow : low ≤ cell)
    (hhigh : cell < high) : cell ∉ b.writes (.ofList g.calleeHeader) := by
  have hresult := h.results g.pc i h.reached hi cell
  rw [hb, Function.results] at hresult
  intro hwritten
  rw [Builtin.writes, Header.ofList] at hwritten
  rcases List.mem_append.1 hwritten with hwritten | hwritten
  · exact absurd (hresult hwritten hlow) (Nat.not_le.2 hhigh)
  · have hstorage : cell = g.calleeHeader[1]?.getD 0 := by
      split at hwritten
      · cases hwritten
      · exact List.mem_singleton.1 hwritten
    have hbehind := h.behind.trans (Direct.Frame.le_calleeHeader hi)
    omega

theorem follow (h : Spares low high floor g) (hi : g.function.body[g.pc]? = some i)
    {control : Control} (hjump : ∀ d, control = .jump d → i.jump = some d)
    {outer : List Direct.Frame} (houter : ∀ x ∈ outer, ∃ floor, Spares low high floor x) :
    ∀ x ∈ g.follow outer control, ∃ floor, Spares low high floor x := by
  rcases control with _ | _ | d | _
  · exact List.forall_mem_cons.2 ⟨⟨floor, h.moved (h.reached.trans (Nat.le_succ _))⟩, houter⟩
  · exact houter
  · exact List.forall_mem_cons.2
      ⟨⟨floor, h.moved (h.jumps g.pc i h.reached hi d (hjump d rfl))⟩, houter⟩
  · exact List.forall_mem_cons.2 ⟨⟨floor, h⟩, houter⟩

/-- A step of frames that spare the cells leaves frames that spare them, and the cells as they
were. -/
theorem step {s : Direct.State} (h : ∀ g ∈ s.frames, ∃ floor, Spares low high floor g) :
    (∀ g ∈ s.step.frames, ∃ floor, Spares low high floor g) ∧
      ∀ cell, low ≤ cell → cell < high → s.step.memory.read cell = s.memory.read cell := by
  obtain ⟨frames, m⟩ := s
  rcases frames with _ | ⟨g, outer⟩
  · exact ⟨h, fun _ _ _ => rfl⟩
  · obtain ⟨⟨floor, hg⟩, houter⟩ := List.forall_mem_cons.1 h
    unfold Direct.State.step
    simp only
    rcases hi : g.function.body[g.pc]? with _ | i
    · exact ⟨houter, fun _ _ _ => rfl⟩
    · obtain ⟨callee, operands, constants, jump⟩ := i
      rcases callee with b | c
      · exact ⟨hg.follow hi (fun d hd => Builtin.jump_eq_of_run hd) houter, fun cell hlow hhigh =>
          Builtin.read_run_of_notMem (hg.notMem_writes hi rfl hlow hhigh)⟩
      · have hnext : ∀ x ∈ g.follow outer .next, ∃ floor, Spares low high floor x :=
          hg.follow hi (fun _ hd => by cases hd) houter
        exact ⟨List.forall_mem_cons.2 ⟨⟨0, hg.enter hi rfl⟩, hnext⟩, fun _ _ _ => rfl⟩

theorem run {s : Direct.State} (h : ∀ g ∈ s.frames, ∃ floor, Spares low high floor g) (n : Nat)
    {cell : Nat} (hlow : low ≤ cell) (hhigh : cell < high) :
    (s.run n).memory.read cell = s.memory.read cell := by
  induction n generalizing s with
  | zero => rfl
  | succ n ih =>
    obtain ⟨hspares, hcells⟩ := step h
    exact (ih hspares).trans (hcells cell hlow hhigh)

end Spares

namespace Direct.State

theorem run_add (s : Direct.State) (n k : Nat) : s.run (n + k) = (s.run n).run k := by
  induction n generalizing s with
  | zero => rw [Nat.zero_add, run]
  | succ n ih => rw [Nat.add_right_comm, run, run, ih]

/-- A step leaves the innermost frame, or moves it and may enter a call above it. -/
theorem frames_step (g : Direct.Frame) (outer : List Direct.Frame) (m : Memory) :
    (step ⟨g :: outer, m⟩).frames = outer ∨
      ∃ inner pc, (step ⟨g :: outer, m⟩).frames = inner ++ { g with pc } :: outer := by
  unfold step
  simp only
  rcases g.function.body[g.pc]? with _ | ⟨_ | c, operands, constants, jump⟩
  · exact .inl rfl
  · simp only
    generalize (Builtin.run _ _ _ _ _).1 = control
    rcases control with _ | _ | d | _
    · exact .inr ⟨[], _, rfl⟩
    · exact .inl rfl
    · exact .inr ⟨[], _, rfl⟩
    · exact .inr ⟨[], g.pc, rfl⟩
  · exact .inr ⟨[_], _, rfl⟩

/-- The function that a run was started with stays under all that it calls, with its header, until
the run ends. -/
theorem bottom_run {c : Composed} {s : Direct.State}
    (h : s.frames = [] ∨ ∃ inner pc, s.frames = inner ++ [⟨c, own, pc⟩]) (n : Nat) :
    (s.run n).frames = [] ∨ ∃ inner pc, (s.run n).frames = inner ++ [⟨c, own, pc⟩] := by
  induction n generalizing s with
  | zero => exact h
  | succ n ih =>
    refine ih ?_
    obtain ⟨frames, m⟩ := s
    rcases h with rfl | ⟨inner, pc, rfl⟩
    · exact .inl rfl
    · rcases inner with _ | ⟨g, inner⟩
      · exact (frames_step ⟨c, own, pc⟩ [] m).imp id fun ⟨inner, pc', hframes⟩ =>
          ⟨inner, pc', hframes⟩
      · rcases frames_step g (inner ++ [⟨c, own, pc⟩]) m with hframes | ⟨called, pc', hframes⟩
        · exact .inr ⟨inner, pc, hframes⟩
        · refine .inr ⟨called ++ { g with pc := pc' } :: inner, pc, ?_⟩
          rw [List.append_assoc, List.cons_append]
          exact hframes

end Direct.State

/-- The first steps of a body that starts with loads run these, in turn. -/
theorem run_loads {c : Composed} {firstLocal : Nat} {literals : List Float}
    (hloads : ∀ (k : Nat) (value : Float), literals[k]? = some value →
      c.body[k]? = some ⟨.builtin .constant, [.localCell (firstLocal + k)], [value], none⟩)
    {m : Memory} (hsize : own[1]?.getD 0 + firstLocal + literals.length ≤ m.cells.size) {n : Nat}
    (hn : n ≤ literals.length) :
    ∃ m', Direct.State.run n ⟨[⟨c, own, 0⟩], m⟩ = ⟨[⟨c, own, n⟩], m'⟩ ∧
      m'.cells.size = m.cells.size ∧ ∀ k < n, ∀ value, literals[k]? = some value →
        m'.read (own[1]?.getD 0 + firstLocal + k) = value := by
  induction n with
  | zero => exact ⟨m, rfl, rfl, by simp⟩
  | succ n ih =>
    obtain ⟨m', hrun, hsame, hloaded⟩ := ih (Nat.le_of_succ_le hn)
    have hvalue := List.getElem?_eq_getElem (Nat.lt_of_succ_le hn)
    have hbody := hloads n _ hvalue
    generalize literals[n] = value at hvalue hbody
    have hresult : (Direct.Frame.calleeHeader ⟨c, own, n⟩)[0]?.getD 0 =
        own[1]?.getD 0 + firstLocal + n := by
      obtain ⟨previous, hgiven⟩ := @Direct.Frame.exists_calleeHeader _ ⟨c, own, n⟩ hbody
      rw [hgiven]
      exact (Nat.add_assoc _ _ _).symm
    have hstep : Direct.State.step ⟨[⟨c, own, n⟩], m'⟩ =
        ⟨[⟨c, own, n + 1⟩], m'.write (own[1]?.getD 0 + firstLocal + n) value⟩ := by
      unfold Direct.State.step
      simp only [hbody]
      rw [Builtin.run, ← hresult]
      rfl
    refine ⟨m'.write (own[1]?.getD 0 + firstLocal + n) value, ?_, Memory.size_write.trans hsame,
      fun k hk other hother => ?_⟩
    · rw [Direct.State.run_add, hrun]
      exact hstep
    · rcases Nat.lt_succ_iff_lt_or_eq.1 hk with hbefore | rfl
      · rw [Memory.read_write_of_ne (by omega)]
        exact hloaded k hbefore other hother
      · rw [Memory.read_write_self (by omega)]
        exact Option.some_injective _ (hvalue.symm.trans hother)

/-- Whether no builtin behind the first `count` instructions, nor in what they call, writes its
result to one of the last `count` locals. -/
def Composition.sparesHidden (c : Composed) (count : Nat) (own : List Nat) : Bool :=
  let privateBase := own[1]?.getD 0 + c.localCount
  ((c.body.zip (headers own privateBase (fun _ => 0) c.body)).drop count).all fun (i, given) =>
    (i.callee.results given).all fun cell => cell + count < privateBase || privateBase ≤ cell

theorem spares_of_sparesHidden {c : Composed} {count : Nat}
    (h : c.sparesHidden count own = true) {pc : Nat} (hpc : count ≤ pc)
    (hi : c.body[pc]? = some i) :
    ∀ cell ∈ i.callee.results (Direct.Frame.calleeHeader ⟨c, own, pc⟩),
      own[1]?.getD 0 + c.localCount ≤ cell + count → own[1]?.getD 0 + c.localCount ≤ cell := by
  have hzip : (c.body.zip (headers own (own[1]?.getD 0 + c.localCount) (fun _ => 0) c.body))[pc]? =
      some (i, Direct.Frame.calleeHeader ⟨c, own, pc⟩) := by
    rw [List.getElem?_zip_eq_some]
    exact ⟨hi, @Direct.Frame.getElem?_headers i ⟨c, own, pc⟩ hi⟩
  obtain ⟨k, rfl⟩ := Nat.exists_eq_add_of_le hpc
  rw [← List.getElem?_drop] at hzip
  have hall := List.all_eq_true.1 h _ (List.mem_of_getElem? hzip)
  intro cell hcell hlow
  have hspared := List.all_eq_true.1 hall cell hcell
  simp only [Bool.or_eq_true, decide_eq_true_eq] at hspared
  omega

/-- The cells of the words of a statement. -/
def Statement.cells (s : Statement) (h : Header) : List Nat :=
  if s.form.writesResult then h.result :: h.operands else h.operands

/-- The cells of a statement's words are those of the operands that they are read as. -/
theorem Statement.ReadAs.exists_cell {s : Statement} {firstLocal : Nat} {hidden : List Float}
    (h : s.ReadAs firstLocal hidden i) {j : Nat} {word : String} (hword : s.words[j]? = some word)
    {value : Float} (hvalue : s.form.literal? word = some value) :
    ∃ k, hidden[k]? = some value ∧
      (s.cells (.ofList (header own privateBase previous i)))[j]? =
        some (own[1]?.getD 0 + (firstLocal + k)) := by
  obtain ⟨written, hoperands, hmeans⟩ := h.operands
  have htakes : s.form.takesConstants = false := by
    by_contra htakes
    simp [Draft.Form.literal?, htakes] at hvalue
  have hall : s.words.filter (!s.form.isConstant ·) = s.words :=
    List.filter_eq_self.2 fun _ _ => by simp [Draft.Form.isConstant, htakes]
  rw [hall] at hmeans
  obtain ⟨o, ho, hmean⟩ := exists_getElem?_of_forall₂ hmeans hword
  obtain ⟨k, hk, rfl⟩ := hmean.eq_of_literal hvalue
  have hcells : s.cells (.ofList (header own privateBase previous i)) =
      written.map (resolve own previous) := by
    rw [cells, header, hoperands]
    split
    · obtain ⟨first, rest, rfl⟩ := List.exists_cons_of_ne_nil (List.ne_nil_of_mem
        (List.mem_of_getElem? ho))
      rfl
    · rfl
  refine ⟨k, hk, ?_⟩
  rw [hcells, List.getElem?_map, ho]
  rfl

/-- Where only the function that a run was started with is left, it has its header. -/
theorem Tracks.bottom {c : Composed} {field : Array Nat} {m : Memory}
    (h : Tracks field ⟨[Frame.enter c 0], m⟩ ⟨[⟨c, own, 0⟩], m⟩) {n : Nat} {f : Frame}
    (hframes : (State.run field n ⟨[Frame.enter c 0], m⟩).frames = [f]) :
    (Direct.State.run n ⟨[⟨c, own, 0⟩], m⟩).frames = [⟨c, own, f.pc⟩] ∧
      Runs field f ⟨c, own, f.pc⟩ := by
  have hruns := (h.run n).frames
  rw [hframes] at hruns
  rcases @Direct.State.bottom_run own c ⟨[⟨c, own, 0⟩], m⟩ (.inr ⟨[], 0, rfl⟩) n with
    hnone | ⟨inner, pc, hbottom⟩
  · rw [hnone] at hruns
    cases hruns
  · rw [hbottom] at hruns ⊢
    obtain rfl : inner = [] := by simpa using hruns.length_eq
    rcases hruns with _ | ⟨hrun, -⟩
    obtain rfl : pc = f.pc := (congrArg Frame.pc hrun.place).symm
    exact ⟨rfl, hrun⟩

namespace Library.Accepts

variable {l : Library} {text : String} {opening : Opening} {c : Composed}
  {instructions : List (Instruction Function)} {m : Memory} {n : Nat}

/-- Behind its loads, a function whose hidden locals are spared spares them. -/
theorem spares (h : l.Accepts text opening c instructions)
    (hspares : c.sparesHidden (l.hidden text).length own = true) :
    Spares (own[1]?.getD 0 + opening.locals) (own[1]?.getD 0 + c.localCount)
      (l.hidden text).length ⟨c, own, (l.hidden text).length⟩ := by
  have hcount := h.localCount
  refine ⟨le_rfl, le_rfl, fun pc i hpc hi cell hresult hlow => ?_, fun pc i hpc hi d hd => ?_⟩
  · exact spares_of_sparesHidden hspares hpc hi cell hresult (by omega)
  · obtain ⟨q, rfl⟩ := Nat.exists_eq_add_of_le hpc
    have hforward := h.jumps q i ((h.getElem?_body q).symm.trans hi) d hd
    omega

/-- Once the loads have run, a hidden local holds its value for good. -/
theorem read_hidden (h : l.Accepts text opening c instructions)
    (hspares : c.sparesHidden (l.hidden text).length own = true)
    (hsize : own[1]?.getD 0 + c.localCount ≤ m.cells.size) (hn : (l.hidden text).length ≤ n)
    {k : Nat} {value : Float} (hk : (l.hidden text)[k]? = some value) :
    (Direct.State.run n ⟨[⟨c, own, 0⟩], m⟩).memory.read (own[1]?.getD 0 + opening.locals + k) =
      value := by
  have hcount := h.localCount
  obtain ⟨hthere, -⟩ := List.getElem?_eq_some_iff.1 hk
  obtain ⟨rest, rfl⟩ := Nat.exists_eq_add_of_le hn
  obtain ⟨m', hloading, -, hloaded⟩ := @run_loads own c opening.locals (l.hidden text)
    (fun _ _ => h.load) m (by omega) _ le_rfl
  rw [Direct.State.run_add, hloading]
  have hkept := @Spares.run _ _ ⟨[⟨c, own, (l.hidden text).length⟩], m'⟩
    (by simpa using ⟨_, h.spares hspares⟩) rest (own[1]?.getD 0 + opening.locals + k) (by omega)
    (by omega)
  exact hkept.trans (hloaded k hthere value hk)

/-- While the loads run, no statement does. -/
theorem length_le (h : l.Accepts text opening c instructions)
    (hsize : own[1]?.getD 0 + c.localCount ≤ m.cells.size) {pc : Nat}
    (hframes : (Direct.State.run n ⟨[⟨c, own, 0⟩], m⟩).frames = [⟨c, own, pc⟩])
    (hpc : (l.hidden text).length ≤ pc) : (l.hidden text).length ≤ n := by
  have hcount := h.localCount
  by_contra hbefore
  obtain ⟨m', hloading, -⟩ := @run_loads own c opening.locals (l.hidden text)
    (fun _ _ => h.load) m (by omega) n (Nat.le_of_not_le hbefore)
  rw [hloading] at hframes
  cases hframes
  omega

end Library.Accepts

/-- Literals are constants, where no builtin writes its result to a hidden local: whenever an
instruction of an accepted definition is about to run, the cell of each of its literals holds the
literal's value. -/
theorem read_literal {l : Library} (hl : l.AllBuilt) {text : String} {c : Composed}
    (h : l.parse text = .ok c) {own : List Nat} (hown : own.length = 2 + c.paramCount) {m : Memory}
    (hsize : own[1]?.getD 0 + c.localCount ≤ m.cells.size)
    (hspares : c.sparesHidden (l.hidden text).length own = true) (n : Nat) :
    let field := ((Function.composed c).layout own).toArray
    let s := State.run field n ⟨[Frame.enter c 0], m⟩
    ∀ f q statement, s.frames = [f] → f.pc = (l.hidden text).length + q →
      (l.statements text)[q]? = some statement → ∀ (j : Nat) word value,
        statement.words[j]? = some word → statement.form.literal? word = some value →
        ∃ cell, (statement.cells (headerAt field f.base statement.callee.headerSize))[j]? =
          some cell ∧ s.memory.read cell = value := by
  intro field s f q statement hframes hpc hstatement j word value hword hvalue
  obtain ⟨opening, instructions, haccepts⟩ := Library.accepts_of_parse h
  have htracks : Tracks field ⟨[Frame.enter c 0], m⟩ ⟨[⟨c, own, 0⟩], m⟩ :=
    tracks_enter (hl.parse h) hown rfl m
  obtain ⟨hdirect, hrun⟩ := htracks.bottom hframes
  -- the statement's instruction, and the cell that the index field has for the word
  obtain ⟨i, hinstruction, hreads⟩ := exists_getElem?_of_forall₂ haccepts.reads hstatement
  have hi : c.body[f.pc]? = some i := by rw [hpc, haccepts.getElem?_body, hinstruction]
  obtain ⟨previous, hgiven⟩ := @Direct.Frame.exists_calleeHeader i ⟨c, own, f.pc⟩ hi
  have hheader : headerAt field f.base statement.callee.headerSize = .ofList (header own
      (own[1]?.getD 0 + c.localCount + privateSize (c.body.take f.pc)) previous i) := by
    rw [← hreads.callee, hrun.header hi, hgiven]
  obtain ⟨k, hk, hcell⟩ := @Statement.ReadAs.exists_cell own i _ previous _ _ _ hreads
    j word hword value hvalue
  refine ⟨_, by rw [hheader, hcell], ?_⟩
  have hlater := haccepts.length_le hsize hdirect (hpc ▸ Nat.le_add_right _ _)
  rw [← Nat.add_assoc, (htracks.run n).memory]
  exact haccepts.read_hidden hspares hsize hlater hk

/-- Doubles one until it is not less than its parameter. -/
def climb : String :=
  ".FUNC climb PARAMS=1\n_MOV RET 1\nup: _MUL RET RET 2\n_JLT RET P0 up\n.ENDF"

theorem read_literal_climb :
    ∃ c, Library.parse {} climb = .ok c ∧ ([0, 2, 1] : List Nat).length = 2 + c.paramCount ∧
      2 + c.localCount ≤ 4 ∧ c.sparesHidden 2 [0, 2, 1] = true ∧
      let field := ((Function.composed c).layout [0, 2, 1]).toArray
      let s := State.run field 5 ⟨[Frame.enter c 0], ⟨#[0, 10, 0, 0], {}⟩⟩
      ∃ f statement, s.frames = [f] ∧ f.pc = 3 ∧
        (Library.statements {} climb)[1]? = some statement ∧
        statement.words[2]? = some "2" ∧ statement.form.literal? "2" = some 2 ∧
        ∃ cell, (statement.cells (headerAt field f.base statement.callee.headerSize))[2]? =
          some cell ∧ s.memory.read cell = 2 := by
  have hparsed : (Library.parse {} climb).toOption.map (fun c =>
      (c.paramCount, c.localCount, c.sparesHidden 2 [0, 2, 1],
        (State.run ((Function.composed c).layout [0, 2, 1]).toArray 5
          ⟨[Frame.enter c 0], ⟨#[0, 10, 0, 0], {}⟩⟩).frames.map Frame.pc)) =
      some (1, 2, true, [3]) := by decide +kernel
  have hwords : (Library.statements {} climb)[1]?.map (fun s =>
      (s.words[2]?, s.form.literal? "2")) = some (some "2", some 2) := by decide +kernel
  obtain ⟨c, hc, hobserved⟩ := exists_ok_of_map hparsed
  simp only [Prod.mk.injEq, List.map_eq_singleton_iff] at hobserved
  obtain ⟨hparams, hlocals, hspares, f, hframes, hpc⟩ := hobserved
  obtain ⟨statement, hstatement, hobserved⟩ := Option.map_eq_some_iff.1 hwords
  obtain ⟨hword, hvalue⟩ := Prod.mk.inj hobserved
  have hhidden : (Library.hidden {} climb).length = 2 := by decide +kernel
  have hown : ([0, 2, 1] : List Nat).length = 2 + c.paramCount := by rw [hparams]; rfl
  have hsize : 2 + c.localCount ≤ 4 := by rw [hlocals]
  refine ⟨c, hc, hown, hsize, hspares, f, statement, hframes, hpc, hstatement, hword, hvalue, ?_⟩
  exact @read_literal {} Library.allBuilt_empty climb c hc [0, 2, 1] hown ⟨#[0, 10, 0, 0], {}⟩
    hsize (hhidden ▸ hspares) 5 f 1 statement hframes (by rw [hpc, hhidden]) hstatement 2 "2" 2
    hword hvalue

/-- Moves its parameter to the cell of the literal before. -/
def clobber : String :=
  ".FUNC clobber PARAMS=1\n_ADD RET P0 2\n_MOV F3 P0\n_ADD RET P0 2\n.ENDF"

/-- A literal can be overwritten, without naming its hidden local. -/
theorem overwrites_literal :
    ∃ c, Library.parse {} clobber = .ok c ∧
      (∀ s ∈ Library.statements {} clobber, ∀ word ∈ s.words, ∀ i,
        Operand.ofWord? word ≠ some (.localCell i)) ∧
      let field := ((Function.composed c).layout [0, 2, 1]).toArray
      let s := State.run field 3 ⟨[Frame.enter c 0], ⟨#[0, 10, 0], {}⟩⟩
      ∃ f statement, s.frames = [f] ∧ f.pc = (Library.hidden {} clobber).length + 2 ∧
        (Library.statements {} clobber)[2]? = some statement ∧
        statement.words[2]? = some "2" ∧ statement.form.literal? "2" = some 2 ∧
        (statement.cells (headerAt field f.base statement.callee.headerSize))[2]? = some 2 ∧
        s.memory.read 2 = 10 := by
  have hparsed : (Library.parse {} clobber).toOption.map (fun c =>
      ((State.run ((Function.composed c).layout [0, 2, 1]).toArray 3
        ⟨[Frame.enter c 0], ⟨#[0, 10, 0], {}⟩⟩).frames.map fun f =>
          (f.pc, headerAt ((Function.composed c).layout [0, 2, 1]).toArray f.base 4),
        (State.run ((Function.composed c).layout [0, 2, 1]).toArray 3
          ⟨[Frame.enter c 0], ⟨#[0, 10, 0], {}⟩⟩).memory.read 2)) =
      some ([(3, ⟨0, 3, [1, 2]⟩)], 10) := by decide +kernel
  have hwords : (Library.statements {} clobber)[2]?.map (fun s =>
      (s.words[2]?, s.form.literal? "2", s.form.writesResult, s.callee.headerSize)) =
      some (some "2", some 2, true, 4) := by decide +kernel
  have hnamed : (Library.statements {} clobber).flatMap (fun s => s.words.map Operand.ofWord?) =
      [some (.caller 0), some (.caller 2), none, some (.previous 3), some (.caller 2),
        some (.caller 0), some (.caller 2), none] := by decide +kernel
  have hhidden : (Library.hidden {} clobber).length = 1 := by decide +kernel
  obtain ⟨c, hc, hobserved⟩ := exists_ok_of_map hparsed
  simp only [Prod.mk.injEq, List.map_eq_singleton_iff] at hobserved
  obtain ⟨⟨f, hframes, hpc, hheader⟩, hread⟩ := hobserved
  obtain ⟨statement, hstatement, hobserved⟩ := Option.map_eq_some_iff.1 hwords
  simp only [Prod.mk.injEq] at hobserved
  obtain ⟨hword, hvalue, hwrites, hsize⟩ := hobserved
  refine ⟨c, hc, fun s hs word hword i hi => ?_, f, statement, hframes, by rw [hpc, hhidden],
    hstatement, hword, hvalue, ?_, hread⟩
  · have hlocal : some (.localCell i) ∈
        (Library.statements {} clobber).flatMap fun s => s.words.map Operand.ofWord? :=
      List.mem_flatMap.2 ⟨s, hs, List.mem_map.2 ⟨word, hword, hi⟩⟩
    simp [hnamed] at hlocal
  · rw [hsize, hheader, Statement.cells, if_pos hwrites]
    rfl

end Behavioral
