import Behavioral.Definition.Library
import Mathlib

/-!
# Composed functions

A function is built when it is a builtin, or composed of instructions that call built functions.
Composing checks every instruction (`compose_eq_ok`, `Checks.get`), so the header of each call has
the size that its callee expects, its operands name slots and locals that are there, and its jump
stays in the body. Whatever a library parses is built (`AllBuilt.parse`).
-/

namespace Behavioral

inductive Built : Function → Prop
  | builtin (b : Builtin) : Built (.builtin b)
  | composed {name : String} {localCount paramCount : Nat} {body : List (Instruction Function)}
      {c : Composed} : (∀ i ∈ body, Built i.callee) →
      Composition.compose name localCount paramCount body = .ok c → Built (.composed c)

/-- What composing checks of an operand; `previous` is the size of the segment before. -/
def Operand.Checked (paramCount localCount : Nat) (previous : Option Nat) : Operand → Prop
  | caller slot => slot = 0 ∨ (2 ≤ slot ∧ slot < 2 + paramCount)
  | localCell index => index < localCount
  | .previous slot => ∃ size, previous = some size ∧ slot < size

/-- What composing checks of an instruction at `pc` of a body of `length` instructions. -/
structure Instruction.Checked (paramCount localCount length pc : Nat) (previous : Option Nat)
    (i : Instruction Function) : Prop where
  arity : i.operands.length = 1 + i.callee.paramCount
  operands : ∀ o ∈ i.operands, o.Checked paramCount localCount previous
  jump : ∀ d, i.jump = some d → d ≠ 0 ∧ 0 ≤ (pc : Int) + d ∧ (pc : Int) + d ≤ length

namespace Composition

variable {name : String} {paramCount localCount length pc : Nat} {previous : Option Nat}
  {i : Instruction Function} {body rest : List (Instruction Function)} {c : Composed}

theorem operand_checked {o : Operand}
    (h : o.fault? name paramCount localCount pc previous = none) :
    o.Checked paramCount localCount previous := by
  cases o with
  | caller slot =>
    simp only [Operand.fault?, ite_eq_left_iff, reduceCtorEq, imp_false, not_not] at h
    exact h
  | localCell index =>
    simp only [Operand.fault?, ite_eq_left_iff, reduceCtorEq, imp_false, not_not] at h
    exact h
  | previous slot =>
    cases previous with
    | none => simp [Operand.fault?] at h
    | some size =>
      simp only [Operand.fault?, ite_eq_left_iff, reduceCtorEq, imp_false, not_not] at h
      exact ⟨size, rfl, h⟩

theorem jump_checked (h : i.jumpFault? name length pc = none) (d : Int) (hd : i.jump = some d) :
    d ≠ 0 ∧ 0 ≤ (pc : Int) + d ∧ (pc : Int) + d ≤ length := by
  rw [Instruction.jumpFault?, hd] at h
  cases hj : i.callee.jumps <;> simp only [hj] at h
  · cases h
  · split at h
    · cases h
    · omega

theorem instruction_checked
    (h : i.fault? name paramCount localCount length pc previous = none) :
    i.Checked paramCount localCount length pc previous := by
  simp only [Instruction.fault?] at h
  split at h
  · cases h
  · rename_i harity
    split at h
    · cases h
    · rename_i hoperands
      split at h
      · cases h
      · rename_i hjump
        refine ⟨not_not.1 harity, fun o ho => ?_, jump_checked hjump⟩
        exact operand_checked (List.findSome?_eq_none_iff.1 hoperands o ho)

/-- The instructions are checked from the `pc`th on. -/
def Checks (paramCount localCount length : Nat) :
    (pc : Nat) → (previous : Option Nat) → List (Instruction Function) → Prop
  | _, _, [] => True
  | pc, previous, i :: rest => i.Checked paramCount localCount length pc previous ∧
      Checks paramCount localCount length (pc + 1) (some i.callee.fieldSize) rest

theorem checks_of_bodyFault? : ∀ {pc : Nat} {previous : Option Nat}
    {body : List (Instruction Function)},
    bodyFault? name paramCount localCount length pc previous body = none →
      Checks paramCount localCount length pc previous body
  | _, _, [], _ => trivial
  | _, _, i :: rest, h => by
    rw [bodyFault?] at h
    split at h
    · cases h
    · rename_i hi
      exact ⟨instruction_checked hi, checks_of_bodyFault? h⟩

/-- A composed function and the checks that its body has passed. -/
theorem compose_eq_ok (h : compose name localCount paramCount body = .ok c) :
    Checks paramCount localCount body.length 0 none body ∧
      c = ⟨name, paramCount, localCount, body, 2 + paramCount + segmentsSize body,
        localCount + privateSize body⟩ := by
  unfold compose at h
  split at h
  · cases h
  · rename_i hfault
    simp only at h
    split at h
    · cases h
      exact ⟨checks_of_bodyFault? hfault, rfl⟩
    · cases h

/-- An instruction is checked against the segment of the one before. -/
theorem Checks.behind (h : Checks paramCount localCount length pc previous body) :
    ∀ {k : Nat}, body[k]? = some i → i.Checked paramCount localCount length (pc + k)
      (if k = 0 then previous else body[k - 1]?.map (·.callee.fieldSize)) := by
  induction body generalizing pc previous with
  | nil => simp
  | cons first rest ih =>
    intro k hk
    obtain _ | k := k
    · cases hk
      exact h.1
    · have hi := ih h.2 hk
      rw [show pc + 1 + k = pc + (k + 1) by omega] at hi
      obtain _ | k := k <;> simpa using hi

theorem Checks.get (h : Checks paramCount localCount length pc previous body) {k : Nat}
    (hk : body[k]? = some i) :
    ∃ before, i.Checked paramCount localCount length (pc + k) before :=
  ⟨_, h.behind hk⟩

/-- What composing leaves in a composed function. -/
structure WellComposed (c : Composed) : Prop where
  built : ∀ i ∈ c.body, Built i.callee
  checks : Checks c.paramCount c.localCount c.body.length 0 none c.body
  fieldSize : c.fieldSize = 2 + c.paramCount + segmentsSize c.body
  storageSize : c.storageSize = c.localCount + privateSize c.body

theorem wellComposed (h : Built (.composed c)) : WellComposed c := by
  rcases h with _ | ⟨hbody, hc⟩
  obtain ⟨hchecks, rfl⟩ := compose_eq_ok hc
  exact ⟨hbody, hchecks, rfl, rfl⟩

end Composition

namespace Draft

theorem bind_eq_ok {α β : Type} {x : Except Fault α} {f : α → Except Fault β} {b : β} :
    x >>= f = .ok b ↔ ∃ a, x = .ok a ∧ f a = .ok b := by
  cases x <;> simp [bind, Except.bind]

/-- Every line calls a built function. -/
def AllBuilt (d : Draft) : Prop :=
  ∀ line ∈ d.lines, Built line.instruction.callee

variable {d d' : Draft} {resolve : (line : Nat) → (name : String) → Except Fault Function}

theorem takeLabels_eq_ok {line : Nat} : ∀ {words rest : List String} {d d' : Draft},
    takeLabels line d words = .ok (d', rest) →
      rest = words.dropWhile (fun word => (label? word).isSome) ∧ d'.lines = d.lines ∧
        d'.literals = d.literals
  | [], _, _, _, h => by
    cases h
    exact ⟨rfl, rfl, rfl⟩
  | word :: words, rest, d, d', h => by
    rw [takeLabels] at h
    split at h
    · rename_i hlabel
      cases h
      exact ⟨by simp [hlabel], rfl, rfl⟩
    · rename_i label hlabel
      split at h
      · cases h
      · simpa [List.dropWhile_cons, hlabel] using takeLabels_eq_ok h

theorem callee_readInstruction {firstLocal line : Nat} {literals : List Float} {callee : Function}
    {operands : List String} {r : DraftLine × List Float}
    (h : readInstruction firstLocal literals line callee operands = .ok r) :
    r.1.instruction.callee = callee := by
  obtain ⟨words, -, h⟩ := bind_eq_ok.1 h
  obtain ⟨reading, -, h⟩ := bind_eq_ok.1 h
  cases h
  rfl

theorem AllBuilt.takeLine (hresolve : ∀ {line name f}, resolve line name = .ok f → Built f)
    {firstLocal : Nat} {line : Line} (hd : d.AllBuilt)
    (h : takeLine resolve firstLocal d line = .ok d') : d'.AllBuilt := by
  obtain ⟨⟨d₁, words⟩, hlabels, h⟩ := bind_eq_ok.1 h
  obtain ⟨-, hlines, -⟩ := takeLabels_eq_ok hlabels
  obtain _ | ⟨name, operands⟩ := words
  · cases h
    rwa [AllBuilt, hlines]
  · obtain ⟨callee, hcallee, h⟩ := bind_eq_ok.1 h
    obtain ⟨r, hread, h⟩ := bind_eq_ok.1 h
    cases h
    intro x hx
    simp only [hlines, List.mem_append, List.mem_singleton] at hx
    rcases hx with hx | rfl
    · exact hd x hx
    · rw [callee_readInstruction hread]
      exact hresolve hcallee

/-- What every line of a body keeps, with the lines before it, the whole body keeps. -/
theorem takeLines_induction {opening : Opening} {P : Draft → List Line → Prop}
    (step : ∀ {d d' : Draft} {before : List Line} {line : Line}, P d before →
      takeLine resolve opening.locals d line = .ok d' → P d' (before ++ [line])) :
    ∀ (before : List Line) {lines : List Line} {d d' : Draft}, P d before →
      takeLines resolve opening d lines = .ok d' → P d' (before ++ lines.takeWhile (!isEnd ·))
  | _, [], _, _, _, h => by cases h
  | before, line :: rest, d, d', hd, h => by
    unfold takeLines at h
    split at h
    · rename_i hend
      split at h
      · cases h
        simpa [hend] using hd
      · cases h
    · rename_i hend
      obtain ⟨d₁, hline, hrest⟩ := bind_eq_ok.1 h
      have hlater := takeLines_induction step _ (step hd hline) hrest
      simpa [List.takeWhile_cons, hend] using hlater

theorem AllBuilt.takeLines (hresolve : ∀ {line name f}, resolve line name = .ok f → Built f)
    {opening : Opening} {lines : List Line} (hd : d.AllBuilt)
    (h : takeLines resolve opening d lines = .ok d') : d'.AllBuilt :=
  takeLines_induction (P := fun d _ => d.AllBuilt) (fun hd hline => hd.takeLine hresolve hline) []
    hd h

/-- What a line is at `pc` of the body: its instruction, with a jump to its label if it names one. -/
def Settled (labels : List (String × Nat)) (pc : Nat) (line : DraftLine)
    (i : Instruction Function) : Prop :=
  (line.label = none ∧ i = line.instruction) ∨
    ∃ label target, line.label = some label ∧ labels.lookup (capitals label) = some target ∧
      i = { line.instruction with jump := some ((target : Int) - pc) }

theorem Settled.unchanged {labels : List (String × Nat)} {pc : Nat} {line : DraftLine}
    {i : Instruction Function} (h : Settled labels pc line i) :
    i.callee = line.instruction.callee ∧ i.operands = line.instruction.operands ∧
      i.constants = line.instruction.constants := by
  rcases h with ⟨-, rfl⟩ | ⟨label, target, -, -, rfl⟩ <;> exact ⟨rfl, rfl, rfl⟩

theorem settleJumps_eq (labels : List (String × Nat)) (pc : Nat) (line : DraftLine)
    (rest : List DraftLine) : settleJumps labels pc (line :: rest) =
      settleJump labels pc line >>= fun i =>
        settleJumps labels (pc + 1) rest >>= fun after => .ok (i :: after) := rfl

theorem displacement_eq_ok {pc target : Nat} {d : Int} (h : displacement pc target = .ok d) :
    d = (target : Int) - pc := by
  unfold displacement at h
  split at h
  · exact (Except.ok.inj h).symm
  · cases h

theorem settled_of_settleJump {labels : List (String × Nat)} {pc : Nat} {line : DraftLine}
    {i : Instruction Function} (h : settleJump labels pc line = .ok i) :
    Settled labels pc line i := by
  unfold settleJump at h
  split at h
  · next hlabel => exact .inl ⟨hlabel, (Except.ok.inj h).symm⟩
  · next label hlabel =>
    split at h
    · next target htarget =>
      rcases hd : displacement pc target with f | d
      · rw [hd] at h
        cases h
      · rw [hd] at h
        cases h
        exact .inr ⟨label, target, hlabel, htarget, by rw [displacement_eq_ok hd]⟩
    · cases h

theorem settleJumps_cons {labels : List (String × Nat)} {pc : Nat} {line : DraftLine}
    {rest : List DraftLine} {body : List (Instruction Function)}
    (h : settleJumps labels pc (line :: rest) = .ok body) :
    ∃ i after, body = i :: after ∧ settleJumps labels (pc + 1) rest = .ok after ∧
      Settled labels pc line i := by
  rw [settleJumps_eq] at h
  obtain ⟨i, hi, h⟩ := bind_eq_ok.1 h
  obtain ⟨after, hafter, h⟩ := bind_eq_ok.1 h
  exact ⟨i, after, (Except.ok.inj h).symm, hafter, settled_of_settleJump hi⟩

theorem settleJumps_built {labels : List (String × Nat)} : ∀ {pc : Nat} {lines : List DraftLine}
    {body : List (Instruction Function)}, (∀ line ∈ lines, Built line.instruction.callee) →
      settleJumps labels pc lines = .ok body → ∀ i ∈ body, Built i.callee
  | _, [], _, _, h => by
    cases h
    simp
  | pc, line :: rest, body, hlines, h => by
    obtain ⟨hline, hrest⟩ := List.forall_mem_cons.1 hlines
    obtain ⟨i, after, rfl, hafter, hi⟩ := settleJumps_cons h
    refine List.forall_mem_cons.2 ⟨?_, settleJumps_built hrest hafter⟩
    rw [hi.unchanged.1]
    exact hline

theorem AllBuilt.instructions {opening : Opening} {body : List (Instruction Function)}
    (hd : d.AllBuilt) (h : d.instructions opening = .ok body) : ∀ i ∈ body, Built i.callee := by
  unfold Draft.instructions at h
  split at h
  · cases h
  · obtain ⟨rest, hrest, h⟩ := bind_eq_ok.1 h
    cases h
    intro i hi
    rcases List.mem_append.1 hi with hi | hi
    · simp only [loads, List.mem_map] at hi
      obtain ⟨value, -, rfl⟩ := hi
      exact .builtin .constant
    · exact settleJumps_built hd hrest i hi

end Draft

namespace Library

/-- Every function of the library is built. -/
def AllBuilt (l : Library) : Prop :=
  ∀ p ∈ l.functions, Built (.composed p.2)

theorem allBuilt_empty : AllBuilt {} :=
  nofun

theorem AllBuilt.resolve {l : Library} (hl : l.AllBuilt) {line : Nat} {name : String} {f : Function}
    (h : l.resolve line name = .ok f) : Built f := by
  unfold Library.resolve at h
  simp only at h
  split at h
  · rename_i g hfound
    cases h
    split at hfound
    · obtain ⟨b, -, rfl⟩ := Option.map_eq_some_iff.1 hfound
      exact .builtin b
    · obtain ⟨c, hc, rfl⟩ := Option.map_eq_some_iff.1 hfound
      obtain ⟨before, after, hsplit, -⟩ := List.lookup_eq_some_iff.1 hc
      exact hl (capitals name, c) (by simp [hsplit])
  · cases h

/-- What a library of built functions parses is built. -/
theorem AllBuilt.parse {l : Library} (hl : l.AllBuilt) {text : String} {c : Composed}
    (h : l.parse text = .ok c) : Built (.composed c) := by
  unfold Library.parse at h
  split at h
  · cases h
  · obtain ⟨opening, -, h⟩ := Draft.bind_eq_ok.1 h
    obtain ⟨draft, hdraft, h⟩ := Draft.bind_eq_ok.1 h
    obtain ⟨body, hbody, h⟩ := Draft.bind_eq_ok.1 h
    have hlines : draft.AllBuilt :=
      Draft.AllBuilt.takeLines (fun h => hl.resolve h) (by simp [Draft.AllBuilt]) hdraft
    exact .composed (hlines.instructions hbody) h

/-- Definitions keep a library built. -/
theorem AllBuilt.define {l l' : Library} (hl : l.AllBuilt) {text : String} {c : Composed}
    (h : l.define text = .ok (c, l')) : l'.AllBuilt := by
  obtain ⟨f, hf, h⟩ := Draft.bind_eq_ok.1 h
  split at h
  · cases h
  · cases h
    exact List.forall_mem_cons.2 ⟨hl.parse hf, hl⟩

end Library

end Behavioral
