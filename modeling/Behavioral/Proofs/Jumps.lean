import Behavioral.Machine.Execution
import Behavioral.Proofs.Statements

/-!
# What a definition is read as

The loads of the hidden locals stand in front of the body, one for each bit pattern among the
literals, in the order of their first use (`Library.toBits_hidden`). Behind them is an instruction
for each instruction line, with its literals in those locals and its names as they are
(`parse_body`). The loads shift the lines and the places of the labels alike, so a jump goes to the
first instruction line at or behind its label, or to the end, and never to a load (`LandsOn`).
-/

namespace Behavioral

open Library

variable {l : Library} {text : String} {c : Composed}

namespace Draft

theorem toBits_withLiteral (literals : List Float) (value : Float) :
    (withLiteral literals value).map Float.toBits = literals.map Float.toBits ++
      if value.toBits ∈ literals.map Float.toBits then [] else [value.toBits] := by
  unfold withLiteral literalIndex
  split
  · rename_i k hk
    obtain ⟨hlt, heq, -⟩ := List.findIdx?_eq_some_iff_getElem.1 hk
    have hmem : value.toBits ∈ literals.map Float.toBits :=
      List.mem_map.2 ⟨_, List.getElem_mem hlt, beq_iff_eq.1 heq⟩
    rw [if_pos hmem, List.append_nil]
  · rename_i hnone
    have hnew : value.toBits ∉ literals.map Float.toBits := by
      intro hmem
      obtain ⟨x, hx, heq⟩ := List.mem_map.1 hmem
      have hfound := List.findIdx?_eq_none_iff.1 hnone x hx
      simp [heq] at hfound
    rw [if_neg hnew, List.map_append, List.map_singleton]

/-- The values that find room are the bit patterns, each where it is used first. -/
theorem toBits_foldl_withLiteral (values : List Float) :
    (values.foldl withLiteral []).map Float.toBits = (values.map Float.toBits).eraseDups := by
  induction values using List.reverseRecOn with
  | nil => rfl
  | append_singleton values value ih =>
    rw [List.foldl_append, List.foldl_cons, List.foldl_nil, toBits_withLiteral, ih, List.map_append,
      List.map_singleton, List.eraseDups_append, List.removeAll, List.filter_singleton]
    by_cases hmem : value.toBits ∈ values.map Float.toBits
    · rw [if_pos (List.mem_eraseDups.2 hmem)]
      simp [hmem]
    · rw [if_neg fun h => hmem (List.mem_eraseDups.1 h)]
      simp [hmem, List.eraseDups_cons]

end Draft

theorem Library.toBits_hidden : (l.hidden text).map Float.toBits =
    (((l.statements text).flatMap Statement.literals).map Float.toBits).eraseDups :=
  Draft.toBits_foldl_withLiteral _

/-- The instruction line at the place of a label is the first one at or behind it. -/
theorem getElem?_countP {before after : List Line} {line : Line} :
    ((before ++ line :: after).filter Line.isInstruction)[before.countP Line.isInstruction]? =
      (line :: after).find? Line.isInstruction := by
  rw [List.filter_append, List.countP_eq_length_filter, List.getElem?_append_right le_rfl,
    Nat.sub_self, ← List.head?_eq_getElem?, List.head?_filter]

/-- Behind `k` loads, a jump by `d` from the instruction line `q` goes to the first instruction line
at or behind the label, or to the end. -/
structure LandsOn (text : String) (k q : Nat) (label : String) (d : Int) : Prop where
  defined : ∃ line ∈ bodyLines text, capitals label ∈ line.labels.map capitals
  lands : ∀ before line after, bodyLines text = before ++ line :: after →
    capitals label ∈ line.labels.map capitals →
      ((k + q : Nat) : Int) + d = (k + before.countP Line.isInstruction : Nat) ∧
      (instructionLines text)[before.countP Line.isInstruction]? =
        (line :: after).find? Line.isInstruction
  inside : (k : Int) ≤ (k + q : Nat) + d ∧
    ((k + q : Nat) : Int) + d ≤ (k + (instructionLines text).length : Nat)
  frame : ∀ f : Frame, f.pc = k + q → ((f.jump d).pc : Int) = (k + q : Nat) + d

theorem pc_jump (f : Frame) (d : Int) : (f.jump d).pc = ((f.pc : Int) + d).toNat := by
  unfold Frame.jump
  dsimp only
  split <;> rfl

namespace Library.Accepts

variable {opening : Opening} {instructions : List (Instruction Function)}

/-- A place of a label is where a jump to it lands. -/
theorem landsOn (h : l.Accepts text opening c instructions) {label : String} {target : Nat}
    (hplace : Places (bodyLines text) (capitals label) target) (k q : Nat) :
    LandsOn text k q label ((target : Int) - q) := by
  have hinside := hplace.le
  rw [List.countP_eq_length_filter, ← instructionLines] at hinside
  refine ⟨?_, fun before line after hsplit hdefines => ?_, by omega, fun f hf => ?_⟩
  · obtain ⟨before, line, after, hsplit, hdefines, -⟩ := hplace
    exact ⟨line, by simp [hsplit], hdefines⟩
  · have htarget := h.unique _ _ _ hplace ⟨before, line, after, hsplit, hdefines, rfl⟩
    refine ⟨by omega, ?_⟩
    rw [instructionLines, hsplit]
    exact getElem?_countP
  · rw [pc_jump, hf]
    omega

/-- The statements are those of the instruction lines, in turn. -/
theorem statements (h : l.Accepts text opening c instructions) :
    List.Forall₂ (fun line s => l.statement? line = some s) (instructionLines text)
      (l.statements text) := by
  have hsome (line : Line) (hline : line ∈ instructionLines text) :
      ∃ s, l.statement? line = some s ∧ l.statement? line = some s := by
    obtain ⟨q, hq⟩ := List.getElem?_of_mem hline
    obtain ⟨i, -, s, hs, -⟩ := exists_getElem?_of_forall₂ h.lines hq
    exact ⟨s, hs, hs⟩
  exact (forall₂_statements (List.forall₂_same.2 hsome)).flip

/-- A slot of the instruction before is one of the line before. -/
theorem previous (h : l.Accepts text opening c instructions) {q : Nat}
    {i : Instruction Function} (hi : instructions[q]? = some i) {slot : Nat}
    (hslot : .previous slot ∈ i.operands) :
    0 < q ∧ ∃ before, c.body[(l.hidden text).length + q - 1]? = some before ∧
      slot < before.callee.fieldSize := by
  have hbody : c.body[(l.hidden text).length + q]? = some i := (h.getElem?_body q).trans hi
  obtain ⟨size, hsize, hlt⟩ := (h.checks.behind hbody).operands _ hslot
  have hfirst : (l.hidden text).length + q ≠ 0 := by
    intro hzero
    rw [if_pos hzero] at hsize
    cases hsize
  rw [if_neg hfirst] at hsize
  obtain ⟨before, hbefore, rfl⟩ := Option.map_eq_some_iff.1 hsize
  refine ⟨Nat.pos_of_ne_zero ?_, before, hbefore, hlt⟩
  rintro rfl
  have hliterals : l.hidden text ≠ [] := List.ne_nil_of_length_pos (Nat.pos_of_ne_zero hfirst)
  cases h.leading hliterals i hi _ hslot

end Library.Accepts

/-- The body of an accepted definition: a load for each literal, and then each instruction line with
its literals in the hidden locals, the slots before it those of the line before, and its jump to the
first instruction line at or behind its label. -/
theorem parse_body (h : l.parse text = .ok c) :
    ∃ opening, Opening.ofText? text = some opening ∧
      (l.hidden text).map Float.toBits =
        (((l.statements text).flatMap Statement.literals).map Float.toBits).eraseDups ∧
      c.paramCount = opening.params ∧
      c.localCount = opening.locals + (l.hidden text).length ∧
      c.body.length = (l.hidden text).length + (instructionLines text).length ∧
      (∀ (j : Nat) value, (l.hidden text)[j]? = some value → c.body[j]? =
        some ⟨.builtin .constant, [.localCell (opening.locals + j)], [value], none⟩) ∧
      ∀ (q : Nat) line, (instructionLines text)[q]? = some line → ∃ s i,
        l.statement? line = some s ∧ (l.statements text)[q]? = some s ∧
        c.body[(l.hidden text).length + q]? = some i ∧
        s.ReadAs opening.locals (l.hidden text) i ∧
        (∀ slot, .previous slot ∈ i.operands → 0 < q ∧ ∃ before,
          c.body[(l.hidden text).length + q - 1]? = some before ∧
            slot < before.callee.fieldSize) ∧
        (i.callee.jumps = false → i.jump = none) ∧
        (i.callee.jumps = true → ∃ label d, l.jumpLabel? line = some label ∧ i.jump = some d ∧
          LandsOn text (l.hidden text).length q label d) := by
  obtain ⟨opening, instructions, haccepts⟩ := accepts_of_parse h
  refine ⟨opening, haccepts.opened, toBits_hidden, haccepts.paramCount, haccepts.localCount, ?_,
    fun j value hvalue => haccepts.load hvalue, fun q line hline => ?_⟩
  · rw [haccepts.body, List.length_append, Draft.loads, List.length_map, List.length_zipIdx,
      haccepts.lines.length_eq]
  · obtain ⟨i, hi, s, hs, hreads⟩ := exists_getElem?_of_forall₂ haccepts.lines hline
    obtain ⟨s', hs', hsame⟩ := exists_getElem?_of_forall₂ haccepts.statements hline
    obtain rfl : s = s' := Option.some_injective _ (hs.symm.trans hsame)
    refine ⟨s, i, hs, hs', (haccepts.getElem?_body q).trans hi, hreads,
      fun slot hslot => haccepts.previous hi hslot, ?_⟩
    rcases haccepts.settled q line i hline hi with ⟨hcallee, -, hjump⟩ |
      ⟨hcallee, label, target, hlabel, hplace, hjump⟩
    · exact ⟨fun _ => hjump, fun hjumps => absurd hjumps (by simp [hcallee])⟩
    · exact ⟨fun hjumps => absurd hjumps (by simp [hcallee]),
        fun _ => ⟨label, _, hlabel, hjump, haccepts.landsOn hplace _ q⟩⟩

/-- Doubles one and adds one, again until it is not less than its parameter. -/
def rise : String :=
  ".FUNC rise PARAMS=1 LOCALS=1\n_MOV RET 1\nup: again:\n_MUL V0 RET 2\n_ADD RET F0 1\n" ++
    "_JLT RET P0 AGAIN\n.ENDF"

deriving instance DecidableEq for Line

theorem parse_body_rise : ∃ c, parse {} rise = .ok c ∧ c.localCount = 3 ∧ c.body.length = 6 ∧
    c.body[1]? = some ⟨.builtin .constant, [.localCell 2], [2], none⟩ ∧
    ∃ i, c.body[5]? = some i ∧ i.jump = some (-2) := by
  have hparsed : (parse {} rise).toOption.map (·.localCount) = some 3 := by decide +kernel
  have hhidden : hidden {} rise = [1, 2] := by decide +kernel
  have hlocals : (Opening.ofText? rise).map Opening.locals = some 1 := by decide +kernel
  have hlines : bodyLines rise = [⟨2, "_MOV RET 1".toList⟩, ⟨3, "up: again:".toList⟩,
      ⟨4, "_MUL V0 RET 2".toList⟩, ⟨5, "_ADD RET F0 1".toList⟩,
      ⟨6, "_JLT RET P0 AGAIN".toList⟩] := by
    decide +kernel
  have hjump : (instructionLines rise)[3]?.map (jumpLabel? {}) = some (some "AGAIN") := by
    decide +kernel
  have hcallee : (instructionLines rise)[3]?.map (fun line =>
      (statement? {} line).map (·.callee.jumps)) = some (some true) := by decide +kernel
  obtain ⟨c, hc, hcount⟩ := exists_ok_of_map hparsed
  obtain ⟨opening, hopening, -, -, -, hlength, hload, hbody⟩ := parse_body hc
  rw [hhidden] at hlength hload hbody
  rw [hopening, Option.map_some, Option.some_inj] at hlocals
  obtain ⟨line, hline, hlabel⟩ := Option.map_eq_some_iff.1 hjump
  obtain ⟨s, i, hs, -, hi, hreads, -, -, hjumps⟩ := hbody 3 line hline
  rw [hline, Option.map_some, hs, Option.map_some, Option.some_inj, Option.some_inj,
    ← hreads.callee] at hcallee
  obtain ⟨label, d, hlabel', hd, hlands⟩ := hjumps hcallee
  rw [hlabel] at hlabel'
  cases hlabel'
  have htarget := (hlands.lands [_] _ _ hlines (by decide +kernel)).1
  have hplace : [(⟨2, "_MOV RET 1".toList⟩ : Line)].countP Line.isInstruction = 1 := by
    decide +kernel
  have hlineCount : (instructionLines rise).length = 4 := by decide +kernel
  rw [hplace] at htarget
  have hload := hload 1 2 rfl
  rw [hlocals] at hload
  obtain rfl : d = -2 := by simp only [List.length_cons, List.length_nil] at htarget; omega
  exact ⟨c, hc, hcount, by rw [hlength, hlineCount]; rfl, hload, i, hi, hd⟩

end Behavioral
