import Behavioral.Proofs.Placing

/-!
# The cursors of a run

A frame keeps an instruction number and the start of that instruction's segment, and moves both
without looking whether they are still in the function or belong together. That they do follows from
what composing has checked, whatever the instructions answer: a turn of the loop goes from a place
of the body to another, or past its end (`Frame.Placed.turn`), and so does any number of turns
(`placed_of_reaches`). Every frame of a machine that runs a composed function is at such a place
(`Anchored.run`).
-/

namespace Behavioral

open Behavioral.Composition

variable {c d : Composed} {f f' : Frame} {i : Instruction Function} {origin size k : Nat}
  {control : Control} {field : Array Nat} {s : State} {name : String}
  {localCount paramCount : Nat} {body : List (Instruction Function)}

/-- An instruction goes on, leaves its function, jumps by its own displacement, or is stuck. -/
inductive Instruction.Answers (i : Instruction Function) : Control → Prop
  | next : Answers i .next
  | leave : Answers i .leave
  | jump {displacement : Int} : i.jump = some displacement → Answers i (.jump displacement)
  | stuck : Answers i .stuck

namespace Frame

/-- One turn of the loop of a function: from an instruction to where its answer leads. -/
def Turns (f f' : Frame) : Prop :=
  ∃ i control, f.function.body[f.pc]? = some i ∧ i.Answers control ∧
    f.follow i.callee.fieldSize [] control = [f']

/-- Both cursors of a frame of `c` are at an instruction or past the last one, its segment is
in the `size` offsets of the field, and wherever its jump leads is such a place again. -/
structure Placed (c : Composed) (start size : Nat) (f : Frame) : Prop where
  function : f.function = c
  origin : f.origin = start
  pc_le : f.pc ≤ c.body.length
  base_eq : f.base = start + (2 + c.paramCount) + segmentsSize (c.body.take f.pc)
  segment : ∀ i, c.body[f.pc]? = some i → f.base + i.callee.fieldSize ≤ size
  target : ∀ i displacement, c.body[f.pc]? = some i → i.jump = some displacement →
    0 ≤ (f.pc : Int) + displacement ∧ (f.pc : Int) + displacement ≤ c.body.length
  /-- Going back over segments takes no more from the base than is there, after any of them. -/
  back : ∀ target passed, target + passed ≤ f.pc →
    start + segmentsSize ((c.body.drop target).take passed) ≤ f.base

theorem segmentsSize_take_le (body : List (Instruction Function)) (k : Nat) :
    segmentsSize (body.take k) ≤ segmentsSize body := by
  have hsizes := segmentsSize_append (body.take k) (body.drop k)
  rw [List.take_append_drop] at hsizes
  omega

theorem segmentsSize_take_mono {j : Nat} (hjk : j ≤ k) (body : List (Instruction Function)) :
    segmentsSize (body.take j) ≤ segmentsSize (body.take k) := by
  have hle := segmentsSize_take_le (body.take k) j
  rwa [List.take_take, Nat.min_eq_left hjk] at hle

/-- An answer leads to one place at most. -/
theorem follow_eq_of_mem (h : f' ∈ f.follow size [] control) :
    f.follow size [] control = [f'] := by
  rcases control with _ | _ | displacement | _
  · rw [List.mem_singleton.1 h]
    rfl
  · cases h
  · rw [Frame.follow] at h ⊢
    split at h
    · rename_i hzero
      rw [if_pos hzero, List.mem_singleton.1 h]
    · rename_i hzero
      rw [if_neg hzero, List.mem_singleton.1 h]
  · rw [List.mem_singleton.1 h]
    rfl

/-- The segment of an instruction ends in the field of its function. -/
theorem segment_le (hi : c.body[k]? = some i) :
    segmentsSize (c.body.take k) + i.callee.fieldSize ≤ segmentsSize c.body := by
  rw [← segmentsSize_take_succ hi]
  exact segmentsSize_take_le c.body (k + 1)

theorem placed_reached (hchecks : Checks c.paramCount c.localCount c.body.length 0 none c.body)
    (hsize : c.fieldSize = 2 + c.paramCount + segmentsSize c.body)
    (hfield : origin + c.fieldSize ≤ size) (hk : k ≤ c.body.length) :
    (reached c origin k).Placed c origin size where
  function := rfl
  origin := rfl
  pc_le := hk
  base_eq := rfl
  segment i hi := by
    have hend := segment_le hi
    simp only [reached] at hend ⊢
    omega
  target i displacement hi hjump := by
    obtain ⟨before, hchecked⟩ := hchecks.get hi
    rw [Nat.zero_add] at hchecked
    exact (hchecked.jump displacement hjump).2
  back target passed hle := by
    have hadd := segmentsSize_take_add c.body target passed
    have hmono := segmentsSize_take_mono hle c.body
    simp only [reached] at hmono ⊢
    omega

theorem Placed.eq_reached (h : f.Placed c origin size) : f = reached c origin f.pc := by
  obtain ⟨function, start, pc, base⟩ := f
  obtain rfl : function = c := h.function
  obtain rfl : start = origin := h.origin
  exact congrArg (Frame.mk function start pc) h.base_eq

/-- Where an answer leads, if it stays in the function. -/
theorem Placed.follow (h : f.Placed c origin size) (hi : c.body[f.pc]? = some i)
    (hcontrol : i.Answers control) (hf' : f' ∈ f.follow i.callee.fieldSize [] control) :
    ∃ k ≤ c.body.length, f' = reached c origin k := by
  obtain ⟨hlt, -⟩ := List.getElem?_eq_some_iff.1 hi
  have hnext : f.advance i.callee.fieldSize = reached c origin (f.pc + 1) := by
    conv_lhs => rw [h.eq_reached]
    exact advance_reached hi
  cases hcontrol with
  | next =>
    obtain rfl := List.mem_singleton.1 hf'
    exact ⟨f.pc + 1, hlt, hnext⟩
  | leave => cases hf'
  | @jump displacement hjump =>
    rw [Frame.follow] at hf'
    split at hf'
    · obtain rfl := List.mem_singleton.1 hf'
      exact ⟨f.pc + 1, hlt, hnext⟩
    · obtain rfl := List.mem_singleton.1 hf'
      obtain ⟨hnonneg, hle⟩ := h.target i displacement hi hjump
      refine ⟨((f.pc : Int) + displacement).toNat, by omega, ?_⟩
      conv_lhs => rw [h.eq_reached]
      exact jump_reached displacement
  | stuck =>
    obtain rfl := List.mem_singleton.1 hf'
    exact ⟨f'.pc, h.pc_le, h.eq_reached⟩

theorem Placed.turn (hchecks : Checks c.paramCount c.localCount c.body.length 0 none c.body)
    (hsize : c.fieldSize = 2 + c.paramCount + segmentsSize c.body)
    (hfield : origin + c.fieldSize ≤ size) (h : f.Placed c origin size) (hturn : f.Turns f') :
    f'.Placed c origin size := by
  obtain ⟨i, control, hi, hcontrol, hfollow⟩ := hturn
  rw [h.function] at hi
  obtain ⟨k, hk, rfl⟩ := h.follow hi hcontrol (hfollow ▸ List.mem_singleton_self f')
  exact placed_reached hchecks hsize hfield hk

end Frame

/-- A function that composing accepts keeps its cursors together, whatever its instructions
answer. -/
theorem placed_of_reaches (hchecks : Checks c.paramCount c.localCount c.body.length 0 none c.body)
    (hsize : c.fieldSize = 2 + c.paramCount + segmentsSize c.body)
    (hfield : origin + c.fieldSize ≤ size)
    (h : Relation.ReflTransGen Frame.Turns (Frame.enter c origin) f) : f.Placed c origin size := by
  induction h with
  | refl => exact Frame.placed_reached hchecks hsize hfield (Nat.zero_le _)
  | tail _ hturn ih => exact ih.turn hchecks hsize hfield hturn

/-! ### The machine -/

/-- A frame that the loop of a built function reaches, whose index field is in the machine's. -/
structure Anchored (size : Nat) (f : Frame) : Prop where
  reached : ∃ c origin, Built (.composed c) ∧ origin + c.fieldSize ≤ size ∧
    Relation.ReflTransGen Frame.Turns (Frame.enter c origin) f

theorem Anchored.placed (h : Anchored size f) :
    Built (.composed f.function) ∧ ∃ origin, origin + f.function.fieldSize ≤ size ∧
      f.Placed f.function origin (origin + f.function.fieldSize) := by
  obtain ⟨c, origin, hc, hfield, hreaches⟩ := h.reached
  have hcomposed := wellComposed hc
  have hplaced := placed_of_reaches hcomposed.checks hcomposed.fieldSize le_rfl hreaches
  rw [hplaced.function]
  exact ⟨hc, origin, hfield, hplaced⟩

theorem Anchored.turn (h : Anchored size f) (hturn : f.Turns f') : Anchored size f' := by
  obtain ⟨c, origin, hc, hfield, hreaches⟩ := h.reached
  exact ⟨c, origin, hc, hfield, hreaches.tail hturn⟩

/-- A called function finds its index field in the segment of the call. -/
theorem Anchored.enter (h : Anchored size f) (hi : f.function.body[f.pc]? = some i)
    (hd : i.callee = .composed d) : Anchored size (Frame.enter d f.base) := by
  obtain ⟨hc, origin, hfield, hplaced⟩ := h.placed
  have hbuilt := (wellComposed hc).built i (List.mem_of_getElem? hi)
  have hsegment := (hplaced.segment i hi).trans hfield
  rw [hd] at hbuilt hsegment
  exact ⟨d, f.base, hbuilt, hsegment, .refl⟩

theorem Anchored.follow (h : Anchored size f) (hi : f.function.body[f.pc]? = some i)
    (hcontrol : i.Answers control) (hf' : f' ∈ f.follow i.callee.fieldSize [] control) :
    Anchored size f' :=
  h.turn ⟨i, control, hi, hcontrol, Frame.follow_eq_of_mem hf'⟩

theorem Anchored.step (h : ∀ f ∈ s.frames, Anchored field.size f) :
    ∀ f ∈ (s.step field).frames, Anchored field.size f := by
  obtain ⟨frames, memory⟩ := s
  rcases frames with _ | ⟨f, outer⟩
  · exact h
  · obtain ⟨hf, houter⟩ := List.forall_mem_cons.1 h
    unfold State.step
    simp only
    rcases hi : f.function.body[f.pc]? with _ | i
    · exact houter
    · obtain ⟨callee, operands, constants, jump⟩ := i
      rcases callee with b | d
      · have hanswer : (Instruction.mk (.builtin b) operands constants jump).Answers
            (b.run constants jump (headerAt field f.base b.fieldSize) memory).1 := by
          rcases hrun : (b.run constants jump (headerAt field f.base b.fieldSize) memory).1 with
            _ | _ | displacement | _
          · exact .next
          · exact .leave
          · exact .jump (Builtin.jump_eq_of_run hrun)
          · exact .stuck
        simp only
        rw [← List.nil_append outer, Frame.follow_append]
        intro g hg
        rcases List.mem_append.1 hg with hg | hg
        · exact hf.follow hi hanswer hg
        · exact houter g hg
      · refine List.forall_mem_cons.2 ⟨hf.enter hi rfl, List.forall_mem_cons.2 ⟨?_, houter⟩⟩
        exact hf.follow hi .next (List.mem_singleton_self _)

theorem Anchored.run (h : ∀ f ∈ s.frames, Anchored field.size f) (n : Nat) :
    ∀ f ∈ (s.run field n).frames, Anchored field.size f := by
  induction n generalizing s with
  | zero => exact h
  | succ n ih =>
    rw [State.run_succ]
    exact ih (Anchored.step h)

/-- A composed function whose index field is in the given one keeps its cursors together whatever
its instructions answer, and a machine that runs it does so in every frame: each is placed in its
own part of the field. -/
theorem frames_placed (hc : compose name localCount paramCount body = .ok c) :
    (∀ {origin size : Nat} {f : Frame}, origin + c.fieldSize ≤ size →
      Relation.ReflTransGen Frame.Turns (Frame.enter c origin) f → f.Placed c origin size) ∧
    ((∀ i ∈ body, Built i.callee) → ∀ (field : Array Nat) (memory : Memory) (n : Nat),
      c.fieldSize ≤ field.size →
      ∀ f ∈ (State.run field n ⟨[Frame.enter c 0], memory⟩).frames, ∃ d origin,
        origin + d.fieldSize ≤ field.size ∧ f.Placed d origin (origin + d.fieldSize)) := by
  constructor
  · obtain ⟨hchecks, rfl⟩ := compose_eq_ok hc
    exact fun hfield => placed_of_reaches hchecks rfl hfield
  · intro hbody field memory n hfield f hf
    have henter : Anchored field.size (Frame.enter c 0) :=
      ⟨c, 0, .composed hbody hc, by omega, .refl⟩
    have hanchored := Anchored.run (s := ⟨[Frame.enter c 0], memory⟩)
      (List.forall_mem_cons.2 ⟨henter, List.forall_mem_nil _⟩) n f hf
    exact ⟨f.function, hanchored.placed.2⟩

/-- The loop of `again` reaches its jump back, and is in place there and in the calls it makes. -/
theorem frames_placed_again :
    let back : Frame := ⟨again, 0, 2, 13⟩
    let field := ((Function.composed again).layout [0, 2, 1]).toArray
    compose "again" 0 1 again.body = .ok again ∧ (∀ i ∈ again.body, Built i.callee) ∧
      Relation.ReflTransGen Frame.Turns (Frame.enter again 0) back ∧
      back.Turns (Frame.enter again 0) ∧ back.Placed again 0 15 ∧ again.fieldSize ≤ field.size ∧
      ∀ f ∈ (State.run field 6 ⟨[Frame.enter again 0], ⟨#[0, 3], {}⟩⟩).frames, ∃ d origin,
        origin + d.fieldSize ≤ field.size ∧ f.Placed d origin (origin + d.fieldSize) := by
  intro back field
  have hc : compose "again" 0 1 again.body = .ok again := rfl
  have hbody : ∀ i ∈ again.body, Built i.callee := (wellComposed built_again).built
  have hcall : (Frame.enter again 0).Turns ⟨again, 0, 1, 10⟩ :=
    ⟨_, .next, rfl, .next, rfl⟩
  have hmove : Frame.Turns ⟨again, 0, 1, 10⟩ back := ⟨_, .next, rfl, .next, rfl⟩
  have hback : Relation.ReflTransGen Frame.Turns (Frame.enter again 0) back :=
    .tail (.single hcall) hmove
  have hjump : back.Turns (Frame.enter again 0) := ⟨_, .jump (-2), rfl, .jump rfl, rfl⟩
  have hfield : again.fieldSize ≤ field.size := by decide
  have hplaced := frames_placed hc
  exact ⟨hc, hbody, hback, hjump, hplaced.1 le_rfl hback, hfield,
    hplaced.2 hbody field ⟨#[0, 3], {}⟩ 6 hfield⟩

end Behavioral
