import Behavioral.Stream.Sink
import Mathlib.Data.List.OfFn

/-!
# Framed messages

What is emitted is a row of messages that is fixed beforehand: one that opens it, one for each atom
or instruction in the order of their numbers, and one that ends it (`AtomTable.messages_eq`,
`Composition.messages_eq`). A sink takes all of the row, or what stands in front of the first
message that it refuses (`Sink.delivers_iff`).

A frame says where it ends, so the expressions in a log can be told apart again: whoever reads the
log finds the names, the atoms and the roots that were emitted (`expressions?_emitAll`).
-/

namespace Behavioral

variable {σ : Type} {sink : Sink σ} {row rest : List Message} {m : Message} {fault : Fault}
  {taken between after : σ} {outcome : Option Fault × σ} {t : AtomTable} {name : String}

/-! ### Delivery -/

namespace Sink

/-- The messages are taken one after the other. -/
inductive Takes (sink : Sink σ) : σ → List Message → σ → Prop
  | nil {taken : σ} : Takes sink taken [] taken
  | cons {taken between after : σ} {m : Message} {rest : List Message} :
      sink m taken = .ok between → Takes sink between rest after →
        Takes sink taken (m :: rest) after

/-- How sending a row may end: all of it is taken, or what stands in front of the first message that
is refused. -/
inductive Delivers (sink : Sink σ) (row : List Message) (taken : σ) : Option Fault × σ → Prop
  | all {after : σ} : sink.Takes taken row after → Delivers sink row taken (none, after)
  | refused {sent unsent : List Message} {m : Message} {fault : Fault} {after : σ} :
      row = sent ++ m :: unsent → sink.Takes taken sent after → sink m after = .error fault →
        Delivers sink row taken (some fault, after)

theorem sendAll_of_ok (h : sink m taken = .ok between) :
    sink.sendAll (m :: rest) taken = sink.sendAll rest between := by
  rw [sendAll, h]

theorem sendAll_of_error (h : sink m taken = .error fault) :
    sink.sendAll (m :: rest) taken = (some fault, taken) := by
  rw [sendAll, h]

/-- Messages that are taken go ahead of the others. -/
theorem Takes.sendAll_append (h : sink.Takes taken row between) :
    sink.sendAll (row ++ rest) taken = sink.sendAll rest between := by
  induction h with
  | nil => rfl
  | cons hm _ ih => rw [List.cons_append, sendAll_of_ok hm, ih]

theorem Delivers.cons (hm : sink m taken = .ok between) (h : sink.Delivers rest between outcome) :
    sink.Delivers (m :: rest) taken outcome := by
  cases h with
  | all hrest => exact .all (.cons hm hrest)
  | refused hrow hsent hrefused =>
    exact .refused (congrArg (m :: ·) hrow) (.cons hm hsent) hrefused

theorem delivers_sendAll : ∀ (row : List Message) (taken : σ),
    sink.Delivers row taken (sink.sendAll row taken)
  | [], taken => .all .nil
  | m :: rest, taken => by
    cases hm : sink m taken with
    | ok between =>
      rw [sendAll_of_ok hm]
      exact (delivers_sendAll rest between).cons hm
    | error fault =>
      rw [sendAll_of_error hm]
      exact .refused rfl .nil hm

theorem delivers_iff : sink.sendAll row taken = outcome ↔ sink.Delivers row taken outcome := by
  refine ⟨fun h => h ▸ delivers_sendAll row taken, fun h => ?_⟩
  cases h with
  | all hrow =>
    have hsent : sink.sendAll (row ++ []) taken = sink.sendAll [] _ := hrow.sendAll_append
    rwa [List.append_nil] at hsent
  | refused hrow hsent hrefused => rw [hrow, hsent.sendAll_append, sendAll_of_error hrefused]

theorem sendAll_log : ∀ (row taken : List Message), log.sendAll row taken = (none, taken ++ row)
  | [], taken => by rw [sendAll, List.append_nil]
  | m :: rest, taken => by
    have hm : log m taken = .ok (taken ++ [m]) := rfl
    rw [sendAll_of_ok hm, sendAll_log rest, List.append_assoc]
    rfl

/-- Emits expressions in turn, as long as none is refused. -/
def emitAll (sink : Sink σ) : List (String × AtomTable) → σ → Option Fault × σ
  | [], taken => (none, taken)
  | (name, t) :: rest, taken =>
    match t.emit name sink taken with
    | (none, taken) => emitAll sink rest taken
    | (some fault, taken) => (some fault, taken)

theorem emitAll_log : ∀ (es : List (String × AtomTable)) (taken : List Message),
    log.emitAll es taken = (none, taken ++ es.flatMap fun e => e.2.messages e.1)
  | [], taken => by rw [emitAll, List.flatMap_nil, List.append_nil]
  | (name, t) :: rest, taken => by
    simp only [emitAll, AtomTable.emit, sendAll_log, emitAll_log rest, List.flatMap_cons,
      List.append_assoc]

end Sink

/-! ### Rows -/

theorem map_zipIdx {α β : Type} (f : α → Nat → β) (as : List α) :
    (as.zipIdx.map fun p => f p.1 p.2) = List.ofFn fun i : Fin as.length => f as[i] i := by
  refine List.ext_getElem (by simp) fun i hi hi' => ?_
  simp

/-- The atoms stand between the message that opens the expression and the one that ends it. -/
theorem AtomTable.messages_eq (t : AtomTable) (name : String) :
    t.messages name = .beginExpression name t.size t.root ::
      (List.ofFn fun i : Fin t.size => .atom i (t.get i)) ++ [.endExpression name] := by
  have hatoms := map_zipIdx (fun (atom : Atom) i => Message.atom i atom) t.atoms.toList
  rw [messages, hatoms]
  congr 2
  refine List.ext_getElem (by simp [size]) fun i hi hi' => ?_
  have hsize : i < t.atoms.size := by simpa using hi
  simp [get, hsize]

theorem Composition.messages_eq (c : Composed) :
    messages c = .beginFunction c.name c.paramCount c.localCount c.fieldSize c.storageSize ::
      (List.ofFn fun i : Fin c.body.length => .instruction i (Callee.of c.body[i].callee)
        c.body[i].operands c.body[i].constants c.body[i].jump) ++ [.endFunction c.name] := by
  have hbody := map_zipIdx (fun (i : Instruction Function) index => Message.instruction index
    (Callee.of i.callee) i.operands i.constants i.jump) c.body
  rw [messages, bodyMessages, hbody]

/-! ### Reading a log -/

/-- The expressions that messages carry, where one may have been opened already and some of its
atoms read. -/
def expressionsFrom? : (opened : Option (String × AtomTable)) → List Message →
    Option (List (String × AtomTable))
  | none, [] => some []
  | none, .beginExpression name _ root :: rest => expressionsFrom? (some (name, ⟨#[], root⟩)) rest
  | some (name, ⟨atoms, root⟩), .atom _ atom :: rest =>
    expressionsFrom? (some (name, ⟨atoms.push atom, root⟩)) rest
  | some e, .endExpression _ :: rest => (expressionsFrom? none rest).map (e :: ·)
  | _, _ => none

/-- The names and tables whose messages make up a log. -/
def expressions? (log : List Message) : Option (List (String × AtomTable)) :=
  expressionsFrom? none log

theorem expressionsFrom?_atoms {root : AtomId} :
    ∀ {read : Array Atom} (atoms : List Atom) (n : Nat),
      expressionsFrom? (some (name, ⟨read, root⟩))
          ((atoms.zipIdx n).map (fun p => .atom p.2 p.1) ++ rest) =
        expressionsFrom? (some (name, ⟨read ++ atoms.toArray, root⟩)) rest
  | read, [], n => by simp
  | read, atom :: atoms, n => by
    simp only [List.zipIdx_cons, List.map_cons, List.cons_append, expressionsFrom?]
    rw [expressionsFrom?_atoms atoms]
    simp

/-- A frame is read up to its end, whatever follows. -/
theorem expressionsFrom?_messages (t : AtomTable) (name : String) :
    expressionsFrom? none (t.messages name ++ rest) =
      (expressionsFrom? none rest).map ((name, t) :: ·) := by
  simp only [AtomTable.messages, List.cons_append, List.append_assoc, expressionsFrom?,
    expressionsFrom?_atoms, List.nil_append, Array.empty_append, Array.toArray_toList]

theorem expressions?_flatMap (es : List (String × AtomTable)) :
    expressions? (es.flatMap fun e => e.2.messages e.1) = some es := by
  unfold expressions?
  induction es with
  | nil => rfl
  | cons e es ih => rw [List.flatMap_cons, expressionsFrom?_messages, ih, Option.map_some]

theorem expressions?_emitAll (es : List (String × AtomTable)) :
    (Sink.log.emitAll es []).1 = none ∧ expressions? (Sink.log.emitAll es []).2 = some es := by
  rw [Sink.emitAll_log, List.nil_append]
  exact ⟨rfl, expressions?_flatMap es⟩

/-- An expression or a function is emitted as its frame: the message that opens it, its atoms or
instructions in the order of their numbers, and the message that ends it. A sink is sent all of it,
or what stands in front of the first message that it refuses and then nothing. Expressions that are
emitted to a log one after the other are read back from it, so no other expressions leave the same
log. -/
theorem emit_framed (sink : Sink σ) (taken : σ) :
    (∀ (t : AtomTable) (name : String) (outcome : Option Fault × σ),
      t.emit name sink taken = outcome ↔
        sink.Delivers (.beginExpression name t.size t.root ::
          (List.ofFn fun i : Fin t.size => .atom i (t.get i)) ++ [.endExpression name])
          taken outcome) ∧
      (∀ (c : Composed) (outcome : Option Fault × σ),
        Composition.emit c sink taken = outcome ↔
          sink.Delivers (.beginFunction c.name c.paramCount c.localCount c.fieldSize c.storageSize ::
            (List.ofFn fun i : Fin c.body.length => .instruction i (Callee.of c.body[i].callee)
              c.body[i].operands c.body[i].constants c.body[i].jump) ++ [.endFunction c.name])
            taken outcome) ∧
      (∀ es : List (String × AtomTable), (Sink.log.emitAll es []).1 = none ∧
        expressions? (Sink.log.emitAll es []).2 = some es) ∧
      Function.Injective fun es => (Sink.log.emitAll es []).2 := by
  refine ⟨fun t name outcome => ?_, fun c outcome => ?_, expressions?_emitAll, ?_⟩
  · rw [AtomTable.emit, AtomTable.messages_eq, Sink.delivers_iff]
  · rw [Composition.emit, Composition.messages_eq, Sink.delivers_iff]
  · intro es es' (hlog : (Sink.log.emitAll es []).2 = (Sink.log.emitAll es' []).2)
    have hes := (expressions?_emitAll es).2
    rw [hlog, (expressions?_emitAll es').2] at hes
    exact (Option.some.inj hes).symm

end Behavioral
