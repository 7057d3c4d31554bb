import Behavioral.Proofs.Formation
import Behavioral.Proofs.Pruning

/-!
# Arguments of a list, there and back

A call of a function of a list hangs its arguments off its atom as a chain, and an evaluation reads
them back (`HoldsCall`). They are the same ones in the same order, whatever the call shares with
others (`holdsCall_applyList`); more atoms do not change that, and folding and pruning only renumber
them (`HoldsCall.optimize`). So an evaluation that comes to a call hands the function the values of
its arguments in their order (`HoldsCall.firstValues_succ`). The calls of a whole compilation are
followed by an algebra that keeps a record of them beside the table (`recording`).
-/

namespace Behavioral

open AtomTable Assembly Correspondence

variable {fold : Bool} {t t' : AtomTable} {a rest : AtomId} {atom : Atom} {settings : Settings}

/-- A function of a list that has been called, its arguments in their order, and its atom. -/
structure ListCall where
  op : ListOp
  args : List AtomId
  id : AtomId
deriving DecidableEq

/-- The same call with every atom renamed. -/
def ListCall.renumber (f : AtomId → AtomId) (c : ListCall) : ListCall :=
  ⟨c.op, c.args.map f, f c.id⟩

namespace AtomTable

variable {c : ListCall}

/-- The atom of a call applies its function to its arguments, as an evaluation reads them back. -/
def HoldsCall (t : AtomTable) (c : ListCall) : Prop :=
  3 ≤ c.args.length ∧ ∃ first rest, t.get c.id = .apply (.list c.op) first (some rest) none false ∧
    t.listArguments first (some rest) = c.args

theorem HoldsCall.mono (hback : t.Backward) (hext : Extends t t') (h : t.HoldsCall c) :
    t'.HoldsCall c := by
  obtain ⟨three, first, rest, hget, hargs⟩ := h
  have hid := lt_size_of_get hget nofun
  have hrest : rest < c.id := hback c.id rest (by simp [hget, Atom.operands])
  refine ⟨three, first, rest, by rw [hext.get c.id hid, hget], ?_⟩
  rw [listArguments, hext.chain hback (hrest.trans hid)]
  exact hargs

/-- A call holds from the table that it leaves on, whatever its arguments are and whatever they
share with other calls. -/
theorem holdsCall_applyList (h : Assembled fold t) {op : ListOp} {name : String}
    {args : List AtomId} {start id : Nat} (hargs : ∀ a ∈ args, t.IsOperand t.size a)
    (three : 3 ≤ args.length) (hcall : applyList op name args start t = .ok (id, t')) :
    t'.HoldsCall ⟨op, args, id⟩ := by
  obtain ⟨first, rest, rfl⟩ := List.exists_cons_of_length_pos (by omega : 0 < args.length)
  obtain ⟨hfirst, hrest⟩ := List.forall_mem_cons.1 hargs
  have hne : rest ≠ [] := by
    rintro rfl
    simp at three
  rw [applyList_cons] at hcall
  split at hcall
  · cases hcall
  · rcases addChain_spec h.sound hne hrest with
      ⟨tail, table, hrun, hext, hsound, htail, hchain, -⟩ | hrun
    · rw [hrun] at hcall
      have hatom : Formed fold (fun _ => True) table table.size
          (.apply (.list op) first (some tail) none false) :=
        ⟨hfirst.mono hext le_rfl hext.size, htail, rfl, rfl⟩
      have hintern : table.intern (.apply (.list op) first (some tail) none false) = .ok (id, t') :=
        hcall
      rcases hsound.intern (by simp) hatom with ⟨id', table', hok, hext', -, -, hget, -⟩ | hfull
      · rw [hok] at hintern
        cases hintern
        refine ⟨three, first, tail, hget, ?_⟩
        rw [listArguments, hext'.chain hsound.backward htail.2, hchain]
      · rw [hfull] at hintern
        cases hintern
    · rw [hrun] at hcall
      cases hcall

/-! ### Through folding and pruning -/

/-- The table, folded if the settings ask for it. -/
def foldedBy (settings : Settings) (t : AtomTable) : AtomTable :=
  if settings.foldConstants then t.fold else t

/-- Where optimizing puts an atom. -/
def placeOf (settings : Settings) (t : AtomTable) : AtomId → AtomId :=
  if settings.pruneConstants then position (t.foldedBy settings).kept else id

theorem optimize_eq (settings : Settings) (t : AtomTable) : t.optimize settings =
    if settings.pruneConstants then (t.foldedBy settings).prune else t.foldedBy settings :=
  rfl

theorem Backward.foldedBy (hback : t.Backward) : (t.foldedBy settings).Backward := by
  unfold AtomTable.foldedBy
  split
  · exact hback.fold
  · exact hback

theorem HoldsCall.foldedBy (h : t.HoldsCall c) : (t.foldedBy settings).HoldsCall c := by
  unfold AtomTable.foldedBy
  split
  · obtain ⟨three, first, rest, hget, hargs⟩ := h
    refine ⟨three, first, rest, ?_, by rw [listArguments_fold, hargs]⟩
    rw [get_fold, hget]
    rfl
  · exact h

/-- The arguments that a kept atom has are kept. -/
theorem HoldsCall.mem_kept (hback : t.Backward) (h : t.HoldsCall c) :
    c.id ∈ t.kept ∧ ∀ a ∈ c.args, a ∈ t.kept := by
  obtain ⟨-, first, rest, hget, hargs⟩ := h
  have hid := lt_size_of_get hget nofun
  have hoperand (x : AtomId) (hx : x ∈ [first, rest]) : x ∈ t.kept :=
    hback.mem_kept hid (by simpa [hget, Atom.operands] using hx)
  refine ⟨AtomTable.mem_kept.2 ⟨hid, by simp [keeps, hget, Atom.isConst]⟩, ?_⟩
  rw [← hargs, listArguments, List.forall_mem_cons]
  exact ⟨hoperand first (by simp), (chain_prune hback _ (hoperand rest (by simp))).2⟩

theorem HoldsCall.prune (hback : t.Backward) (h : t.HoldsCall c) :
    t.prune.HoldsCall (c.renumber (position t.kept)) := by
  have hkept := (h.mem_kept hback).1
  obtain ⟨three, first, rest, hget, hargs⟩ := h
  have hrest : rest ∈ t.kept :=
    hback.mem_kept (AtomTable.mem_kept.1 hkept).1 (by simp [hget, Atom.operands])
  refine ⟨by rwa [ListCall.renumber, List.length_map], position t.kept first,
    position t.kept rest, ?_, ?_⟩
  · rw [ListCall.renumber, get_prune_position hkept, hget]
    rfl
  · rw [ListCall.renumber, ← hargs, listArguments, listArguments, chain_prune_size hback hrest,
      List.map_cons]

/-- Optimizing renames the arguments of a call and keeps their order. -/
theorem HoldsCall.optimize (hback : t.Backward) (h : t.HoldsCall c) :
    (t.optimize settings).HoldsCall (c.renumber (t.placeOf settings)) := by
  have hfolded : (t.foldedBy settings).HoldsCall c := h.foldedBy
  rw [optimize_eq, placeOf]
  split
  · exact hfolded.prune hback.foldedBy
  · rw [ListCall.renumber, List.map_id]
    exact hfolded

/-- What optimizing leaves of an argument is the argument, folded and with its operands renamed. -/
theorem HoldsCall.get_optimize (hback : t.Backward) (h : t.HoldsCall c) (ha : a ∈ c.args) :
    (t.optimize settings).get (t.placeOf settings a) =
      ((t.foldedBy settings).get a).renumber (t.placeOf settings) := by
  have hfolded : (t.foldedBy settings).HoldsCall c := h.foldedBy
  have hkept := (hfolded.mem_kept hback.foldedBy).2 a ha
  rw [optimize_eq, placeOf]
  split
  · exact get_prune_position hkept
  · exact (Atom.renumber_eq_self fun _ _ => rfl).symm

/-! ### Evaluation -/

theorem Backward.optimize (hback : t.Backward) : (t.optimize settings).Backward := by
  rw [optimize_eq]
  split
  · exact hback.foldedBy.prune
  · exact hback.foldedBy

/-- An evaluation that comes to a call hands its function the values of the arguments in their
order, and ends there if the function has no value. -/
theorem HoldsCall.firstValues_succ (h : t.HoldsCall c) {bindings : Bindings} {vals : Array Float}
    (hvals : t.firstValues bindings c.id = .ok vals) :
    t.firstValues bindings (c.id + 1) =
      match c.op.apply (c.args.map (valueAt vals)) with
      | some x => .ok (vals.push x)
      | none => .error (.breakdown .noSegment) := by
  obtain ⟨-, first, rest, hget, hargs⟩ := h
  rw [AtomTable.firstValues_succ (lt_size_of_get hget nofun), hvals]
  simp only [Except.bind, hget, atomValue, hargs]
  cases c.op.apply (c.args.map (valueAt vals)) <;> rfl

/-- Once an evaluation has come to its end, the value of a call is what its function makes of the
values of the arguments. -/
theorem HoldsCall.apply_valueAt (hback : t.Backward) (h : t.HoldsCall c) {bindings : Bindings}
    {vals : Array Float} (hvals : t.values bindings = .ok vals) :
    c.op.apply (c.args.map (valueAt vals)) = some (valueAt vals c.id) := by
  obtain ⟨-, first, rest, hget, hargs⟩ := h
  have hid : c.id < t.size := lt_size_of_get hget nofun
  obtain ⟨f, hf⟩ := exists_valuation hback bindings
  have hvalues := (hf.of_firstValues hback le_rfl (values_eq le_rfl ▸ hvals)).2
  have hmap := hback.map_listArguments hget fun x hx => hvalues x (hx.trans hid)
  rw [← hvalues c.id hid, hf c.id hid, hget, meaning_list, hmap, allValues_map_some, hargs]
  rfl

end AtomTable

/-! ### All calls of a compilation -/

namespace Assembly

/-- A step on the table, which leaves the record beside it. -/
def beside {α : Type} (x : Build AtomTable α) : Build (AtomTable × List ListCall) α := fun s =>
  (x s.1).map fun r => (r.1, r.2, s.2)

/-- Assembling atoms with a record of all calls of functions of a list, the latest one first. -/
def recording (fold : Bool) : Algebra (AtomTable × List ListCall) AtomId where
  number x := beside ((algebra fold).number x)
  name text := beside ((algebra fold).name text)
  lead op a start := beside ((algebra fold).lead op a start)
  join op a b start := beside ((algebra fold).join op a b start)
  call op name a start := beside ((algebra fold).call op name a start)
  callList op name args start := do
    let id ← beside ((algebra fold).callList op name args start)
    modify fun s => (s.1, ⟨op, args, id⟩ :: s.2)
    return id

/-- Assembling without a record and with one, of calls that hold. -/
def recorded (fold : Bool) :
    Correspondence AtomTable (AtomTable × List ListCall) AtomId AtomId where
  Inv w := w.2.1 = w.1 ∧ Assembled fold w.1 ∧ ∀ c ∈ w.2.2, w.1.HoldsCall c
  Grows w w' := Extends w.1 w'.1
  Rel w a b := a = b ∧ w.1.IsOperand w.1.size a
  Excused _ := False
  refl w := .refl w.1
  trans := Extends.trans
  mono hext h := ⟨h.1, h.2.mono hext le_rfl hext.size⟩

variable {w : AtomTable × (AtomTable × List ListCall)}

theorem recorded_beside {x : Build AtomTable AtomId}
    (h : Assembled fold w.1 → AtomTable.Keeps fold w.1 (x w.1)) :
    (recorded fold).Agrees w x (beside x) (recorded fold).Rel := by
  rintro ⟨htable, hassembled, hcalls⟩
  have hkeeps := h hassembled
  rw [beside, htable]
  generalize x w.1 = result at hkeeps
  cases result with
  | error f => exact .fault
  | ok r =>
    obtain ⟨a, t'⟩ := r
    obtain ⟨hext, hassembled', ha⟩ := hkeeps a t' rfl
    exact .ok hext ⟨rfl, hassembled', fun c hc => (hcalls c hc).mono hassembled.sound.backward hext⟩
      ⟨rfl, ha⟩

theorem recorded_list {op : ListOp} {name : String} {args : List AtomId} {start : Nat}
    (hargs : ∀ a ∈ args, w.1.IsOperand w.1.size a) (three : 3 ≤ args.length)
    (htakes : op.takes args.length = true) :
    (recorded fold).Agrees w (applyList op name args start)
      ((recording fold).callList op name args start) (recorded fold).Rel := by
  rintro ⟨htable, hassembled, hcalls⟩
  have hkeeps := keeps_list hassembled hargs three htakes name start
  have hrun : (recording fold).callList op name args start w.2 =
      (applyList op name args start w.1).map fun r => (r.1, r.2, ⟨op, args, r.1⟩ :: w.2.2) := by
    rw [← htable]
    cases hresult : applyList op name args start w.2.1 <;>
      simp [recording, algebra, beside, hresult, bind, StateT.bind, Except.bind, Except.map, modify,
        modifyGet, MonadStateOf.modifyGet, StateT.modifyGet, pure, StateT.pure, Except.pure]
  rw [hrun]
  cases hresult : applyList op name args start w.1 with
  | error f => exact .fault
  | ok r =>
    obtain ⟨id, t'⟩ := r
    obtain ⟨hext, hassembled', hid⟩ := hkeeps id t' hresult
    refine .ok hext ⟨rfl, hassembled', ?_⟩ ⟨rfl, hid⟩
    rw [List.forall_mem_cons]
    exact ⟨holdsCall_applyList hassembled hargs three hresult,
      fun c hc => (hcalls c hc).mono hassembled.sound.backward hext⟩

theorem recorded_simulates : Simulates (recorded fold) (algebra fold) (recording fold)
    (fun _ => True) (fun _ => False) where
  number _ x _ := recorded_beside fun h => h.keeps_const x
  name _ n _ := recorded_beside fun h =>
    @Assembled.keeps_intern fold _ (.name n) h trivial trivial nofun nofun
  reciprocal := nofun
  lead _ op _ _ start ha := by
    obtain ⟨rfl, ha⟩ := ha
    exact recorded_beside fun h => keeps_lead h ha op start
  join _ op _ _ _ _ start ha hb := by
    obtain ⟨rfl, ha⟩ := ha
    obtain ⟨rfl, hb⟩ := hb
    exact recorded_beside fun h => keeps_join h ha hb op start
  call _ _ _ _ _ start hop ha := by
    obtain ⟨rfl, ha⟩ := ha
    exact recorded_beside fun h => keeps_call h ha hop start
  callList w op name as bs start hargs three htakes := by
    obtain rfl : as = bs := List.forall₂_eq_eq_eq ▸ hargs.imp fun _ _ h => h.1
    refine recorded_list (fun a ha => ?_) three htakes
    obtain ⟨i, hi, rfl⟩ := List.getElem_of_mem ha
    exact (hargs.get hi hi).2

/-- What is assembled is assembled with a record of calls, all of which hold. -/
theorem exists_recording {items : Items} (h : assemble fold items = .ok t) :
    ∃ root before calls, t = { before with root } ∧
      Reduction.run (recording fold) items (AtomTable.empty, []) = .ok (root, before, calls) ∧
      ∀ c ∈ calls, t.HoldsCall c := by
  obtain ⟨root, table, hrun, rfl⟩ := assemble_eq_ok.1 h
  have hagrees := Reduction.run_agrees (@recorded_simulates fold) (fun _ => False.elim)
    (AtomTable.empty, AtomTable.empty, []) (Reduction.expanded_self items) (fun _ _ => trivial)
    ⟨rfl, assembled_empty, nofun⟩
  rw [hrun] at hagrees
  generalize Reduction.run (recording fold) items (AtomTable.empty, []) = result at hagrees
  cases hagrees with
  | @ok _ s _ b hext hinv hroot =>
    obtain ⟨before, calls⟩ := s
    obtain ⟨htable, hassembled, hcalls⟩ := hinv
    obtain rfl : before = table := htable
    obtain ⟨rfl, -⟩ := hroot
    exact ⟨root, before, calls, rfl, rfl, fun c hc =>
      (hcalls c hc).mono hassembled.sound.backward (extends_root before root)⟩
  | pardoned hpardoned => exact hpardoned.elim

end Assembly

/-- What an optimized table has of a call: its atom with the arguments renamed, in their order, each
of which is what it was, folded if the settings ask for it; and what an evaluation does that comes
to it: it hands the function the values of the arguments. -/
structure AtomTable.Carries (settings : Settings) (t t' : AtomTable) (c : ListCall) : Prop where
  holds : t'.HoldsCall (c.renumber (t.placeOf settings))
  arguments : ∀ a ∈ c.args, t'.get (t.placeOf settings a) =
    ((t.foldedBy settings).get a).renumber (t.placeOf settings)
  handed : ∀ bindings vals, t'.firstValues bindings (t.placeOf settings c.id) = .ok vals →
    t'.firstValues bindings (t.placeOf settings c.id + 1) =
      match c.op.apply (c.args.map fun a => valueAt vals (t.placeOf settings a)) with
      | some x => .ok (vals.push x)
      | none => .error (.breakdown .noSegment)
  values : ∀ bindings vals, t'.values bindings = .ok vals →
    c.op.apply (c.args.map fun a => valueAt vals (t.placeOf settings a)) =
      some (valueAt vals (t.placeOf settings c.id))

theorem AtomTable.HoldsCall.carries {c : ListCall} (hback : t.Backward) (h : t.HoldsCall c) :
    Carries settings t (t.optimize settings) c := by
  have hmoved : (t.optimize settings).HoldsCall (c.renumber (t.placeOf settings)) :=
    h.optimize hback
  have hmap (vals : Array Float) : (c.renumber (t.placeOf settings)).args.map (valueAt vals) =
      c.args.map fun a => valueAt vals (t.placeOf settings a) := by
    rw [ListCall.renumber, List.map_map]
    rfl
  refine ⟨hmoved, fun a ha => h.get_optimize hback ha, fun bindings vals hvals => ?_,
    fun bindings vals hvals => ?_⟩
  · rw [← hmap]
    exact hmoved.firstValues_succ hvals
  · rw [← hmap]
    exact hmoved.apply_valueAt hback.optimize hvals

/-- The arguments of every call of a function of a list are read back as they were, in any table
that operators leave and for any arguments in it. In a compiled table all calls of the compilation
are there, with their arguments renumbered in the same order, and an evaluation hands the functions
the arguments' values in that order. -/
theorem listArguments_compile :
    (∀ (fold : Bool) (t t' : AtomTable) (op : ListOp) (name : String) (args : List AtomId)
        (start id : Nat), Assembled fold t → (∀ a ∈ args, t.IsOperand t.size a) →
      3 ≤ args.length → applyList op name args start t = .ok (id, t') →
      t'.HoldsCall ⟨op, args, id⟩) ∧
    ∀ (text : String) (settings : Settings) (t : AtomTable), compile text settings = .ok t →
      ∃ items root table calls, itemsOf text settings = .ok items ∧
        Reduction.run (recording settings.foldConstants) items (AtomTable.empty, []) =
          .ok (root, table, calls) ∧
        t = AtomTable.optimize settings { table with root } ∧
        ∀ c ∈ calls, AtomTable.HoldsCall { table with root } c ∧
          Carries settings { table with root } t c := by
  refine ⟨fun _ _ _ _ _ _ _ _ h hargs three hcall => holdsCall_applyList h hargs three hcall,
    fun text settings t h => ?_⟩
  obtain ⟨items, table, hitems, hassemble, rfl⟩ := compile_eq_ok.1 h
  have hback := (assembled_of_assemble hassemble).1.sound.backward
  obtain ⟨root, before, calls, rfl, hrun, hcalls⟩ := exists_recording hassemble
  exact ⟨items, root, before, calls, hitems, hrun, rfl,
    fun c hc => ⟨hcalls c hc, (hcalls c hc).carries hback⟩⟩

/-- A call with three times the same argument; and two calls with the same rest of their lists, in a
table that is renumbered where constants are folded away. -/
theorem listArguments_compile_shared :
    (∃ id t, applyList .ratio "ratio" [1, 1, 1] 0 ⟨#[.sentinel, .name "x"], 0⟩ = .ok (id, t) ∧
      t.HoldsCall ⟨.ratio, [1, 1, 1], id⟩) ∧
    ∃ t, compile "2*3+pwl(x,0,1,x,7)+ratio(1,x,7)" {} = .ok t ∧
      t.HoldsCall ⟨.pwl, [1, 2, 3, 1, 4], 8⟩ ∧ t.HoldsCall ⟨.ratio, [3, 1, 4], 9⟩ := by
  constructor
  · have hintern : AtomTable.empty.intern (.name "x") =
        .ok (1, ⟨#[.sentinel, .name "x"], 0⟩) := by
      simp [intern, empty, Atom.sameContent, AtomTable.size, limit]
    obtain ⟨-, hassembled, hx⟩ :=
      @Assembled.keeps_intern true _ (.name "x") assembled_empty trivial trivial
        (fun _ _ h => Atom.noConfusion h) (fun _ _ h => Atom.noConfusion h) _ _ hintern
    cases hcall : applyList .ratio "ratio" [1, 1, 1] 0 ⟨#[.sentinel, .name "x"], 0⟩ with
    | error f =>
      have hok : (applyList .ratio "ratio" [1, 1, 1] 0
          ⟨#[.sentinel, .name "x"], 0⟩).isOk = true := by
        decide +kernel
      rw [hcall] at hok
      cases hok
    | ok r =>
      exact ⟨r.1, r.2, rfl, listArguments_compile.1 true _ r.2 _ _ _ _ r.1 hassembled
        (by simpa using hx) le_rfl hcall⟩
  have hok : (compile "2*3+pwl(x,0,1,x,7)+ratio(1,x,7)" {}).isOk = true := by decide +kernel
  have hrecord : ((itemsOf "2*3+pwl(x,0,1,x,7)+ratio(1,x,7)" {}).bind fun items =>
      (Reduction.run (recording true) items (AtomTable.empty, [])).map fun r =>
        r.2.2.map fun c => c.renumber (AtomTable.placeOf {} { r.2.1 with root := r.1 })) =
      .ok [⟨.ratio, [3, 1, 4], 9⟩, ⟨.pwl, [1, 2, 3, 1, 4], 8⟩] := by decide +kernel
  cases hcompile : compile "2*3+pwl(x,0,1,x,7)+ratio(1,x,7)" {} with
  | error f =>
    rw [hcompile] at hok
    cases hok
  | ok t =>
    obtain ⟨items, root, table, calls, hitems, hrun, -, hcalls⟩ :=
      listArguments_compile.2 _ _ t hcompile
    have hmoved : calls.map (fun c => c.renumber (AtomTable.placeOf {} { table with root })) =
        [⟨.ratio, [3, 1, 4], 9⟩, ⟨.pwl, [1, 2, 3, 1, 4], 8⟩] := by
      rw [hitems] at hrecord
      change (Reduction.run (recording true) items (AtomTable.empty, [])).map _ = _ at hrecord
      change Reduction.run (recording true) items (AtomTable.empty, []) = _ at hrun
      rw [hrun] at hrecord
      exact Except.ok.inj hrecord
    have hholds (moved : ListCall) (h : moved ∈ calls.map fun c =>
        c.renumber (AtomTable.placeOf {} { table with root })) : t.HoldsCall moved := by
      obtain ⟨c, hc, rfl⟩ := List.mem_map.1 h
      exact (hcalls c hc).2.holds
    rw [hmoved] at hholds
    exact ⟨t, rfl, hholds _ (by simp), hholds _ (by simp)⟩

end Behavioral
