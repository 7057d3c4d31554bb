import Behavioral.Proofs.Checked
import Behavioral.Proofs.Compiling

/-!
# Compiled tables are well-formed

Every operator leaves a table whose atoms are formed and whose functions of a list have as many
arguments as they take (`Assembled`), whatever literals there are. Folding and pruning keep a table
well-formed (`WellFormed.folded`, `WellFormed.pruned`), so all compiled tables are, and none of the
reads of their evaluation fails unless it strays (`wellFormed_compile`).
-/

namespace Behavioral

open AtomTable Assembly

variable {fold : Bool} {Leaf : ParseTree → Prop} {t t' : AtomTable} {n id : Nat} {a : AtomId}
  {atom : Atom}

namespace AtomTable

/-- The function of a list has as many arguments as it takes. -/
def Takes (t : AtomTable) : Atom → Prop
  | .apply (.list op) a b _ _ =>
    op.takes (t.listArguments a b).length = true ∧ 3 ≤ (t.listArguments a b).length
  | _ => True

theorem Takes.mono (hsound : Sound fold Leaf t) (hext : Extends t t') (hn : n ≤ t.size)
    (hformed : Formed fold Leaf t n atom) (h : t.Takes atom) : t'.Takes atom := by
  match atom, hformed with
  | .const _ _, _ => trivial
  | .name _, _ => trivial
  | .element _ _, _ => trivial
  | .apply (.unary _) _ none _ _, _ => trivial
  | .apply (.binary _) _ (some _) _ _, _ => trivial
  | .apply (.list op) a (some b) _ _, ⟨_, hb, _⟩ =>
    have hchain := hext.chain hsound.backward (hb.2.trans_le hn)
    have hargs : t'.listArguments a (some b) = t.listArguments a (some b) := by
      rw [listArguments, hchain, listArguments]
    simp only [Takes, hargs]
    exact h

/-- A table as operators leave it, for any literals. -/
structure Assembled (fold : Bool) (t : AtomTable) : Prop where
  sound : Sound fold (fun _ => True) t
  takes : ∀ id < t.size, t.Takes (t.get id)

/-- New atoms that are formed and take what they have keep a table assembled. -/
theorem Assembled.grow (h : Assembled fold t) (hext : Extends t t')
    (hsound : Sound fold (fun _ => True) t') (hadds : Adds t t' t'.Takes) : Assembled fold t' := by
  refine ⟨hsound, fun id hid => ?_⟩
  rcases Nat.lt_or_ge id t.size with hlt | hge
  · rw [hext.get id hlt]
    rcases Nat.eq_zero_or_pos id with rfl | hpos
    · rw [h.sound.sentinel]
      trivial
    · exact (h.takes id hlt).mono h.sound hext hlt.le (h.sound.formed id ⟨hpos, hlt⟩)
  · exact hadds id hge hid

/-- Where the step comes to an end, the table has grown and stays assembled, and the atom may be an
operand. -/
def Keeps (fold : Bool) (t : AtomTable) (x : Except Fault (AtomId × AtomTable)) : Prop :=
  ∀ a t', x = .ok (a, t') → Extends t t' ∧ Assembled fold t' ∧ t'.IsOperand t'.size a

theorem keeps_error {f : Fault} : Keeps fold t (.error f) :=
  nofun

theorem Keeps.since {x : Except Fault (AtomId × AtomTable)} (hext : Extends t t')
    (h : Keeps fold t' x) : Keeps fold t x := by
  intro a t'' hx
  obtain ⟨hext', h⟩ := h a t'' hx
  exact ⟨hext.trans hext', h⟩

theorem Assembled.keeps_const (h : Assembled fold t) (x : Float) :
    Keeps fold t (t.intern (.const x false)) := by
  have hatom : Formed fold (fun _ => True) t t.size (.const x false) := ⟨rfl, trivial⟩
  intro a t' hx
  rcases h.sound.intern_cases hatom with ⟨id, hintern, hid, hsame⟩ |
    ⟨-, ⟨-, t'', hintern, hext, hsound, hsize, hget⟩ | ⟨-, hintern⟩⟩
  · rw [hintern] at hx
    cases hx
    refine ⟨.refl t, h, hid, fun y z hget => ?_⟩
    rw [hget] at hsame
    cases hsame
  · rw [hintern] at hx
    cases hx
    have hadds : Adds t t' t'.Takes := (adds_of_size hsize hget).imp (by rintro _ rfl; trivial)
    refine ⟨hext, h.grow hext hsound hadds, ⟨h.sound.pos, by omega⟩, fun y z => ?_⟩
    rw [hget]
    nofun
  · rw [hintern] at hx
    cases hx

/-- An operator or a name is interned as it is. -/
theorem Assembled.keeps_intern (h : Assembled fold t)
    (hatom : Formed fold (fun _ => True) t t.size atom) (htakes : t.Takes atom)
    (hconst : ∀ x isBoolean, atom ≠ .const x isBoolean) (helement : ∀ x y, atom ≠ .element x y) :
    Keeps fold t (t.intern atom) := by
  intro a t' hx
  rcases h.sound.intern (fun x isBoolean hx => absurd hx (hconst x isBoolean)) hatom with
    ⟨id, t'', hintern, hext, hsound, hid, hget, hadds⟩ | hintern
  · rw [hintern] at hx
    cases hx
    have htakes' := htakes.mono h.sound hext le_rfl hatom
    refine ⟨hext, h.grow hext hsound (hadds.imp (by rintro _ rfl; exact htakes')), hid, ?_⟩
    rw [hget]
    exact helement
  · rw [hintern] at hx
    cases hx

end AtomTable

namespace Assembly

theorem keeps_unary (h : Assembled fold t) (ha : t.IsOperand t.size a) (op : UnaryOp)
    (hkind : (t.get a).isBoolean = decide (op = .not)) :
    Keeps fold t (applyOp fold (.unary op) a none (decide (op = .not)) t) := by
  rw [applyOp_unary]
  exact h.keeps_intern ⟨ha, rfl, hkind, rfl⟩ trivial nofun nofun

theorem keeps_binary (h : Assembled fold t) (ha : t.IsOperand t.size a) {b : AtomId}
    (hb : t.IsOperand t.size b) (op : BinaryOp) :
    Keeps fold t (applyOp fold (.binary op) a (some b) op.isBoolean t) := by
  rw [applyOp_binary]
  exact h.keeps_intern ⟨ha, hb, rfl, rfl⟩ trivial nofun nofun

theorem keeps_lead (h : Assembled fold t) (ha : t.IsOperand t.size a) (op : LeadOp) (start : Nat) :
    Keeps fold t (applyLead fold op a start t) := by
  rw [applyLead_eq]
  split
  · rename_i hkind
    rcases hinner : operandOf? op.unary (t.get a) with _ | inner
    · exact keeps_unary h ha op.unary hkind
    · -- a double negation is the operand of the first one
      obtain ⟨folded, isBoolean, hget⟩ := get_of_operandOf? hinner
      have hformed := h.sound.formed a ha.within
      rw [hget] at hformed
      intro a' t' hx
      cases hx
      have hlt := hformed.1.within.2.trans ha.within.2
      exact ⟨.refl t, h, ⟨hformed.1.within.1, hlt⟩, hformed.1.value⟩
  · exact keeps_error

theorem keeps_join (h : Assembled fold t) (ha : t.IsOperand t.size a) {b : AtomId}
    (hb : t.IsOperand t.size b) (op : BinaryOp) (start : Nat) :
    Keeps fold t (applyJoin fold op a b start t) := by
  rw [applyJoin_eq]
  split
  · exact keeps_error
  · rename_i hfits
    split
    · rename_i hpow
      have hkind : (t.get a).isBoolean = false := by
        rw [hpow.1] at hfits
        cases hboolean : (t.get a).isBoolean with
        | false => rfl
        | true => simp [typeFault?, hboolean] at hfits
      exact keeps_unary h ha .square hkind
    · split
      · exact keeps_error
      · exact keeps_binary h ha hb op

theorem keeps_call (h : Assembled fold t) (ha : t.IsOperand t.size a) {op : UnaryOp} {name : String}
    (hop : UnaryOp.ofFunctionName? name = some op) (start : Nat) :
    Keeps fold t (applyCall fold op name a start t) := by
  rw [applyCall_eq]
  split
  · exact keeps_error
  · rename_i hkind
    have hfalse : decide (op = .not) = false := decide_eq_false (ne_not_of_ofFunctionName? hop)
    have hunary := keeps_unary h ha op (by rw [hfalse]; exact Bool.eq_false_iff.2 hkind)
    rwa [hfalse] at hunary

theorem keeps_list (h : Assembled fold t) {args : List AtomId}
    (hargs : ∀ a ∈ args, t.IsOperand t.size a) {op : ListOp} (hthree : 3 ≤ args.length)
    (htakes : op.takes args.length = true) (name : String) (start : Nat) :
    Keeps fold t (applyList op name args start t) := by
  obtain ⟨first, rest, rfl⟩ := List.exists_cons_of_length_pos (by omega : 0 < args.length)
  obtain ⟨hfirst, hrest⟩ := List.forall_mem_cons.1 hargs
  have hne : rest ≠ [] := by
    rintro rfl
    simp at hthree
  rw [applyList_cons]
  split
  · exact keeps_error
  · rcases addChain_spec h.sound hne hrest with
      ⟨tail, t', hrun, hext, hsound, htail, hchain, hadds⟩ | hrun
    · rw [hrun]
      have hassembled : Assembled fold t' := by
        refine h.grow hext hsound (hadds.imp ?_)
        rintro _ ⟨x, y, rfl⟩
        trivial
      have hlength : (t'.listArguments first (some tail)).length = (first :: rest).length := by
        rw [listArguments, hchain]
      have hatom : Formed fold (fun _ => True) t' t'.size
          (.apply (.list op) first (some tail) none false) :=
        ⟨hfirst.mono hext le_rfl hext.size, htail, rfl, rfl⟩
      have hatomTakes : t'.Takes (.apply (.list op) first (some tail) none false) := by
        rw [Takes, hlength]
        exact ⟨htakes, hthree⟩
      exact (hassembled.keeps_intern hatom hatomTakes (by simp) (by simp)).since hext
    · rw [hrun]
      exact keeps_error

theorem grows_refl (w : AtomTable × Unit) : Extends w.1 w.1 :=
  .refl w.1

theorem grows_trans {w w' w'' : AtomTable × Unit} (h : Extends w.1 w'.1) (h' : Extends w'.1 w''.1) :
    Extends w.1 w''.1 :=
  h.trans h'

/-- Assembling beside building trees of any operands, which never fails. -/
def formation (fold : Bool) : Correspondence AtomTable Unit AtomId ParseTree where
  Inv w := Assembled fold w.1
  Grows w w' := Extends w.1 w'.1
  Rel w a _ := w.1.IsOperand w.1.size a
  Excused _ := True
  refl := grows_refl
  trans := @grows_trans
  mono hext ha := ha.mono hext le_rfl hext.size

theorem agrees_of_keeps {w : AtomTable × Unit} {x : Build AtomTable AtomId} {e : ParseTree}
    (h : Assembled fold w.1 → Keeps fold w.1 (x w.1)) :
    (formation fold).Agrees w x (pure e) (formation fold).Rel := by
  intro hw
  have hkeeps := h hw
  generalize x w.1 = result at hkeeps
  cases result with
  | error f => exact .excused trivial
  | ok r =>
    obtain ⟨a, t'⟩ := r
    obtain ⟨hext, hassembled, ha⟩ := hkeeps a t' rfl
    exact .ok (t := w.2) hext hassembled ha

theorem formation_simulates : Simulates (formation fold) (algebra fold) ParseTree.shapes
    (fun _ => True) (fun _ => False) where
  number _ x _ := agrees_of_keeps fun h => h.keeps_const x
  name _ n _ := agrees_of_keeps fun h =>
    @Assembled.keeps_intern fold _ (.name n) h trivial trivial nofun nofun
  reciprocal := nofun
  lead _ op _ _ start ha := agrees_of_keeps fun h => keeps_lead h ha op start
  join _ op _ _ _ _ start ha hb := agrees_of_keeps fun h => keeps_join h ha hb op start
  call _ _ _ _ _ start hop ha := agrees_of_keeps fun h => keeps_call h ha hop start
  callList _ op name as bs start hargs hthree htakes := agrees_of_keeps fun h => by
    refine keeps_list h (fun a ha => ?_) hthree htakes name start
    obtain ⟨i, hi, rfl⟩ := List.getElem_of_mem ha
    exact hargs.get hi (hargs.length_eq ▸ hi)

end Assembly

theorem assembled_empty : Assembled fold AtomTable.empty :=
  ⟨sound_empty, fun id hid => by
    obtain rfl : id = 0 := Nat.lt_one_iff.1 hid
    trivial⟩

/-- An assembled table has formed atoms only, and its root has a value. -/
theorem assembled_of_assemble {items : Items} (h : assemble fold items = .ok t) :
    Assembled fold t ∧ t.IsOperand t.size t.root := by
  obtain ⟨root, table, hrun, rfl⟩ := assemble_eq_ok.1 h
  have hagrees := Reduction.run_agrees (@formation_simulates fold) (fun _ => False.elim)
    (AtomTable.empty, ()) (Reduction.expanded_self items) (fun _ _ => trivial) assembled_empty
  rw [hrun] at hagrees
  generalize Reduction.run ParseTree.shapes items () = shape at hagrees
  cases hagrees with
  | ok hext hassembled hroot =>
    have hroot' := extends_root table root
    exact ⟨hassembled.grow hroot' (hassembled.sound.root root) adds_refl,
      hroot.mono hroot' le_rfl hroot'.size⟩
  | pardoned hpardoned => exact hpardoned.elim

namespace AtomTable

theorem Assembled.wellFormed (h : Assembled fold t) (hroot : Within t.size t.root) :
    t.WellFormed := by
  have hformed (id : AtomId) (atom : Atom) (hget : t.get id = atom) (hne : atom ≠ .sentinel) :
      id < t.size ∧ Formed fold (fun _ => True) t id atom := by
    have hid := h.sound.within_of_get hget hne
    exact ⟨hid.2, hget ▸ h.sound.formed id hid⟩
  refine ⟨fun id hid => ⟨fun hget => ?_, ?_⟩, fun id hid x hx => ?_, hroot, ?_, ?_, ?_⟩
  · rcases Nat.eq_zero_or_pos id with rfl | hpos
    · rfl
    · have hsentinel := h.sound.formed id ⟨hpos, hid⟩
      rw [hget] at hsentinel
      exact hsentinel.elim
  · rintro rfl
    exact h.sound.sentinel
  · have hne : t.get id ≠ .sentinel := by
      intro hget
      rw [hget] at hx
      cases hx
    exact (hformed id _ rfl hne).2.operands_within x hx
  · intro id op a b folded isBoolean hget
    have hatom := (hformed id _ hget nofun).2
    match op, b, hatom with
    | .unary op, none, _ => exact iff_of_true rfl ⟨op, rfl⟩
    | .binary op, some _, _ => exact iff_of_false nofun nofun
    | .list op, some _, _ => exact iff_of_false nofun nofun
  · intro id a b folded isBoolean hget
    have htakes := h.takes id (hformed id _ hget nofun).1
    rw [hget] at htakes
    exact eq_of_beq htakes.1
  · intro id a b folded isBoolean hget
    have htakes := h.takes id (hformed id _ hget nofun).1
    rw [hget] at htakes
    exact ⟨eq_of_beq htakes.1, htakes.2⟩

/-- Folding leaves no operator that was not there. -/
theorem get_of_fold_eq_apply {op : Op} {b : Option AtomId} {folded : Option Float}
    {isBoolean : Bool} (h : t.fold.get id = .apply op a b folded isBoolean) :
    t.get id = .apply op a b folded isBoolean := by
  rw [get_fold] at h
  unfold Atom.fold at h
  split at h
  · cases h
  · exact h

theorem listArguments_fold (a : AtomId) (b : Option AtomId) :
    t.fold.listArguments a b = t.listArguments a b := by
  cases b with
  | none => rfl
  | some b => rw [listArguments, listArguments, size_fold, chain_fold]

theorem WellFormed.folded (h : t.WellFormed) : t.fold.WellFormed := by
  refine ⟨fun id hid => ?_, fun id hid x hx => ?_, ?_, ?_, ?_, ?_⟩
  · rw [size_fold] at hid
    rw [← h.sentinel id hid, get_fold]
    unfold Atom.fold
    split
    · rename_i hget
      rw [hget]
      exact iff_of_false nofun nofun
    · rfl
  · rw [size_fold] at hid
    rw [get_fold] at hx
    exact h.operands id hid x (operands_fold _ hx)
  · rw [size_fold]
    exact h.root
  · exact fun id op a b folded isBoolean hget => h.arity id op a b _ _ (get_of_fold_eq_apply hget)
  · intro id a b folded isBoolean hget
    rw [listArguments_fold]
    exact h.ratio id a b _ _ (get_of_fold_eq_apply hget)
  · intro id a b folded isBoolean hget
    rw [listArguments_fold]
    exact h.pwl id a b _ _ (get_of_fold_eq_apply hget)

namespace WellFormed

variable (h : t.WellFormed)
include h

/-- The sentinel is kept in its place, and nothing else takes it. -/
theorem position_pos {x : Nat} (hx : x ∈ t.kept) : 0 < position t.kept x ↔ 0 < x := by
  have hsize : 0 < t.size := h.root.1.trans h.root.2
  have hzero : 0 ∈ t.kept := by
    refine mem_kept.2 ⟨hsize, ?_⟩
    rw [keeps, (h.sentinel 0 hsize).2 rfl]
    exact Bool.or_true _
  constructor
  · intro hpos
    by_contra hx
    obtain rfl : x = 0 := Nat.eq_zero_of_not_pos hx
    have hnone : position t.kept 0 = 0 := by
      unfold position
      cases t.kept <;> simp
    exact absurd hpos (Nat.not_lt.2 hnone.le)
  · exact fun hx' => Nat.zero_lt_of_lt (position_mono t.kept_sorted hzero hx')

/-- An operator of the pruned table is one of the table, renumbered. -/
theorem of_prune_eq_apply {p : Nat} {op : Op} {b : Option AtomId} {folded : Option Float}
    {isBoolean : Bool} (hget : t.prune.get p = .apply op a b folded isBoolean) :
    ∃ id a' b', t.get id = .apply op a' b' folded isBoolean ∧ b = b'.map (position t.kept) ∧
      (t.prune.listArguments a b).length = (t.listArguments a' b').length := by
  rcases hp : t.kept[p]? with _ | id
  · rw [get_prune_of_none hp] at hget
    cases hget
  · rw [get_prune hp] at hget
    have hid := (mem_kept.1 (List.mem_of_getElem? hp)).1
    cases hatom : t.get id <;> rw [hatom] at hget <;> cases hget
    rename_i a' b'
    refine ⟨id, a', b', hatom, rfl, ?_⟩
    cases b' with
    | none => rfl
    | some b' =>
      have hkept : b' ∈ t.kept := h.backward.mem_kept hid (by simp [hatom, Atom.operands])
      have hlength := congrArg List.length (@arguments_prune t _ (fun _ => none) h.backward hkept)
      rw [List.length_map, List.length_map] at hlength
      rw [Option.map_some, listArguments, listArguments, List.length_cons, List.length_cons, hlength]

theorem pruned : t.prune.WellFormed := by
  refine ⟨fun p hp => ?_, fun p hp x hx => ?_, ?_, ?_, ?_, ?_⟩
  · rw [size_prune] at hp
    have hid := List.getElem?_eq_getElem hp
    generalize t.kept[p] = id at hid
    have hkept := List.mem_of_getElem? hid
    have hpos := h.position_pos hkept
    rw [position_eq t.kept_sorted hid] at hpos
    rw [get_prune hid]
    have hsentinel : (t.get id).renumber (position t.kept) = .sentinel ↔ t.get id = .sentinel := by
      cases t.get id <;> simp [Atom.renumber]
    rw [hsentinel, h.sentinel id (mem_kept.1 hkept).1]
    simp only [Nat.pos_iff_ne_zero, ne_eq, not_iff_not] at hpos
    exact hpos.symm
  · rw [size_prune] at hp
    have hid := List.getElem?_eq_getElem hp
    generalize t.kept[p] = id at hid
    have hkept := List.mem_of_getElem? hid
    have hlt := (mem_kept.1 hkept).1
    rw [get_prune hid, operands_renumber] at hx
    obtain ⟨y, hy, rfl⟩ := List.mem_map.1 hx
    have hykept := h.backward.mem_kept hlt hy
    obtain ⟨hypos, hylt⟩ := h.operands id hlt y hy
    refine ⟨(h.position_pos hykept).2 hypos, ?_⟩
    rw [← position_eq t.kept_sorted hid]
    exact position_mono t.kept_sorted hykept hylt
  · have hkept := root_mem_kept h.root.2
    exact ⟨(h.position_pos hkept).2 h.root.1, root_prune_lt h.root.2⟩
  · intro p op a b folded isBoolean hget
    obtain ⟨id, a', b', hatom, rfl, -⟩ := h.of_prune_eq_apply hget
    rw [Option.map_eq_none_iff]
    exact h.arity id op a' b' _ _ hatom
  · intro p a b folded isBoolean hget
    obtain ⟨id, a', b', hatom, -, hlength⟩ := h.of_prune_eq_apply hget
    rw [hlength]
    exact h.ratio id a' b' _ _ hatom
  · intro p a b folded isBoolean hget
    obtain ⟨id, a', b', hatom, -, hlength⟩ := h.of_prune_eq_apply hget
    rw [hlength]
    exact h.pwl id a' b' _ _ hatom

theorem optimized (settings : Settings) : (t.optimize settings).WellFormed := by
  unfold AtomTable.optimize
  split
  · split
    · exact h.folded.pruned
    · exact h.folded
  · split
    · exact h.pruned
    · exact h

end WellFormed

end AtomTable

/-- Whatever compiles is a well-formed table: the sentinel stands at the front only, operands come
before their operators, and operators have what they take. An evaluation of it reads an atom, an
argument or a value that is not there just when it strays; else the reads all find what they are to
find, and no operator is left without its operands. -/
theorem wellFormed_compile {text : String} {settings : Settings}
    (h : compile text settings = .ok t) :
    t.WellFormed ∧ ∀ bindings, (t.evaluate? bindings = none ↔ t.Strays bindings) ∧
      (¬t.Strays bindings → t.evaluate? bindings = some (t.evaluate bindings)) := by
  obtain ⟨items, table, -, hassemble, rfl⟩ := compile_eq_ok.1 h
  obtain ⟨hassembled, hroot⟩ := assembled_of_assemble hassemble
  have hwell := (hassembled.wellFormed hroot.within).optimized settings
  exact ⟨hwell, fun bindings => ⟨hwell.evaluate?_eq_none_iff bindings,
    hwell.evaluate?_of_not_strays⟩⟩

theorem wellFormed_compile_pwl : ∃ t, compile "pwl(--x, 0, 2, 3-2, ratio(4, x, 5))" {} = .ok t ∧
    t.WellFormed ∧ t.evaluate? (fun _ => some 1) = some (t.evaluate fun _ => some 1) := by
  have hok : (compile "pwl(--x, 0, 2, 3-2, ratio(4, x, 5))" {}).isOk = true := by decide +kernel
  have hruns : (compile "pwl(--x, 0, 2, 3-2, ratio(4, x, 5))" {}).toOption.any
      (fun t => (t.evaluate? fun _ => some 1).isSome) = true := by decide +kernel
  cases hcompile : compile "pwl(--x, 0, 2, 3-2, ratio(4, x, 5))" {} with
  | error f =>
    rw [hcompile] at hok
    cases hok
  | ok t =>
    rw [hcompile] at hruns
    have hruns : (t.evaluate? fun _ => some 1).isSome = true := hruns
    obtain ⟨hwell, hevaluate⟩ := wellFormed_compile hcompile
    obtain ⟨hstrays, hanswer⟩ := hevaluate fun _ => some 1
    refine ⟨t, rfl, hwell, hanswer fun h => ?_⟩
    rw [hstrays.2 h] at hruns
    cases hruns

/-- Where the first abscissa is not a number, the lookup asks for the segment in front of it. -/
theorem wellFormed_compile_stray : ∃ t, compile "pwl(0.5, x, 0, 1, 1)" {} = .ok t ∧
    t.evaluate? (fun _ => some notANumber) = none := by
  have hstrays : (compile "pwl(0.5, x, 0, 1, 1)" {}).toOption.any
      (fun t => (t.evaluate? fun _ => some notANumber).isNone) = true := by decide +kernel
  cases hcompile : compile "pwl(0.5, x, 0, 1, 1)" {} with
  | error f =>
    rw [hcompile] at hstrays
    cases hstrays
  | ok t =>
    rw [hcompile] at hstrays
    exact ⟨t, rfl, Option.isNone_iff_eq_none.1 hstrays⟩

end Behavioral
