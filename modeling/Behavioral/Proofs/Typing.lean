import Behavioral.Proofs.Formation
import Behavioral.Proofs.Unbound

/-!
# Truth values

An atom carries whether it is a truth value. The mark is made once, when an operator adds the atom,
and tells what the operator yields: whatever the names are bound to, a marked atom has the value 0
or 1 if it has one (`Sound.truthValues`), also after folding and pruning
(`exists_truthValues_optimize`).

Assembling goes side by side with building the tree, each atom with the mark that its tree has
(`typing_simulates`). It stops at an operand of the other kind just as the tree does, so the mark of
the root is the kind of the text's parse tree (`kind_compile`).
-/

namespace Behavioral

open AtomTable Assembly Reduction

variable {folding : Bool} {Leaf : ParseTree → Prop} {t t' : AtomTable} {a c : AtomId} {atom : Atom}
  {e : ParseTree} {f g : AtomId → Option Float} {bindings : Bindings}
  {settings : Settings} {tokens : Tokens} {text : String}

namespace AtomTable

/-! ### Values of truth values -/

/-- Every truth value is 0 or 1. -/
def TruthValues (t : AtomTable) (f : AtomId → Option Float) : Prop :=
  ∀ id, (t.get id).isBoolean = true → ∀ x, f id = some x → x = 0 ∨ x = 1

theorem lt_size_of_isBoolean {id : AtomId} (h : (t.get id).isBoolean = true) : id < t.size := by
  refine lt_size_of_get rfl fun hget => ?_
  rw [hget] at h
  cases h

theorem Sound.truthValues (hsound : Sound folding Leaf t) (hf : t.Valuation bindings f) :
    t.TruthValues f := by
  intro id hid x hx
  have hwithin : Within t.size id := hsound.within_of_get rfl fun hget => by
    rw [hget] at hid
    cases hid
  obtain ⟨b, rfl⟩ := hsound.boolean_value hf hwithin hid hx
  cases b
  · exact .inl rfl
  · exact .inr rfl

theorem isBoolean_fold (atom : Atom) : atom.fold.isBoolean = atom.isBoolean := by
  unfold Atom.fold
  split <;> rfl

theorem isBoolean_renumber (atom : Atom) (rename : AtomId → AtomId) :
    (atom.renumber rename).isBoolean = atom.isBoolean := by
  cases atom <;> rfl

theorem TruthValues.fold (h : t.TruthValues f) : t.fold.TruthValues f := by
  intro id hid
  rw [get_fold, isBoolean_fold] at hid
  exact h id hid

theorem TruthValues.prune (h : t.TruthValues f) : t.prune.TruthValues (t.keptValue f) := by
  intro p hp
  have hlt := lt_size_of_isBoolean hp
  rw [size_prune] at hlt
  have hid := List.getElem?_eq_getElem hlt
  generalize t.kept[p] = id at hid
  rw [get_prune hid, isBoolean_renumber] at hp
  rw [keptValue, hid]
  exact h id hp

/-- The truth values of an optimized table are 0 or 1. -/
theorem exists_truthValues_optimize (hsound : Sound settings.foldConstants Leaf t)
    (bindings : Bindings) : ∃ f, (t.optimize settings).Valuation bindings f ∧
      (t.optimize settings).TruthValues f := by
  have pruned (t : AtomTable) (f : AtomId → Option Float) (hback : t.Backward)
      (hf : t.Valuation bindings f) (htruth : t.TruthValues f) :
      ∃ g, (if settings.pruneConstants then t.prune else t).Valuation bindings g ∧
        (if settings.pruneConstants then t.prune else t).TruthValues g := by
    split
    · exact ⟨_, hf.prune hback, htruth.prune⟩
    · exact ⟨f, hf, htruth⟩
  obtain ⟨f, hf⟩ := exists_valuation hsound.backward bindings
  have htruth := hsound.truthValues hf
  unfold optimize
  split
  · exact pruned t.fold f hsound.backward.fold (hf.fold hsound) htruth.fold
  · exact pruned t f hsound.backward hf htruth

/-- The truth values among the values that an evaluation computes are 0 or 1, however far it
comes. -/
theorem TruthValues.firstValues (hback : t.Backward) (hf : t.Valuation bindings f)
    (htruth : t.TruthValues f) {k : Nat} {vals : Array Float}
    (hvals : t.firstValues bindings k = .ok vals) {id : Nat} (hid : id < k)
    (hboolean : (t.get id).isBoolean = true) : valueAt vals id = 0 ∨ valueAt vals id = 1 := by
  have hsize := lt_size_of_isBoolean hboolean
  have hmin : t.firstValues bindings (min k t.size) = .ok vals := by
    rcases Nat.le_total k t.size with hle | hle
    · rwa [Nat.min_eq_left hle]
    · rwa [Nat.min_eq_right hle, ← values_eq le_rfl, values_eq hle]
  have hvalues := (hf.of_firstValues hback (Nat.min_le_right k t.size) hmin).2
  exact htruth id hboolean _ (hvalues id (lt_min hid hsize))

theorem isBoolean_root_optimize (settings : Settings) (hroot : t.root < t.size) :
    (t.optimize settings).rootAtom.isBoolean = t.rootAtom.isBoolean := by
  have pruned (t : AtomTable) (hroot : t.root < t.size) :
      (if settings.pruneConstants then t.prune else t).rootAtom.isBoolean =
        t.rootAtom.isBoolean := by
    split
    · have hget := get_prune_position (root_mem_kept hroot)
      exact (congrArg Atom.isBoolean hget).trans (isBoolean_renumber _ _)
    · rfl
  unfold optimize
  split
  · have hfold : t.fold.rootAtom = t.rootAtom.fold := get_fold t.root
    exact (pruned t.fold (size_fold.symm ▸ hroot)).trans (hfold ▸ isBoolean_fold _)
  · exact pruned t hroot

/-- Interning leaves the mark that the atom has. -/
theorem Assembled.isBoolean_intern (h : Assembled folding t)
    (hx : t.intern atom = .ok (c, t')) (hatom : Formed folding (fun _ => True) t t.size atom) :
    (t'.get c).isBoolean = atom.isBoolean := by
  rcases h.sound.intern_cases hatom with ⟨id, hintern, hid, hsame⟩ |
    ⟨-, ⟨-, t'', hintern, -, -, -, hget⟩ | ⟨-, hintern⟩⟩
  · rw [hintern] at hx
    cases hx
    have hformed := h.sound.formed c hid
    cases hget : t.get c with
    | sentinel | element | name =>
      rw [hget] at hsame
      cases atom <;> first | rfl | cases hsame
    | const x isBoolean =>
      rw [hget] at hsame
      cases atom <;> first | cases hsame | skip
      exact eq_of_beq (Bool.and_eq_true_iff.1 hsame).1
    | apply op x y folded isBoolean =>
      rw [hget] at hsame hformed
      cases atom <;> first | cases hsame | skip
      simp only [Atom.sameContent, Bool.and_eq_true, beq_iff_eq] at hsame
      obtain ⟨⟨rfl, rfl⟩, rfl⟩ := hsame
      exact (hformed.apply_eq hatom).2
  · rw [hintern] at hx
    cases hx
    rw [hget]
  · rw [hintern] at hx
    cases hx

end AtomTable

namespace Assembly

/-! ### Marks of operators -/

theorem kind_unary (h : Assembled folding t) (ha : t.IsOperand t.size a) {op : UnaryOp}
    (hkind : (t.get a).isBoolean = decide (op = .not))
    (hx : applyOp folding (.unary op) a none (decide (op = .not)) t = .ok (c, t')) :
    (t'.get c).isBoolean = decide (op = .not) := by
  rw [applyOp_unary] at hx
  exact h.isBoolean_intern hx ⟨ha, rfl, hkind, rfl⟩

theorem kind_binary (h : Assembled folding t) (ha : t.IsOperand t.size a) {b : AtomId}
    (hb : t.IsOperand t.size b) {op : BinaryOp}
    (hx : applyOp folding (.binary op) a (some b) op.isBoolean t = .ok (c, t')) :
    (t'.get c).isBoolean = op.isBoolean := by
  rw [applyOp_binary] at hx
  exact h.isBoolean_intern hx ⟨ha, hb, rfl, rfl⟩

theorem kind_lead (h : Assembled folding t) (ha : t.IsOperand t.size a) {op : LeadOp} {start : Nat}
    (hx : applyLead folding op a start t = .ok (c, t')) :
    (t.get a).isBoolean = decide (op.unary = .not) ∧
      (t'.get c).isBoolean = decide (op.unary = .not) := by
  rw [applyLead_eq] at hx
  split at hx
  · rename_i hkind
    refine ⟨hkind, ?_⟩
    cases hinner : operandOf? op.unary (t.get a) with
    | none =>
      rw [hinner] at hx
      exact kind_unary h ha hkind hx
    | some inner =>
      -- what a negation is applied to has the kind that the negation takes
      rw [hinner] at hx
      cases hx
      obtain ⟨folded, isBoolean, hget⟩ := get_of_operandOf? hinner
      have hformed := h.sound.formed a ha.within
      rw [hget] at hformed
      exact hformed.2.2.1.trans hformed.2.1
  · cases hx

theorem kind_join (h : Assembled folding t) (ha : t.IsOperand t.size a) {b : AtomId}
    (hb : t.IsOperand t.size b) {op : BinaryOp} {start : Nat}
    (hx : applyJoin folding op a b start t = .ok (c, t')) :
    typeFault? op (t.get a).isBoolean (t.get b).isBoolean start = none ∧
      (t'.get c).isBoolean = op.isBoolean := by
  rw [applyJoin_eq] at hx
  cases hfits : typeFault? op (t.get a).isBoolean (t.get b).isBoolean start with
  | some fault =>
    rw [hfits] at hx
    cases hx
  | none =>
    rw [hfits] at hx
    refine ⟨rfl, ?_⟩
    dsimp only at hx
    split at hx
    · rename_i hpow
      obtain ⟨rfl, -⟩ := hpow
      have hkind : (t.get a).isBoolean = false := by
        cases hboolean : (t.get a).isBoolean with
        | false => rfl
        | true => simp [typeFault?, hboolean] at hfits
      exact @kind_unary _ _ _ _ _ h ha .square hkind hx
    · split at hx
      · cases hx
      · exact kind_binary h ha hb hx

theorem kind_call (h : Assembled folding t) (ha : t.IsOperand t.size a) {op : UnaryOp}
    {name : String} (hop : UnaryOp.ofFunctionName? name = some op) {start : Nat}
    (hx : applyCall folding op name a start t = .ok (c, t')) :
    (t.get a).isBoolean = false ∧ (t'.get c).isBoolean = false := by
  rw [applyCall_eq] at hx
  split at hx
  · cases hx
  · rename_i hkind
    have hnumber := Bool.eq_false_iff.2 hkind
    have hfalse : decide (op = .not) = false := decide_eq_false (ne_not_of_ofFunctionName? hop)
    rw [← hfalse] at hx
    exact ⟨hnumber, (kind_unary h ha (hnumber.trans hfalse.symm) hx).trans hfalse⟩

theorem kind_list (h : Assembled folding t) {args : List AtomId}
    (hargs : ∀ a ∈ args, t.IsOperand t.size a) (hthree : 3 ≤ args.length) {op : ListOp}
    {name : String} {start : Nat} (hx : applyList op name args start t = .ok (c, t')) :
    (args.any fun a => (t.get a).isBoolean) = false ∧ (t'.get c).isBoolean = false := by
  obtain ⟨first, rest, rfl⟩ := List.exists_cons_of_length_pos (by omega : 0 < args.length)
  obtain ⟨hfirst, hrest⟩ := List.forall_mem_cons.1 hargs
  have hne : rest ≠ [] := by
    rintro rfl
    simp at hthree
  rw [applyList_cons] at hx
  split at hx
  · cases hx
  · rename_i hkind
    refine ⟨Bool.eq_false_iff.2 hkind, ?_⟩
    rcases addChain_spec h.sound hne hrest with
      ⟨tail, t'', hrun, hext, hsound, htail, -, hadds⟩ | hrun
    · rw [hrun] at hx
      have hassembled : Assembled folding t'' := by
        refine h.grow hext hsound (hadds.imp ?_)
        rintro _ ⟨x, y, rfl⟩
        trivial
      exact hassembled.isBoolean_intern hx ⟨hfirst.mono hext le_rfl hext.size, htail, rfl, rfl⟩
    · rw [hrun] at hx
      cases hx

/-! ### Atoms beside trees -/

/-- The atom has the kind that the tree is read as. -/
structure Typed (t : AtomTable) (a : AtomId) (e : ParseTree) : Prop where
  operand : t.IsOperand t.size a
  kind : (t.get a).isBoolean = e.isBoolean

theorem Typed.mono (h : Typed t a e) (hext : Extends t t') : Typed t' a e :=
  ⟨h.operand.mono hext le_rfl hext.size, by rw [hext.get a h.operand.within.2, h.kind]⟩

/-- Atoms beside trees of their kind. -/
def typing (folding : Bool) : Correspondence AtomTable Unit AtomId ParseTree where
  Inv w := Assembled folding w.1
  Grows w w' := Extends w.1 w'.1
  Rel w a e := Typed w.1 a e
  Excused _ := True
  refl := grows_refl
  trans := @grows_trans
  mono hext h := h.mono hext

/-- Where an atom is added, the tree fits, and is related to the atom. -/
theorem agrees_of_added {w : AtomTable × Unit} {x : Build AtomTable AtomId} {fault? : Option Fault}
    {R : AtomTable × Unit → AtomId → ParseTree → Prop}
    (hkeeps : Assembled folding w.1 → AtomTable.Keeps folding w.1 (x w.1))
    (hadded : Assembled folding w.1 → ∀ a t', x w.1 = .ok (a, t') → t'.IsOperand t'.size a →
      fault? = none ∧ R (t', w.2) a e) :
    (typing folding).Agrees w x (ParseTree.grow fault? e) R := by
  intro hw
  have hkeeps := hkeeps hw
  have hadded := hadded hw
  show (typing folding).Outcome w _ (x w.1) _
  generalize x w.1 = result at hkeeps hadded
  cases result with
  | error f => exact .excused trivial
  | ok r =>
    obtain ⟨a, t'⟩ := r
    obtain ⟨hext, hassembled, ha⟩ := hkeeps a t' rfl
    obtain ⟨rfl, hrel⟩ := hadded a t' rfl ha
    exact .ok (t := w.2) hext hassembled hrel

theorem agrees_of_kind {w : AtomTable × Unit} {x : Build AtomTable AtomId} {fault? : Option Fault}
    (hkeeps : Assembled folding w.1 → AtomTable.Keeps folding w.1 (x w.1))
    (hkind : Assembled folding w.1 → ∀ a t', x w.1 = .ok (a, t') →
      fault? = none ∧ (t'.get a).isBoolean = e.isBoolean) :
    (typing folding).Agrees w x (ParseTree.grow fault? e) (typing folding).Rel :=
  agrees_of_added hkeeps fun hw a t' hx ha => (hkind hw a t' hx).imp_right fun h => ⟨ha, h⟩

theorem any_isBoolean_typed {as : List AtomId} {es : List ParseTree}
    (h : List.Forall₂ (Typed t) as es) :
    (as.any fun a => (t.get a).isBoolean) = es.any ParseTree.isBoolean := by
  induction h with
  | nil => rfl
  | cons ha _ ih => rw [List.any_cons, List.any_cons, ha.kind, ih]

/-- Assembling goes side by side with building trees that fit together. -/
theorem typing_simulates : Simulates (typing folding) (algebra folding) (ParseTree.algebra false)
    (fun _ => True) fun f => Item.isReciprocal f = true where
  number w x _ :=
    @agrees_of_kind folding (.number x) w (addAtom (.const x false)) none
      (fun h => h.keeps_const x) fun h _ _ hx => ⟨rfl, h.isBoolean_intern hx ⟨rfl, trivial⟩⟩
  name w n _ :=
    @agrees_of_kind folding (.name n) w (addAtom (.name n)) none
      (fun h => h.keeps_intern trivial trivial nofun nofun)
      fun h _ _ hx => ⟨rfl, h.isBoolean_intern hx trivial⟩
  reciprocal w f x start _ _ :=
    @agrees_of_added folding (.number x) w (addAtom (.const (inverse x) false)) none _
      (fun h => h.keeps_const (inverse x)) fun h a t' hx ha => ⟨rfl, fun w' hext => by
        have hkind : (t'.get a).isBoolean = false := h.isBoolean_intern hx ⟨rfl, trivial⟩
        have htyped : Typed t' a (.call .inv (.number x)) := ⟨ha, hkind⟩
        exact ⟨_, rfl, htyped.mono hext⟩⟩
  lead w op a e start ha := by
    refine agrees_of_kind (fun h => keeps_lead h ha.operand op start) fun h c t' hx => ?_
    obtain ⟨hkind, hc⟩ := kind_lead h ha.operand hx
    rw [ha.kind] at hkind
    refine ⟨?_, hc.trans op.isBoolean_tree.symm⟩
    cases op <;> simpa [ParseTree.leadFault?, LeadOp.unary] using hkind
  join w op a b ea eb start ha hb := by
    refine agrees_of_kind (fun h => keeps_join h ha.operand hb.operand op start)
      fun h c t' hx => ?_
    obtain ⟨hfits, hc⟩ := kind_join h ha.operand hb.operand hx
    rw [ha.kind, hb.kind] at hfits
    exact ⟨by simp [ParseTree.joinFault?, hfits], hc⟩
  call w op f a e start hop ha := by
    refine agrees_of_kind (fun h => keeps_call h ha.operand hop start) fun h c t' hx => ?_
    obtain ⟨hkind, hc⟩ := kind_call h ha.operand hop hx
    rw [ha.kind] at hkind
    exact ⟨by simp [ParseTree.callFault?, hkind], hc⟩
  callList w op name as es start has hthree htakes := by
    have hargs : ∀ a ∈ as, w.1.IsOperand w.1.size a := by
      intro a ha
      obtain ⟨i, hi, rfl⟩ := List.getElem_of_mem ha
      exact (has.get hi (has.length_eq ▸ hi)).operand
    refine agrees_of_kind (fun h => keeps_list h hargs hthree htakes name start)
      fun h c t' hx => ?_
    obtain ⟨hkind, hc⟩ := kind_list h hargs hthree hx
    rw [any_isBoolean_typed has] at hkind
    exact ⟨by simp [ParseTree.listFault?, hkind], hc⟩

end Assembly

/-- The root of an assembled table has the kind of a tree of the tokens that fits together. -/
theorem assemble_typed (h : assemble folding (prepare tokens) = .ok t) :
    ∃ e, Derives 7 (Item.ofTokens tokens) e ∧ e.All (ParseTree.Fits false) ∧
      t.rootAtom.isBoolean = e.isBoolean := by
  obtain ⟨root, table, hrun, rfl⟩ := assemble_eq_ok.1 h
  have hempty : Assembled folding AtomTable.empty :=
    ⟨sound_empty, fun id hid => by
      obtain rfl : id = 0 := Nat.lt_one_iff.1 hid
      trivial⟩
  have hagrees := run_agrees (@typing_simulates folding) (fun _ => inv_of_isReciprocal)
    (AtomTable.empty, ()) (expanded_expandReciprocals (Item.ofTokens tokens)) (fun _ _ => trivial)
    hempty
  rw [← prepare, hrun] at hagrees
  generalize htree : Reduction.run (ParseTree.algebra false) (Item.ofTokens tokens) () = y
    at hagrees
  cases hagrees with
  | ok _ _ htyped =>
    obtain ⟨hderives, hfits⟩ := run_sound (ParseTree.builds_algebra false) htree
    exact ⟨_, hderives, hfits, htyped.kind⟩
  | pardoned hpardoned => exact hpardoned.elim

/-- Whatever compiles is well typed, and its root is marked as a truth value just when its parse
tree is one. However far an evaluation comes, and whatever the names are bound to, the atoms that
are marked as truth values have the value 0 or 1. Once all names are bound it comes to the end,
unless it strays. -/
theorem kind_compile (h : compile text settings = .ok t) :
    (∀ bindings, (∀ k vals, t.firstValues bindings k = .ok vals →
        ∀ id < k, (t.get id).isBoolean = true → valueAt vals id = 0 ∨ valueAt vals id = 1) ∧
      ((∀ n ∈ t.names, (bindings n).isSome) →
        (∃ vals, t.values bindings = .ok vals) ∨ t.Strays bindings)) ∧
    ∃ tokens, tokenize text settings = .ok tokens ∧ (∃ tree, Parses 7 tokens tree) ∧
      ∀ tree, Parses 7 tokens tree → (∃ k, tree.HasKind k) ∧
        ∀ k, tree.HasKind k → t.rootAtom.isBoolean = decide (k = .boolean) := by
  obtain ⟨items, table, hitems, hassemble, rfl⟩ := compile_eq_ok.1 h
  obtain ⟨tokens, htokens, -, rfl, -⟩ := itemsOf_eq_ok.1 hitems
  obtain ⟨hassembled, hroot⟩ := assembled_of_assemble hassemble
  obtain ⟨e, he, hfits, hkind⟩ := assemble_typed hassemble
  obtain ⟨tree, htree, -⟩ := Item.derives_ofTokens.1 he
  refine ⟨fun bindings => ?_, tokens, htokens, ⟨tree, htree⟩, fun tree htree => ?_⟩
  · have hwell := (hassembled.wellFormed hroot.within).optimized settings
    obtain ⟨f, hf, htruth⟩ := exists_truthValues_optimize hassembled.sound bindings
    refine ⟨fun k vals hvals id hid => htruth.firstValues hwell.backward hf hvals hid,
      fun hbound => or_iff_not_imp_right.2 fun hstrays => ?_⟩
    obtain ⟨x, hx⟩ := (evaluate_ok_iff hwell.backward hwell.root.2).2 ⟨hbound, hstrays⟩
    cases hvals : (table.optimize settings).values bindings with
    | ok vals => exact ⟨vals, rfl⟩
    | error fault =>
      rw [evaluate, hvals] at hx
      cases hx
  · obtain rfl := settle_unique he htree
    refine ⟨ParseTree.fits_settle.1 hfits, fun k hk => ?_⟩
    rw [isBoolean_root_optimize settings hroot.within.2, hkind]
    exact (hk.fits false fun hodd => absurd hodd Bool.false_ne_true).2

theorem kind_compile_negations : ∃ t vals, compile "!!(x>-0)" {} = .ok t ∧
    t.rootAtom.isBoolean = true ∧ t.values (fun _ => some notANumber) = .ok vals ∧
      ∀ id, (t.get id).isBoolean = true → valueAt vals id = 0 ∨ valueAt vals id = 1 := by
  have hok : (compile "!!(x>-0)" {}).toOption.any
      (fun t => (t.values fun _ => some notANumber).isOk) = true := by decide +kernel
  have hread : (tokenize "!!(x>-0)" {}).toOption = some
      [⟨0, .symbol .not, 1⟩, ⟨1, .symbol .not, 2⟩, ⟨2, .symbol .opening, 3⟩, ⟨3, .name "x", 4⟩,
        ⟨4, .symbol .greater, 5⟩, ⟨5, .symbol .minus, 6⟩, ⟨6, .number 0, 7⟩,
        ⟨7, .symbol .closing, 8⟩] := by
    decide +kernel
  cases hcompile : compile "!!(x>-0)" {} with
  | error f =>
    rw [hcompile] at hok
    cases hok
  | ok t =>
    rw [hcompile] at hok
    have hends : (t.values fun _ => some notANumber).isOk = true := hok
    obtain ⟨hvalues, tokens, htokens, -, hkind⟩ := kind_compile hcompile
    rw [htokens] at hread
    cases hread
    have minus : Parses 0 [⟨5, .symbol .minus, 6⟩, ⟨6, .number 0, 7⟩] (.sign .minus (.number 0)) :=
      @Parses.sign 5 6 .minus _ _ .number
    have greater : Parses 4
        ([⟨3, .name "x", 4⟩] ++ ⟨4, .symbol .greater, 5⟩ ::
          [⟨5, .symbol .minus, 6⟩, ⟨6, .number 0, 7⟩])
        (.join .gt (.name "x") (.sign .minus (.number 0))) :=
      @Parses.join _ _ .gt _ _ _ _ (.up (.up (.up (.up .name)))) (.up (.up (.up minus)))
    have bracket : Parses 0 _ _ := @Parses.bracket 2 3 7 8 _ _ (.up (.up (.up greater)))
    have tree : Parses 0 _ _ := @Parses.not 0 1 _ _ (@Parses.not 1 2 _ _ bracket)
    have kind : ParseTree.HasKind (.join .gt (.name "x") (.sign .minus (.number 0))) .boolean :=
      @ParseTree.HasKind.join .gt _ _ .number (.name "x")
        (@ParseTree.HasKind.run [.minus] _ _ (.number 0) fun _ => rfl) rfl
    have hroot := (hkind _ (.up (.up (.up (.up (.up (.up (.up tree)))))))).2 .boolean
      (.not (.not (.bracket kind)))
    cases hvals : t.values fun _ => some notANumber with
    | error f =>
      rw [hvals] at hends
      cases hends
    | ok vals =>
      refine ⟨t, vals, rfl, hroot, hvals, fun id hid => ?_⟩
      exact (hvalues _).1 t.size vals (values_eq le_rfl ▸ hvals) id (lt_size_of_isBoolean hid) hid

end Behavioral
