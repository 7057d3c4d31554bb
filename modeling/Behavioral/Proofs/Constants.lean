import Behavioral.Proofs.Naming
import Behavioral.Proofs.Pruning
import Behavioral.Proofs.Typing

/-!
# Folding is complete

An operator whose operands carry values carries one itself when it is interned, so once folding is
done, every operator of one or two operands has one without a value (`Sound.exists_variable`), and
pruning keeps that. A text without operand names and without functions of a list makes a table
without names and elements (`scalar_of_called`). All atoms behind its sentinel carry values, so they
fold to constants, of which pruning leaves the root alone (`atoms_of_scalar`).
-/

namespace Behavioral

open AtomTable Assembly Correspondence Reduction

variable {fold : Bool} {Leaf : ParseTree → Prop} {t t' : AtomTable} {a id : AtomId} {atom : Atom}
  {f : String} {ts us tokens : Tokens} {tree : ParseTree} {text : String} {settings : Settings}
  {P : AtomTable → Prop}

/-! ### Functions of a list -/

/-- The names in front of brackets, in the order of the text. -/
def calledNames : Tokens → List String
  | [] => []
  | ⟨_, .name f, _⟩ :: ⟨_, .symbol .opening, _⟩ :: rest => f :: calledNames rest
  | _ :: rest => calledNames rest

theorem calledNames_cons (i : Spanned Token) (ts : Tokens) :
    calledNames ts ⊆ calledNames (i :: ts) := by
  rw [calledNames.eq_def (i :: ts)]
  split
  · contradiction
  · rename_i hcons
    cases hcons
    exact List.subset_cons_self _ _
  · rename_i hcons
    cases hcons
    exact List.Subset.refl _

theorem calledNames_append_left (us : Tokens) : calledNames ts ⊆ calledNames (ts ++ us) := by
  fun_induction calledNames ts with
  | case1 => exact List.nil_subset _
  | case2 s f e s' e' rest ih => exact List.cons_subset_cons f ih
  | case3 i rest hname ih => exact List.Subset.trans ih (calledNames_cons i _)

theorem calledNames_append_right (ts : Tokens) : calledNames us ⊆ calledNames (ts ++ us) := by
  induction ts with
  | nil => exact List.Subset.refl _
  | cons i ts ih => exact List.Subset.trans ih (calledNames_cons i _)

namespace ParseTree

/-- Not a function of a list. -/
def Listless : ParseTree → Prop
  | list _ _ => False
  | _ => True

theorem listless_negated {odd : Bool} : (negated odd tree).All Listless ↔ tree.All Listless := by
  cases odd
  · rfl
  · exact (@all_lead _ _ .negate).trans (and_iff_right trivial)

theorem listless_sign {σ : Sign} : (sign σ tree).All Listless ↔ tree.All Listless := by
  simp [All, nodes, Listless]

theorem listless_bracket : (bracket tree).All Listless ↔ tree.All Listless := by
  simp [All, nodes, Listless]

/-- Settling signs makes no list. -/
theorem listless_settle : ∀ {odd : Bool} {tree : ParseTree}, tree.All Listless →
    (tree.settle odd).All Listless
  | _, number _, _ => all_number.2 trivial
  | _, name _, _ => listless_negated.2 (all_name.2 trivial)
  | _, sign .plus a, h => @listless_settle _ a (listless_sign.1 h)
  | _, sign .minus a, h => @listless_settle _ a (listless_sign.1 h)
  | _, not a, h =>
    have ha := ((@all_lead _ _ .not).1 h).2
    listless_negated.2 ((@all_lead _ _ .not).2 ⟨trivial, @listless_settle _ a ha⟩)
  | _, bracket a, h => listless_negated.2 (@listless_settle _ a (listless_bracket.1 h))
  | _, join _ a b, h =>
    have ⟨_, ha, hb⟩ := all_join.1 h
    listless_negated.2 (all_join.2
      ⟨trivial, @listless_settle _ a ha, @listless_settle _ b hb⟩)
  | _, call _ a, h =>
    have ha := (all_call.1 h).2
    listless_negated.2 (all_call.2 ⟨trivial, @listless_settle _ a ha⟩)
  | _, list _ _, h => ((all_list.1 h).1).elim

/-- Trees without lists: a function of a list fails. -/
def listless : Algebra Unit ParseTree :=
  { shapes with callList := fun _ _ _ start => Reduction.fail (.emptyArgument start) }

theorem builds_listless : Builds listless Listless where
  number _ := ⟨rfl, trivial⟩
  name _ := ⟨rfl, trivial⟩
  lead op a start t := by cases op <;> simp [listless, shapes, LeadOp.tree, Listless]
  join op a b start t := by simp [listless, shapes, Listless]
  call op f a start t := by simp [listless, shapes, Listless]
  callList op f args start t := by simp [listless, Listless]

end ParseTree

/-- A phrase that calls no function of a list has a tree without any. -/
theorem Parses.listless : ∀ {k : Nat} {ts : Tokens} {tree : ParseTree}, Parses k ts tree →
    (∀ f ∈ calledNames ts, ListOp.ofName? f = none) → tree.All ParseTree.Listless
  | _, _, _, .number, _ => ParseTree.all_number.2 trivial
  | _, _, _, .name, _ => ParseTree.all_name.2 trivial
  | _, _, _, .sign h, hcalled => ParseTree.listless_sign.2 (h.listless hcalled)
  | _, _, _, .not h, hcalled => (@ParseTree.all_lead _ _ .not).2 ⟨trivial, h.listless hcalled⟩
  | _, _, _, .bracket h, hcalled =>
    ParseTree.listless_bracket.2
      (h.listless fun f hf => hcalled f (calledNames_append_left _ hf))
  | _, _, _, .call _ h, hcalled =>
    ParseTree.all_call.2 ⟨trivial, h.listless fun f hf =>
      hcalled f (List.mem_cons_of_mem _ (calledNames_append_left _ hf))⟩
  | _, _, _, .list hop _ _ _, hcalled => by
    rw [hcalled _ (List.mem_cons_self ..)] at hop
    cases hop
  | _, _, _, .up h, hcalled => h.listless hcalled
  | _, _, _, @Parses.join s e op ts us a b ha hb, hcalled => by
    refine ParseTree.all_join.2 ⟨trivial, ha.listless fun f hf => ?_, hb.listless fun f hf => ?_⟩
    · exact hcalled f (calledNames_append_left _ hf)
    · exact hcalled f (calledNames_append_right ts (calledNames_append_right [_] hf))

/-! ### Tables without lists -/

namespace AtomTable

/-- No list elements and no functions of a list. -/
def Listless (t : AtomTable) : Prop :=
  ∀ id, (t.get id).isInner = true → (t.get id).Scalar

theorem Listless.intern (hatom : atom.isInner = true → atom.Scalar)
    (h : t.intern atom = .ok (a, t')) (ht : t.Listless) : t'.Listless :=
  forall_get_intern (Q := fun atom => atom.isInner = true → atom.Scalar) nofun ht hatom h

end AtomTable

namespace Assembly

/-- Assembling beside building trees, as long as neither fails. -/
def listing : Correspondence AtomTable Unit AtomId ParseTree where
  Inv w := w.1.Listless
  Grows _ _ := True
  Rel _ _ _ := True
  Excused _ := True
  Pardoned _ := True
  refl _ := trivial
  trans _ _ := trivial
  mono _ _ := trivial

theorem agrees_of_listless {w : AtomTable × Unit} {x : Build AtomTable AtomId}
    {y : Build Unit ParseTree} {R : AtomTable × Unit → AtomId → ParseTree → Prop}
    (hR : ∀ w a e, R w a e)
    (h : ∀ {t t' : AtomTable} {a : AtomId}, x t = .ok (a, t') → t.Listless → t'.Listless) :
    listing.Agrees w x y R := by
  intro hw
  cases hx : x w.1 with
  | error fault => exact .excused trivial
  | ok r =>
    cases hy : y w.2 with
    | error fault => exact .pardoned trivial
    | ok s => exact .ok trivial (h hx hw) (hR _ _ _)

/-- No list is assembled where none is built. -/
theorem listing_simulates : Simulates listing (algebra fold) ParseTree.listless (fun _ => True)
    (fun f => Item.isReciprocal f = true) :=
  have keeps : Reduction.Keeps (scalars fold) Listless :=
    keepsScalar_of_intern fun hatom => Listless.intern fun _ => hatom
  { number := fun _ _ _ => agrees_of_listless (fun _ _ _ => trivial) (Listless.intern nofun)
    name := fun _ _ _ => agrees_of_listless (fun _ _ _ => trivial) (Listless.intern nofun)
    reciprocal := fun _ _ _ _ _ _ =>
      agrees_of_listless (fun _ _ _ _ _ => ⟨_, rfl, trivial⟩) (Listless.intern nofun)
    lead := fun _ op a _ start _ =>
      agrees_of_listless (fun _ _ _ => trivial) (keeps.lead op a start)
    join := fun _ op a a' _ _ start _ _ =>
      agrees_of_listless (fun _ _ _ => trivial) (keeps.join op a a' start)
    call := fun _ op f a _ start _ _ =>
      agrees_of_listless (fun _ _ _ => trivial) (keeps.call op f a start)
    callList := fun _ _ _ _ _ _ _ _ _ _ => .pardoned trivial }

/-- Without calls of functions of a list, the assembled table has none. -/
theorem listless_assemble (h : assemble fold (prepare tokens) = .ok t)
    (hcalled : ∀ f ∈ calledNames tokens, ListOp.ofName? f = none) : t.Listless := by
  obtain ⟨e, he, -⟩ := assemble_typed h
  obtain ⟨tree, htree, rfl⟩ := Item.derives_ofTokens.1 he
  obtain ⟨root, table, hrun, rfl⟩ := assemble_eq_ok.1 h
  have hempty : AtomTable.empty.Listless := by
    intro id hid
    rcases Nat.eq_zero_or_pos id with rfl | hpos
    · cases hid
    · rw [get_of_size_le hpos] at hid
      cases hid
  have hagrees := run_agrees (@listing_simulates fold) (fun _ => inv_of_isReciprocal)
    (AtomTable.empty, ()) (expanded_expandReciprocals (Item.ofTokens tokens)) (fun _ _ => trivial)
    hempty
  have hbuilt : run ParseTree.listless (Item.ofTokens tokens) () = .ok (tree.settle false, ()) :=
    run_complete ParseTree.builds_listless he (ParseTree.listless_settle (htree.listless hcalled))
  rw [← prepare, hrun, hbuilt] at hagrees
  cases hagrees with
  | ok _ hinv _ => exact hinv

end Assembly

namespace AtomTable

/-- An operator without a value has an operand without one. -/
theorem Formed.exists_variable {n : Nat} (h : Formed true Leaf t n atom) (hscalar : atom.Scalar)
    (hnone : atom.constant? = none) : ∃ x ∈ atom.operands, (t.get x).constant? = none := by
  cases hscalar with
  | @unary op x y folded isBoolean =>
    cases y with
    | none =>
      obtain ⟨-, -, -, hfolded⟩ := h
      refine ⟨x, by simp [Atom.operands], ?_⟩
      cases hx : (t.get x).constant? with
      | none => rfl
      | some v =>
        rw [hx] at hfolded
        exact absurd (hfolded.symm.trans hnone) (Option.some_ne_none _)
    | some y => exact h.elim
  | @binary op x y folded isBoolean =>
    cases y with
    | none => exact h.elim
    | some y =>
      obtain ⟨-, -, -, hfolded⟩ := h
      cases hx : (t.get x).constant? with
      | none => exact ⟨x, by simp [Atom.operands], hx⟩
      | some v =>
        refine ⟨y, by simp [Atom.operands], ?_⟩
        cases hy : (t.get y).constant? with
        | none => rfl
        | some w =>
          rw [hx, hy] at hfolded
          exact absurd (hfolded.symm.trans hnone) (Option.some_ne_none _)

theorem constant?_fold (atom : Atom) : atom.fold.constant? = atom.constant? := by
  unfold Atom.fold
  split <;> rfl

theorem constant?_renumber (atom : Atom) (rename : AtomId → AtomId) :
    (atom.renumber rename).constant? = atom.constant? := by
  cases atom <;> rfl

/-- Every operator of one or two operands has one without a value. -/
def Varies (t : AtomTable) : Prop :=
  ∀ id, (t.get id).Scalar → ∃ x ∈ (t.get id).operands, (t.get x).constant? = none

theorem of_scalar_fold (h : atom.fold.Scalar) : atom.fold = atom ∧ atom.constant? = none := by
  cases atom with
  | apply op a b folded isBoolean =>
    cases folded with
    | none => exact ⟨rfl, rfl⟩
    | some x => cases h
  | sentinel | const | element | name => cases h

theorem Sound.varies_fold (h : Sound true Leaf t) : t.fold.Varies := by
  intro id hscalar
  rw [get_fold] at hscalar ⊢
  obtain ⟨hfold, hnone⟩ := of_scalar_fold hscalar
  rw [hfold] at hscalar ⊢
  have hid : Within t.size id := by
    refine h.within_of_get rfl fun hget => ?_
    rw [hget] at hscalar
    cases hscalar
  obtain ⟨x, hx, hvariable⟩ := (h.formed id hid).exists_variable hscalar hnone
  exact ⟨x, hx, by rw [get_fold, constant?_fold, hvariable]⟩

theorem scalar_of_renumber {rename : AtomId → AtomId} (h : (atom.renumber rename).Scalar) :
    atom.Scalar := by
  cases atom with
  | apply op a b folded isBoolean =>
    cases h with
    | unary => exact .unary
    | binary => exact .binary
  | sentinel | const | element | name => cases h

theorem Varies.prune (hback : t.Backward) (h : t.Varies) : t.prune.Varies := by
  intro p hscalar
  rcases hp : t.kept[p]? with _ | id
  · rw [get_prune_of_none hp] at hscalar
    cases hscalar
  · rw [get_prune hp] at hscalar ⊢
    obtain ⟨x, hx, hvariable⟩ := h id (scalar_of_renumber hscalar)
    have hkept := hback.mem_kept (mem_kept.1 (List.mem_of_getElem? hp)).1 hx
    refine ⟨position t.kept x, ?_, ?_⟩
    · rw [operands_renumber]
      exact List.mem_map_of_mem hx
    · rw [get_prune_position hkept, constant?_renumber, hvariable]

/-- Without names and lists, every atom carries a value. -/
theorem Sound.constant_of_listless (h : Sound true Leaf t) (hnames : t.names = [])
    (hlistless : t.Listless) (id : Nat) : Within t.size id →
    ∃ v, (t.get id).constant? = some v := by
  induction id using Nat.strongRecOn with
  | _ id ih =>
    intro hid
    have hformed := h.formed id hid
    by_cases hscalar : (t.get id).Scalar
    · by_contra hvariable
      have hnone : (t.get id).constant? = none := by
        rw [Option.eq_none_iff_forall_ne_some]
        exact fun v hv => hvariable ⟨v, hv⟩
      obtain ⟨x, hx, hxnone⟩ := hformed.exists_variable hscalar hnone
      have hwithin := hformed.operands_within x hx
      obtain ⟨v, hv⟩ := ih x hwithin.2 ⟨hwithin.1, hwithin.2.trans hid.2⟩
      rw [hv] at hxnone
      cases hxnone
    · have hinner := mt (hlistless id) hscalar
      cases hget : t.get id with
      | const x isBoolean => exact ⟨x, rfl⟩
      | name n =>
        have hmem := mem_names_iff.2 ⟨_, hget⟩
        rw [hnames] at hmem
        cases hmem
      | sentinel =>
        rw [hget] at hformed
        exact hformed.elim
      | apply | element =>
        rw [hget] at hinner
        exact absurd rfl hinner

/-- Of constants alone, pruning keeps the sentinel and the root. -/
theorem kept_of_isConst (hroot : Within t.size t.root)
    (hconst : ∀ id, Within t.size id → (t.get id).isConst = true)
    (hoperands : ∀ user, (t.get user).operands = []) (hsentinel : t.get 0 = .sentinel) :
    t.kept = [0, t.root] := by
  refine t.kept_sorted.eq_of_mem_iff (by simp [hroot.1]) fun id => ?_
  rw [mem_kept, keeps_iff, List.mem_pair]
  constructor
  · rintro ⟨hid, hidle⟩
    by_contra hother
    rw [not_or] at hother
    refine hidle ⟨hconst id ⟨Nat.pos_of_ne_zero hother.1, hid⟩, hother.2, fun user => ?_⟩
    rw [hoperands user]
    exact List.not_mem_nil
  · rintro (rfl | rfl)
    · refine ⟨hroot.1.trans hroot.2, fun hidle => ?_⟩
      have hidleConst := hidle.1
      rw [hsentinel] at hidleConst
      cases hidleConst
    · exact ⟨hroot.2, fun hidle => hidle.2.1 rfl⟩

theorem operands_of_isConst (h : atom.isConst = true) : atom.operands = [] := by
  cases atom <;> first | rfl | cases h

theorem prune_constants (hsentinel : t.get 0 = .sentinel) (hroot : Within t.size t.root)
    (hconst : ∀ id, Within t.size id → (t.get id).isConst = true) :
    t.prune.atoms = #[.sentinel, t.rootAtom] ∧ t.prune.root = 1 := by
  have hoperands (user : AtomId) : (t.get user).operands = [] := by
    by_cases huser : Within t.size user
    · exact operands_of_isConst (hconst user huser)
    · rcases Nat.eq_zero_or_pos user with rfl | hpos
      · rw [hsentinel]
        rfl
      · rw [get_of_size_le (Nat.le_of_not_lt fun hlt => huser ⟨hpos, hlt⟩)]
        rfl
  have hkept := kept_of_isConst hroot hconst hoperands hsentinel
  have hrootAtom (rename : AtomId → AtomId) : t.rootAtom.renumber rename = t.rootAtom := by
    refine Atom.renumber_eq_self fun x hx => ?_
    rw [rootAtom, hoperands] at hx
    cases hx
  refine ⟨?_, ?_⟩
  · simp only [AtomTable.prune, hkept, List.map_cons, List.map_nil, hsentinel]
    rw [← rootAtom, hrootAtom]
    rfl
  · simp only [AtomTable.prune, hkept]
    exact position_eq (by simp [hroot.1]) rfl

theorem isConst_fold {v : Float} (h : atom.constant? = some v) :
    ∃ isBoolean, atom.fold = .const v isBoolean := by
  cases atom <;> cases h <;> exact ⟨_, rfl⟩

/-- Without names and lists, folding and pruning leave one constant. -/
theorem Sound.prune_of_listless (h : Sound true Leaf t) (hroot : Within t.size t.root)
    (hnames : t.names = []) (hlistless : t.Listless) :
    ∃ x isBoolean, t.fold.prune.atoms = #[.sentinel, .const x isBoolean] ∧
      t.fold.prune.root = 1 := by
  have hconst (id : AtomId) (hid : Within t.fold.size id) :
      ∃ x isBoolean, t.fold.get id = .const x isBoolean := by
    rw [size_fold] at hid
    obtain ⟨v, hv⟩ := h.constant_of_listless hnames hlistless id hid
    rw [get_fold]
    exact ⟨v, isConst_fold hv⟩
  have hsentinel : t.fold.get 0 = .sentinel := by
    rw [get_fold, h.sentinel]
    rfl
  have hroot' : Within t.fold.size t.fold.root := size_fold.symm ▸ hroot
  obtain ⟨x, isBoolean, hrootAtom⟩ := hconst t.fold.root hroot'
  obtain ⟨hatoms, hposition⟩ := prune_constants hsentinel hroot' fun id hid => by
    obtain ⟨x, isBoolean, hget⟩ := hconst id hid
    rw [hget]
    rfl
  refine ⟨x, isBoolean, ?_, hposition⟩
  rw [hatoms, rootAtom, hrootAtom]

end AtomTable

/-- With folding and pruning, whatever compiles has no operator of one or two operands on constants
alone and no constant that nothing needs. A text without operand names and without functions of a
list becomes one constant. -/
theorem constants_compile (hfold : settings.foldConstants = true)
    (hprune : settings.pruneConstants = true) (h : compile text settings = .ok t) :
    (∀ id op a b folded isBoolean, t.get id = .apply op a b folded isBoolean →
      (∀ f, op ≠ .list f) → ∃ x ∈ (t.get id).operands, (t.get x).constant? = none) ∧
    (∀ id, (t.get id).isConst = true → id = t.root ∨ ∃ user, id ∈ (t.get user).operands) ∧
    ∃ tokens, tokenize text settings = .ok tokens ∧
      (operandNames tokens = [] → (∀ f ∈ calledNames tokens, ListOp.ofName? f = none) →
        ∃ x isBoolean, t.atoms = #[.sentinel, .const x isBoolean] ∧ t.root = 1) := by
  obtain ⟨items, table, hitems, hassemble, rfl⟩ := compile_eq_ok.1 h
  obtain ⟨tokens, htokens, -, rfl, -⟩ := itemsOf_eq_ok.1 hitems
  rw [hfold] at hassemble
  obtain ⟨⟨hsound, -⟩, hroot⟩ := assembled_of_assemble hassemble
  have hback := hsound.backward.fold
  have hoptimize : table.optimize settings = table.fold.prune := by
    rw [optimize, hfold, hprune]
    rfl
  rw [hoptimize]
  refine ⟨fun id op a b folded isBoolean hget hop => ?_, fun id hconst => ?_, tokens, htokens,
    fun hnames hcalled => ?_⟩
  · refine hsound.varies_fold.prune hback id ?_
    rw [hget]
    cases op with
    | unary => exact .unary
    | binary => exact .binary
    | list f => exact absurd rfl (hop f)
  · by_contra hunused
    rw [not_or, not_exists] at hunused
    exact not_idle_prune _ id ⟨hconst, hunused⟩
  · have hassembledNames : table.names = [] := by
      rw [names_assemble hassemble, leafNames_prepare, hnames]
      rfl
    exact hsound.prune_of_listless hroot.within hassembledNames
      (listless_assemble hassemble hcalled)

theorem constants_compile_inverse : ∃ t, compile "-(-sqrt(4))*inv(2)^2 > 1" {} = .ok t ∧
    ∃ x isBoolean, t.atoms = #[.sentinel, .const x isBoolean] ∧ t.root = 1 := by
  have hok : (compile "-(-sqrt(4))*inv(2)^2 > 1" {}).isOk = true := by decide +kernel
  have hread : (tokenize "-(-sqrt(4))*inv(2)^2 > 1" {}).toOption.map
      (fun tokens => (operandNames tokens, calledNames tokens)) = some ([], ["sqrt", "inv"]) := by
    decide +kernel
  cases hcompile : compile "-(-sqrt(4))*inv(2)^2 > 1" {} with
  | error f =>
    rw [hcompile] at hok
    cases hok
  | ok t =>
    obtain ⟨-, -, tokens, htokens, hconstant⟩ := constants_compile rfl rfl hcompile
    rw [htokens] at hread
    obtain ⟨hnames, hcalled⟩ := Prod.mk.inj (Option.some.inj hread)
    refine ⟨t, rfl, hconstant hnames ?_⟩
    rw [hcalled]
    decide

end Behavioral
