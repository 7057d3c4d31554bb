import Behavioral.Proofs.Pruning
import Behavioral.Proofs.Replaying
import Behavioral.Proofs.Typing

/-!
# What occurs twice

No two atoms but constants have the same content (`Unrepeated`): interning looks for the content
first, folding leaves constants only, and pruning gives different atoms different numbers. A text
that occurs twice is therefore stored once. The sum of a number and itself has at most one atom more
than the number, the addition, and that is added behind all others (`compile_repeated`).
-/

namespace Behavioral

open AtomTable Assembly Reduction

variable {folding : Bool} {t t' : AtomTable} {a id : AtomId} {atom : Atom} {P : AtomTable → Prop}
  {text : String} {settings : Settings} {items : Items} {tokens : Tokens}

/-! ### Different contents -/

namespace Atom

variable {A B : Atom}

theorem isConst_of_sameContent (h : A.sameContent B = true) : A.isConst = B.isConst := by
  cases A <;> cases B <;> first | rfl | cases h

theorem fold_of_not_const (h : A.fold.isConst = false) : A.fold = A := by
  unfold fold at h ⊢
  split at h
  · cases h
  · rfl

/-- Renaming that tells the operands apart keeps contents different. -/
theorem sameContent_of_renumber {f : AtomId → AtomId}
    (hf : ∀ x ∈ A.operands, ∀ y ∈ B.operands, f x = f y → x = y)
    (h : (A.renumber f).sameContent (B.renumber f) = true) : A.sameContent B = true := by
  cases A <;> cases B <;> simp only [renumber, sameContent, Bool.and_eq_true, beq_iff_eq,
    Bool.false_eq_true] at h ⊢
  case const.const => exact h
  case name.name => exact h
  case element.element a b a' b' =>
    exact ⟨hf a (by simp [operands]) a' (by simp [operands]) h.1,
      hf b (by simp [operands]) b' (by simp [operands]) h.2⟩
  case apply.apply op a b folded isBoolean op' a' b' folded' isBoolean' =>
    refine ⟨⟨h.1.1, hf a (by simp [operands]) a' (by simp [operands]) h.1.2⟩, ?_⟩
    cases b <;> cases b' <;> first | rfl | cases h.2 | skip
    exact congrArg some (hf _ (by simp [operands]) _ (by simp [operands]) (Option.some.inj h.2))

end Atom

namespace AtomTable

/-- No other atom has the content of one that is not a constant. -/
def Unrepeated (t : AtomTable) : Prop :=
  ∀ i j, (t.get i).isConst = false → (t.get i).sameContent (t.get j) = true → i = j

theorem lt_size_of_sameContent (h : (t.get id).sameContent atom = true) : id < t.size := by
  refine lt_size_of_get rfl fun hget => ?_
  rw [hget] at h
  cases h

theorem lt_sizes_of_sameContent {i j : AtomId} (h : (t.get i).sameContent (t.get j) = true) :
    i < t.size ∧ j < t.size := by
  refine ⟨lt_size_of_sameContent h, ?_⟩
  rw [Atom.sameContent_comm] at h
  exact lt_size_of_sameContent h

theorem unrepeated_empty : Unrepeated empty := by
  intro i j _ hsame
  obtain ⟨hi, hj⟩ := lt_sizes_of_sameContent hsame
  exact (Nat.lt_one_iff.1 hi).trans (Nat.lt_one_iff.1 hj).symm

/-- Atoms of one content at two places were both there before the last was interned. -/
theorem get_eq_of_sameContent (h : t.intern atom = .ok (a, t')) {i j : AtomId} (hne : i ≠ j)
    (hsame : (t'.get i).sameContent (t'.get j) = true) :
    t'.get i = t.get i ∧ t'.get j = t.get j := by
  obtain ⟨rfl, -⟩ | ⟨hnew, -, rfl⟩ := of_intern h
  · exact ⟨rfl, rfl⟩
  · obtain ⟨hi, hj⟩ := lt_sizes_of_sameContent hsame
    rw [size_push] at hi hj
    rcases Nat.lt_succ_iff_lt_or_eq.1 hi with hi | rfl <;>
      rcases Nat.lt_succ_iff_lt_or_eq.1 hj with hj | rfl
    · exact ⟨get_push_lt hi, get_push_lt hj⟩
    · rw [get_push_lt hi, get_push_size, hnew i] at hsame
      cases hsame
    · rw [Atom.sameContent_comm, get_push_lt hj, get_push_size, hnew j] at hsame
      cases hsame
    · exact absurd rfl hne

theorem Unrepeated.intern (ht : t.Unrepeated) (h : t.intern atom = .ok (a, t')) :
    t'.Unrepeated := by
  intro i j hconst hsame
  by_contra hne
  obtain ⟨hi, hj⟩ := get_eq_of_sameContent h hne hsame
  rw [hi] at hconst hsame
  rw [hj] at hsame
  exact hne (ht i j hconst hsame)

theorem Unrepeated.fold (h : t.Unrepeated) : t.fold.Unrepeated := by
  intro i j hconst hsame
  have hconst' := Atom.isConst_of_sameContent hsame
  rw [hconst] at hconst'
  rw [get_fold] at hconst
  rw [get_fold] at hconst'
  rw [get_fold, get_fold, Atom.fold_of_not_const hconst, Atom.fold_of_not_const hconst'.symm]
    at hsame
  rw [Atom.fold_of_not_const hconst] at hconst
  exact h i j hconst hsame

theorem Unrepeated.prune (hback : t.Backward) (h : t.Unrepeated) : t.prune.Unrepeated := by
  intro p q hconst hsame
  obtain ⟨hp, hq⟩ := lt_sizes_of_sameContent hsame
  rw [size_prune] at hp hq
  have hi := List.getElem?_eq_getElem hp
  have hj := List.getElem?_eq_getElem hq
  generalize t.kept[p] = i at hi
  generalize t.kept[q] = j at hj
  rw [get_prune hi] at hconst hsame
  rw [get_prune hj] at hsame
  rw [isConst_renumber] at hconst
  have hkept {id x : AtomId} {p : Nat} (hid : t.kept[p]? = some id)
      (hx : x ∈ (t.get id).operands) : x ∈ t.kept :=
    hback.mem_kept (mem_kept.1 (List.mem_of_getElem? hid)).1 hx
  have hsame' := Atom.sameContent_of_renumber (fun x hx y hy hxy => by
    have hget := getElem?_position t.kept_sorted (hkept hi hx)
    rw [hxy, getElem?_position t.kept_sorted (hkept hj hy)] at hget
    exact (Option.some.inj hget).symm) hsame
  obtain rfl := h i j hconst hsame'
  exact (position_eq t.kept_sorted hi).symm.trans (position_eq t.kept_sorted hj)

theorem Unrepeated.optimize (hback : t.Backward) (h : t.Unrepeated) (settings : Settings) :
    (t.optimize settings).Unrepeated := by
  have pruned (t : AtomTable) (hback : t.Backward) (h : t.Unrepeated) :
      (if settings.pruneConstants then t.prune else t).Unrepeated := by
    split
    · exact h.prune hback
    · exact h
  unfold AtomTable.optimize
  split
  · exact pruned t.fold hback.fold h.fold
  · exact pruned t hback h

end AtomTable

namespace Assembly

/-- What interning keeps is kept by reading leaves. -/
theorem leaves_keep
    (hintern : ∀ {t t' : AtomTable} {a : AtomId} {atom : Atom}, t.intern atom = .ok (a, t') →
      P t → P t') {ls : List ParseTree} : ∀ {t t' : AtomTable} {as : List AtomId},
    ls.mapM (leaf (algebra folding)) t = .ok (as, t') → P t → P t' := by
  induction ls with
  | nil =>
    intro t t' as h ht
    cases h
    exact ht
  | cons l ls ih =>
    intro t t' as h ht
    rw [List.mapM_cons] at h
    obtain ⟨a, t₁, ha, h⟩ := build_bind_eq_ok.1 h
    obtain ⟨rest, t₂, hrest, has⟩ := build_bind_eq_ok.1 h
    cases has
    cases l with
    | number x => exact ih hrest (@hintern _ _ _ (.const x false) ha ht)
    | name n => exact ih hrest (@hintern _ _ _ (.name n) ha ht)
    | _ => cases ha

theorem unrepeated_assemble (h : assemble folding items = .ok t) : t.Unrepeated := by
  obtain ⟨root, table, hrun, rfl⟩ := assemble_eq_ok.1 h
  obtain ⟨ps, t₀, hpieces, hreduce⟩ := build_bind_eq_ok.1 hrun
  have hleaves : t₀.Unrepeated :=
    leaves_keep (fun h ht => Unrepeated.intern ht h) (leaves_of_pieces items hpieces)
      unrepeated_empty
  have hkeeps : Reduction.Keeps (algebra folding) Unrepeated :=
    keeps_of_intern fun _ h ht => Unrepeated.intern ht h
  have htable : table.Unrepeated := hkeeps.reduce hreduce hleaves
  exact htable

end Assembly

/-! ### One more atom -/

namespace AtomTable

/-- At most one atom is added, which is the root and refers to the root of the smaller table. -/
structure Tops (t t' : AtomTable) : Prop where
  grows : Extends t t'
  added : ∀ id, t.size ≤ id → id < t'.size → id = t'.root
  operands : ∀ id, t.size ≤ id → ∀ x ∈ (t'.get id).operands, x = t.root

theorem tops_same (a c : AtomId) : Tops { t with root := a } { t with root := c } where
  grows := ⟨le_rfl, fun _ _ => rfl⟩
  added _ hid hid' := absurd hid' (Nat.not_lt.2 hid)
  operands _ hid _ hx := absurd (lt_size_of_mem_operands hx) (Nat.not_lt.2 hid)

theorem tops_push (h : ∀ x ∈ atom.operands, x = a) :
    Tops { t with root := a } { atoms := t.atoms.push atom, root := t.size } := by
  have hsize : AtomTable.size { t with atoms := t.atoms.push atom } = t.size + 1 := size_push
  have hlast (id : AtomId) (hid : t.size ≤ id)
      (hid' : id < AtomTable.size { t with atoms := t.atoms.push atom }) : id = t.size := by
    rw [hsize] at hid'
    exact (Nat.lt_succ_iff.1 hid').antisymm hid
  refine ⟨⟨hsize ▸ Nat.le_succ _, fun id hid => get_push_lt hid⟩, hlast, fun id hid x hx => ?_⟩
  obtain rfl := hlast id hid (lt_size_of_mem_operands hx)
  have hget : AtomTable.get { t with atoms := t.atoms.push atom } t.size = atom := get_push_size
  exact h x (hget ▸ hx)

theorem Tops.size_le (h : Tops t t') : t'.size ≤ t.size + 1 := by
  by_contra hlt
  have hfirst := h.added t.size le_rfl (by omega)
  have hsecond := h.added (t.size + 1) (by omega) (by omega)
  omega

theorem Tops.fold (h : Tops t t') : Tops t.fold t'.fold where
  grows := ⟨by rw [size_fold, size_fold]; exact h.grows.size, fun id hid => by
    rw [size_fold] at hid
    rw [get_fold, get_fold, h.grows.get id hid]⟩
  added id hid hid' := h.added id (size_fold ▸ hid) (size_fold ▸ hid')
  operands id hid x hx := by
    rw [get_fold] at hx
    exact h.operands id (size_fold ▸ hid) x (operands_fold _ hx)

/-- What pruning keeps of the larger table, other than the root, it keeps of the smaller one. -/
theorem Tops.size_prune_le (h : Tops t t') : t'.prune.size ≤ t.prune.size + 1 := by
  have hsubset : t'.kept ⊆ t'.root :: t.kept := by
    intro id hid
    obtain ⟨hlt', hkeeps⟩ := mem_kept.1 hid
    by_cases hroot : id = t'.root
    · exact hroot ▸ List.mem_cons_self
    · have hlt : id < t.size := by
        by_contra hge
        exact hroot (h.added id (Nat.le_of_not_lt hge) hlt')
      refine List.mem_cons_of_mem _ (mem_kept.2 ⟨hlt, keeps_iff.2 fun hidle => ?_⟩)
      obtain ⟨hconst, hroot', hoperand⟩ := hidle
      refine keeps_iff.1 hkeeps ⟨by rwa [h.grows.get id hlt], hroot, fun user huser => ?_⟩
      rcases Nat.lt_or_ge user t.size with hold | hnew
      · rw [h.grows.get user hold] at huser
        exact hoperand user huser
      · exact hroot' (h.operands user hnew id huser)
  have hnodup : t'.kept.Nodup := t'.kept_sorted.imp Nat.ne_of_lt
  rw [size_prune, size_prune]
  exact (List.subperm_of_subset hnodup hsubset).length_le

theorem Tops.size_optimize_le (h : Tops t t') (settings : Settings) :
    (t'.optimize settings).size ≤ (t.optimize settings).size + 1 := by
  have pruned {t t' : AtomTable} (h : Tops t t') :
      (if settings.pruneConstants then t'.prune else t').size ≤
        (if settings.pruneConstants then t.prune else t).size + 1 := by
    split
    · exact h.size_prune_le
    · exact h.size_le
  unfold AtomTable.optimize
  split
  · exact pruned h.fold
  · exact pruned h

end AtomTable

namespace Assembly

theorem join_add (ha : (t.get a).isBoolean = false) (start : Nat) :
    ∃ folded, applyJoin folding .add a a start t =
      t.intern (.apply (.binary .add) a (some a) folded false) := by
  have hjoin : applyJoin folding .add a a start t =
      applyOp folding (.binary .add) a (some a) false t := by
    rw [applyJoin_eq, ha]
    rfl
  exact ⟨_, hjoin.trans (applyOp_binary .add a a false t)⟩

/-- The sum of an atom and itself is added behind all others or is there already, unless the table
is full. -/
theorem intern_tops (folded : Option Float) (isBoolean : Bool) :
    (∃ c t', t.intern (.apply (.binary .add) a (some a) folded isBoolean) = .ok (c, t') ∧
      Tops { t with root := a } { t' with root := c }) ∨
    (limit ≤ t.size ∧ t.intern (.apply (.binary .add) a (some a) folded isBoolean) =
      .error (.grammar (.tooManyAtoms limit))) := by
  unfold AtomTable.intern
  split
  · rename_i c hfind
    exact .inl ⟨c, t, rfl, tops_same a c⟩
  · split
    · exact .inl ⟨t.size, _, rfl, tops_push (by simp [Atom.operands])⟩
    · rename_i hfull
      exact .inr ⟨Nat.le_of_not_lt hfull, rfl⟩

end Assembly

/-! ### Whole texts -/

theorem assemble_repeated {items' : Items} (h : assemble folding items = .ok t)
    (hnumber : t.rootAtom.isBoolean = false)
    (hmoved : Moved (⟨0, .opening, 0⟩ :: (items ++ ⟨0, .closing, 0⟩ :: ⟨0, .join .add, 0⟩ ::
      ⟨0, .opening, 0⟩ :: (items ++ [⟨0, .closing, 0⟩]))) items') :
    (∃ t', assemble folding items' = .ok t' ∧ Tops t t') ∨
      (limit ≤ t.size ∧ assemble folding items' = .error (.grammar (.tooManyAtoms limit))) := by
  obtain ⟨root, table, hrun, rfl⟩ := assemble_eq_ok.1 h
  obtain ⟨start, hrun'⟩ := run_repeated hmoved assembled_empty hrun
  obtain ⟨folded, hjoin⟩ := @join_add folding table root hnumber start
  have hassemble : assemble folding items' = (table.intern
      (.apply (.binary .add) root (some root) folded false)).bind fun r =>
        .ok { r.2 with root := r.1 } := by
    rw [← hjoin, ← hrun']
    rfl
  rw [hassemble]
  rcases @intern_tops table root folded false with ⟨c, t', hintern, htops⟩ | ⟨hfull, hintern⟩
  · rw [hintern]
    exact .inl ⟨_, rfl, htops⟩
  · rw [hintern]
    exact .inr ⟨hfull, rfl⟩

theorem size_assemble_le (hitems : itemsOf text settings = .ok items)
    (h : assemble folding items = .ok t) : t.size ≤ text.length + 1 := by
  obtain ⟨root, table, hrun, rfl⟩ := assemble_eq_ok.1 h
  have hcosts := (@costs_run folding (algebra folding) (fun _ => costs_addAtom _)
    (fun _ => costs_addAtom _) (fun _ => rfl) items AtomTable.empty).1 root table hrun
  have hlength := length_itemsOf_le hitems
  have hempty : AtomTable.empty.size = 1 := rfl
  have hsize : AtomTable.size { table with root } = table.size := rfl
  omega

/-- A text in brackets, plus itself, has at most one atom more than the text, if that is a number
and the table has room. No two atoms but constants have the same content. -/
theorem compile_repeated (h : compile text settings = .ok t) :
    (t.rootAtom.isBoolean = false →
      (∃ t', compile (repeated text) settings = .ok t' ∧ t'.size ≤ t.size + 1) ∨
      (limit ≤ text.length + 1 ∧
        compile (repeated text) settings = .error (.grammar (.tooManyAtoms limit)))) ∧
    ∀ i j, (t.get i).isConst = false → (t.get i).sameContent (t.get j) = true → i = j := by
  obtain ⟨items, table, hitems, hassemble, rfl⟩ := compile_eq_ok.1 h
  obtain ⟨hassembled, hroot⟩ := assembled_of_assemble hassemble
  constructor
  · intro hnumber
    rw [isBoolean_root_optimize settings hroot.within.2] at hnumber
    obtain ⟨tokens, htokens, -, rfl, -⟩ := itemsOf_eq_ok.1 hitems
    obtain ⟨e, he, -⟩ := assemble_typed hassemble
    obtain ⟨tree, htree, -⟩ := Item.derives_ofTokens.1 he
    obtain ⟨tokens', htokens', hvalues⟩ := tokenize_repeated htokens
    obtain ⟨hmoved, hbrackets⟩ := moved_prepare_repeated htree hvalues
    have hitems' : itemsOf (repeated text) settings = .ok (prepare tokens') := by
      refine itemsOf_eq_ok.2 ⟨tokens', htokens', ?_, rfl, hbrackets⟩
      rintro rfl
      cases hvalues
    simp only [compile, hitems', bind, Except.bind]
    rcases assemble_repeated hassemble hnumber hmoved with ⟨t', ht', htops⟩ | ⟨hfull, hfault⟩
    · rw [ht']
      exact .inl ⟨_, rfl, htops.size_optimize_le settings⟩
    · rw [hfault]
      exact .inr ⟨hfull.trans (size_assemble_le hitems hassemble), rfl⟩
  · exact (unrepeated_assemble hassemble).optimize hassembled.sound.backward settings

theorem compile_repeated_chain : ∃ t t', compile "ratio(x, 2, --x)*x**2" {} = .ok t ∧
    compile (repeated "ratio(x, 2, --x)*x**2") {} = .ok t' ∧ t'.size ≤ t.size + 1 ∧
      ∀ i j, (t.get i).isConst = false → (t.get i).sameContent (t.get j) = true → i = j := by
  have hok : (compile "ratio(x, 2, --x)*x**2" {}).toOption.any
      (fun t => t.rootAtom.isBoolean == false) = true := by
    decide +kernel
  cases hcompile : compile "ratio(x, 2, --x)*x**2" {} with
  | error f =>
    rw [hcompile] at hok
    cases hok
  | ok t =>
    rw [hcompile] at hok
    obtain ⟨hrepeated, hcontents⟩ := compile_repeated hcompile
    rcases hrepeated (eq_of_beq hok) with ⟨t', ht', hsize⟩ | ⟨hfull, -⟩
    · exact ⟨t, t', rfl, ht', hsize, hcontents⟩
    · exact absurd hfull (by decide +kernel)

end Behavioral
