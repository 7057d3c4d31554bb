import Behavioral.Proofs.Building
import Behavioral.Proofs.Doubles

/-!
# Settled trees

Settling the signs of an expression leaves at most one negation in front of each operand, none in
front of a literal, and no brackets. A settled tree has the value of the tree, folds to the same and
has the same divisors (`join_mem_settle`). It fits together just when the tree is well typed
(`fits_settle`), and with folding just when no divisor folds to zero besides (`fits_settle_fold`).
-/

namespace Behavioral.ParseTree

variable {t a b : ParseTree} {odd : Bool} {bindings : Bindings}

/-- A single negation if there is one. -/
def negated : Bool → ParseTree → ParseTree
  | true, a => sign .minus a
  | false, a => a

mutual

/-- The tree without brackets, its signs settled. `odd` tells of a minus in front of it. -/
def settle : Bool → ParseTree → ParseTree
  | odd, number x => number (if odd then -x else x)
  | odd, name n => negated odd (name n)
  | odd, sign .plus a => a.settle odd
  | odd, sign .minus a => a.settle (!odd)
  | odd, not a => negated odd (not (a.settle false))
  | odd, bracket a => negated odd (a.settle false)
  | odd, join op a b => negated odd (join op (a.settle false) (b.settle false))
  | odd, call op a => negated odd (call op (a.settle false))
  | odd, list op args => negated odd (list op (settleAll args))

def settleAll : List ParseTree → List ParseTree
  | [] => []
  | a :: rest => a.settle false :: settleAll rest

end

theorem settleAll_eq_map (args : List ParseTree) : settleAll args = args.map (settle false) := by
  induction args with
  | nil => rfl
  | cons a rest ih => rw [settleAll, ih, List.map_cons]

theorem value_negated (odd : Bool) (a : ParseTree) : (negated odd a).value bindings =
    if odd then (a.value bindings).map (UnaryOp.apply .neg) else a.value bindings := by
  cases odd <;> rfl

theorem folded_negated (odd : Bool) (a : ParseTree) :
    (negated odd a).folded = if odd then a.folded.map (UnaryOp.apply .neg) else a.folded := by
  cases odd <;> rfl

mutual

theorem value_settle (bindings : Bindings) : ∀ (odd : Bool) (t : ParseTree),
    (t.settle odd).value bindings =
      if odd then (t.value bindings).map (UnaryOp.apply .neg) else t.value bindings
  | odd, number x => by cases odd <;> rfl
  | odd, name n => by rw [settle, value_negated]
  | odd, sign .plus a => by rw [settle, value_settle bindings odd a, value]
  | odd, sign .minus a => by
    rw [settle, value_settle bindings (!odd) a, value]
    cases odd
    · rfl
    · cases a.value bindings <;> simp [Op.apply1, UnaryOp.apply, Double.neg_neg]
  | odd, not a => by simp [settle, value_negated, value, value_settle bindings false a]
  | odd, bracket a => by simp [settle, value_negated, value, value_settle bindings false a]
  | odd, join op a b => by
    simp [settle, value_negated, value, value_settle bindings false a,
      value_settle bindings false b]
  | odd, call op a => by simp [settle, value_negated, value, value_settle bindings false a]
  | odd, list op args => by simp only [settle, value_negated, value, values_settleAll bindings args]

theorem values_settleAll (bindings : Bindings) : ∀ args : List ParseTree,
    values bindings (settleAll args) = values bindings args
  | [] => rfl
  | a :: rest => by
    simp [settleAll, values, value_settle bindings false a, values_settleAll bindings rest]

end

theorem folded_settle : ∀ (odd : Bool) (t : ParseTree),
    (t.settle odd).folded = if odd then t.folded.map (UnaryOp.apply .neg) else t.folded
  | odd, number x => by cases odd <;> rfl
  | odd, name n => by cases odd <;> rfl
  | odd, sign .plus a => folded_settle odd a
  | odd, sign .minus a => by
    rw [settle, folded_settle (!odd) a, folded]
    cases odd
    · rfl
    · cases a.folded <;> simp [UnaryOp.apply, Double.neg_neg]
  | odd, not a => by simp [settle, folded_negated, folded, folded_settle false a]
  | odd, bracket a => by simp [settle, folded_negated, folded, folded_settle false a]
  | odd, join op a b => by
    simp [settle, folded_negated, folded, folded_settle false a, folded_settle false b]
  | odd, call op a => by simp [settle, folded_negated, folded, folded_settle false a]
  | odd, list op args => by cases odd <;> rfl

theorem join_mem_negated {op : BinaryOp} {t : ParseTree} :
    join op a b ∈ (negated odd t).nodes ↔ join op a b ∈ t.nodes := by
  cases odd <;> simp [negated, nodes]

mutual

/-- The operators of the settled tree are those of the tree. -/
theorem join_mem_settle {op : BinaryOp} : ∀ {odd : Bool} {t : ParseTree},
    join op a b ∈ (t.settle odd).nodes ↔
      ∃ c d, join op c d ∈ t.nodes ∧ c.settle false = a ∧ d.settle false = b
  | _, number x => by simp [settle, nodes]
  | _, name n => by simp [settle, join_mem_negated, nodes]
  | _, sign .plus c => by simp [settle, join_mem_settle (t := c), nodes]
  | _, sign .minus c => by simp [settle, join_mem_settle (t := c), nodes]
  | _, not c => by simp [settle, join_mem_negated, nodes, join_mem_settle (t := c)]
  | _, bracket c => by simp [settle, join_mem_negated, nodes, join_mem_settle (t := c)]
  | _, join op c d => by
    simp only [settle, join_mem_negated, nodes, List.mem_cons, List.mem_append,
      join_mem_settle (t := c), join_mem_settle (t := d)]
    aesop
  | _, call op c => by simp [settle, join_mem_negated, nodes, join_mem_settle (t := c)]
  | _, list op args => by simp [settle, join_mem_negated, nodes, join_mem_settleAll args]

theorem join_mem_settleAll {op : BinaryOp} : ∀ args : List ParseTree,
    join op a b ∈ nodesOf (settleAll args) ↔
      ∃ c d, join op c d ∈ nodesOf args ∧ c.settle false = a ∧ d.settle false = b
  | [] => by simp [settleAll, nodesOf]
  | c :: rest => by
    simp only [settleAll, nodesOf, List.mem_append, join_mem_settle (t := c),
      join_mem_settleAll rest]
    aesop

end

theorem name_mem_negated {n : String} {t : ParseTree} :
    name n ∈ (negated odd t).nodes ↔ name n ∈ t.nodes := by
  cases odd <;> simp [negated, nodes]

mutual

theorem name_mem_settle {n : String} : ∀ {odd : Bool} {t : ParseTree},
    name n ∈ (t.settle odd).nodes ↔ name n ∈ t.nodes
  | _, number x => by simp [settle, nodes]
  | _, name _ => name_mem_negated
  | _, sign .plus a => by simp [settle, name_mem_settle (t := a), nodes]
  | _, sign .minus a => by simp [settle, name_mem_settle (t := a), nodes]
  | _, not a => by simp [settle, name_mem_negated, nodes, name_mem_settle (t := a)]
  | _, bracket a => by simp [settle, name_mem_negated, nodes, name_mem_settle (t := a)]
  | _, join op a b => by
    simp [settle, name_mem_negated, nodes, name_mem_settle (t := a), name_mem_settle (t := b)]
  | _, call op a => by simp [settle, name_mem_negated, nodes, name_mem_settle (t := a)]
  | _, list op args => by
    simp [settle, name_mem_negated, nodes, name_mem_settleAll args]

theorem name_mem_settleAll {n : String} : ∀ args : List ParseTree,
    name n ∈ nodesOf (settleAll args) ↔ name n ∈ nodesOf args
  | [] => by rfl
  | a :: rest => by
    simp [settleAll, nodesOf, name_mem_settle (t := a), name_mem_settleAll rest]

end

theorem SquaresPowers.settle (h : t.SquaresPowers bindings) :
    (t.settle odd).SquaresPowers bindings := by
  intro a b hab htwo
  obtain ⟨c, d, hcd, rfl, rfl⟩ := join_mem_settle.1 hab
  simp only [value_settle, Bool.false_eq_true, ↓reduceIte] at htwo ⊢
  exact h c d hcd htwo

theorem foldsSafely_settle : (t.settle odd).FoldsSafely ↔ t.FoldsSafely := by
  constructor
  · intro h a b hab x hx
    exact h _ _ (join_mem_settle.2 ⟨a, b, hab, rfl, rfl⟩) x ((folded_settle false b).trans hx)
  · intro h a b hab x hx
    obtain ⟨c, d, hcd, rfl, rfl⟩ := join_mem_settle.1 hab
    exact h c d hcd x ((folded_settle false d).symm.trans hx)

theorem fits_fold_iff : t.Fits true ↔ t.Fits false ∧
    ∀ a b, t = join .div a b → ∀ x, b.folded = some x → (x == 0) = false := by
  cases t with
  | join op a b => simp +contextual [Fits]
  | sign s a => cases s <;> simp [Fits]
  | _ => simp [Fits]

/-- Folding asks for nothing besides but that divisors do not fold to zero. -/
theorem all_fits_fold : t.All (Fits true) ↔ t.All (Fits false) ∧ t.FoldsSafely := by
  simp only [All, fits_fold_iff, forall_and, FoldsSafely]
  exact and_congr_right fun _ =>
    ⟨fun h a b hab => h _ hab a b rfl, fun h n hn a b heq => h a b (heq ▸ hn)⟩

section Types

theorem typeFault?_kinds {op : BinaryOp} {k k' : Kind} :
    Assembly.typeFault? op (decide (k = .boolean)) (decide (k' = .boolean)) 0 = none ↔
      k = k' ∧ op.takes k = true := by
  cases op <;> cases k <;> cases k' <;> decide

theorem kind_eq_boolean (op : BinaryOp) : decide (op.kind = .boolean) = op.isBoolean := by
  cases op <;> rfl

theorem isBoolean_negated : (negated odd t).isBoolean = (!odd && t.isBoolean) := by
  cases odd <;> simp [negated, isBoolean]

theorem all_negated {fold : Bool} : (negated odd t).All (Fits fold) ↔
    t.All (Fits fold) ∧ (odd = true → t.isBoolean = false) := by
  cases odd
  · simp [negated]
  · exact (@all_lead _ _ .negate).trans (by simp [LeadOp.tree, Fits, and_comm])

/-- Whether a run of signs negates. -/
def negates (signs : List Sign) : Bool :=
  decide (signs.count .minus % 2 = 1)

theorem negates_minus (signs : List Sign) : negates (.minus :: signs) = !negates signs := by
  rw [negates, negates, List.count_cons_self, ← decide_not, decide_eq_decide]
  omega

theorem negates_plus (signs : List Sign) : negates (.plus :: signs) = negates signs := by
  rw [negates, negates, List.count_cons_of_ne (by decide)]

theorem settle_run (a : ParseTree) : ∀ (signs : List Sign) (odd : Bool),
    (signs.foldr sign a).settle odd = a.settle (odd ^^ negates signs)
  | [], odd => by simp [negates]
  | .plus :: signs, odd => by rw [List.foldr_cons, settle, settle_run a signs odd, negates_plus]
  | .minus :: signs, odd => by
    rw [List.foldr_cons, settle, settle_run a signs (!odd), negates_minus, Bool.not_xor,
      Bool.xor_not]

theorem fits_negated {k : Kind} (ht : t.All (Fits false)) (hk : t.isBoolean = decide (k = .boolean))
    (hodd : odd = true → k = .number) :
    (negated odd t).All (Fits false) ∧ (negated odd t).isBoolean = decide (k = .boolean) := by
  refine ⟨all_negated.2 ⟨ht, fun h => ?_⟩, ?_⟩
  · rw [hk, hodd h]
    rfl
  · rw [isBoolean_negated, hk]
    cases odd
    · rfl
    · rw [hodd rfl]
      rfl

/-- A well-typed tree settles to one that fits together, of the same kind. -/
theorem HasKind.fits {k : Kind} (h : HasKind t k) : ∀ odd : Bool, (odd = true → k = .number) →
    (t.settle odd).All (Fits false) ∧ (t.settle odd).isBoolean = decide (k = .boolean) := by
  induction h with
  | number x => exact fun odd _ => ⟨all_number.2 trivial, rfl⟩
  | name n => exact fun odd hodd => fits_negated (all_name.2 trivial) rfl hodd
  | @run signs a k ha hsigns ih =>
    intro odd hodd
    rw [settle_run]
    refine ih _ fun h => ?_
    rcases Bool.eq_false_or_eq_true odd with rfl | rfl
    · exact hodd rfl
    · exact hsigns (of_decide_eq_true ((Bool.false_xor _).symm.trans h))
  | not ha ih =>
    intro odd hodd
    obtain ⟨hall, hboolean⟩ := ih false nofun
    exact fits_negated (@all_lead _ _ .not |>.2 ⟨hboolean, hall⟩) rfl hodd
  | bracket ha ih =>
    intro odd hodd
    obtain ⟨hall, hboolean⟩ := ih false nofun
    exact fits_negated hall hboolean hodd
  | @join op a b k ha hb htakes iha ihb =>
    intro odd hodd
    obtain ⟨halla, ha⟩ := iha false nofun
    obtain ⟨hallb, hb⟩ := ihb false nofun
    refine fits_negated (all_join.2 ⟨⟨?_, nofun⟩, halla, hallb⟩) (kind_eq_boolean op).symm hodd
    rw [ha, hb]
    exact typeFault?_kinds.2 ⟨rfl, htakes⟩
  | call ha ih =>
    intro odd hodd
    obtain ⟨hall, hboolean⟩ := ih false nofun
    exact fits_negated (all_call.2 ⟨hboolean, hall⟩) rfl hodd
  | list hargs ih =>
    intro odd hodd
    refine fits_negated (all_list.2 ⟨?_, ?_⟩) rfl hodd
    · rw [settleAll_eq_map]
      exact List.forall_mem_map.2 fun a ha => (ih a ha false nofun).2
    · rw [settleAll_eq_map]
      exact List.forall_mem_map.2 fun a ha => (ih a ha false nofun).1

/-- The tree is a run of signs in front of a well-typed tree, which is a number where the signs and
`odd` negate it. -/
def RunHasKind (odd : Bool) (t : ParseTree) (boolean : Bool) : Prop :=
  ∃ (signs : List Sign) (a : ParseTree) (k : Kind), t = signs.foldr sign a ∧ HasKind a k ∧
    ((odd ^^ negates signs) = true → k = .number) ∧ boolean = decide (k = .boolean)

theorem RunHasKind.hasKind {boolean : Bool} (h : RunHasKind false t boolean) :
    ∃ k, HasKind t k ∧ boolean = decide (k = .boolean) := by
  obtain ⟨signs, a, k, rfl, ha, hk, rfl⟩ := h
  exact ⟨k, .run ha fun h => hk (by simp [negates, h]), rfl⟩

theorem HasKind.runHasKind {e : ParseTree} {k : Kind} (ht : HasKind t k)
    (hk : e.isBoolean = decide (k = .boolean)) (hodd : odd = true → e.isBoolean = false) :
    RunHasKind odd t (negated odd e).isBoolean := by
  have hnumber (h : odd = true) : k = .number := by
    cases k
    · rfl
    · exact absurd (hk.symm.trans (hodd h)) (by decide)
  refine ⟨[], t, k, rfl, ht, fun h => hnumber (by simpa [negates] using h), ?_⟩
  rw [isBoolean_negated, hk]
  cases odd
  · rfl
  · rw [hnumber rfl]
    rfl

mutual

/-- A settled tree that fits together comes from a run of signs in front of a well-typed tree. -/
theorem runHasKind_of_fits : ∀ (odd : Bool) (t : ParseTree), (t.settle odd).All (Fits false) →
    RunHasKind odd t (t.settle odd).isBoolean
  | odd, number x, _ => ⟨[], number x, .number, rfl, .number x, fun _ => rfl, rfl⟩
  | odd, name n, h => (HasKind.name n).runHasKind rfl (all_negated.1 h).2
  | odd, sign .plus a, h => by
    obtain ⟨signs, b, k, rfl, hb, hk, hboolean⟩ := runHasKind_of_fits odd a h
    exact ⟨.plus :: signs, b, k, rfl, hb, negates_plus signs ▸ hk, hboolean⟩
  | odd, sign .minus a, h => by
    obtain ⟨signs, b, k, rfl, hb, hk, hboolean⟩ := runHasKind_of_fits (!odd) a h
    rw [Bool.not_xor, ← Bool.xor_not, ← negates_minus] at hk
    exact ⟨.minus :: signs, b, k, rfl, hb, hk, hboolean⟩
  | odd, not a, h => by
    obtain ⟨hnot, hodd⟩ := all_negated.1 h
    obtain ⟨hboolean, ha⟩ := @all_lead _ _ .not |>.1 hnot
    obtain ⟨k, hk, heq⟩ := (runHasKind_of_fits false a ha).hasKind
    cases of_decide_eq_true (heq.symm.trans hboolean)
    exact hk.not.runHasKind rfl hodd
  | odd, bracket a, h => by
    obtain ⟨ha, hodd⟩ := all_negated.1 h
    obtain ⟨k, hk, heq⟩ := (runHasKind_of_fits false a ha).hasKind
    exact hk.bracket.runHasKind heq hodd
  | odd, join op a b, h => by
    obtain ⟨hjoin, hodd⟩ := all_negated.1 h
    obtain ⟨⟨htype, -⟩, ha, hb⟩ := all_join.1 hjoin
    obtain ⟨k, hk, heq⟩ := (runHasKind_of_fits false a ha).hasKind
    obtain ⟨k', hk', heq'⟩ := (runHasKind_of_fits false b hb).hasKind
    rw [heq, heq'] at htype
    obtain ⟨rfl, htakes⟩ := typeFault?_kinds.1 htype
    exact (hk.join hk' htakes).runHasKind (kind_eq_boolean op).symm hodd
  | odd, call op a, h => by
    obtain ⟨hcall, hodd⟩ := all_negated.1 h
    obtain ⟨hboolean, ha⟩ := all_call.1 hcall
    have hk := hasKind_of_fits a ha hboolean
    exact hk.call.runHasKind rfl hodd
  | odd, list op args, h => by
    obtain ⟨hlist, hodd⟩ := all_negated.1 h
    obtain ⟨hboolean, hargs⟩ := all_list.1 hlist
    have hk := hasKinds_of_fits fun a ha => ⟨hargs a ha, hboolean a ha⟩
    exact (HasKind.list hk).runHasKind rfl hodd

theorem hasKind_of_fits (t : ParseTree) (h : (t.settle false).All (Fits false))
    (hboolean : (t.settle false).isBoolean = false) : HasKind t .number := by
  obtain ⟨k, hk, heq⟩ := (runHasKind_of_fits false t h).hasKind
  cases k
  · exact hk
  · exact absurd (hboolean.symm.trans heq) (by decide)

theorem hasKinds_of_fits : ∀ {args : List ParseTree},
    (∀ a ∈ settleAll args, a.All (Fits false) ∧ a.isBoolean = false) →
      ∀ a ∈ args, HasKind a .number
  | [], _ => nofun
  | a :: rest, h => by
    obtain ⟨⟨ha, hboolean⟩, hrest⟩ := List.forall_mem_cons.1 h
    exact List.forall_mem_cons.2 ⟨hasKind_of_fits a ha hboolean, hasKinds_of_fits hrest⟩

end

/-- The settled tree fits together just when the tree is well typed. -/
theorem fits_settle : (t.settle false).All (Fits false) ↔ ∃ k, HasKind t k := by
  constructor
  · intro h
    obtain ⟨k, hk, -⟩ := (runHasKind_of_fits false t h).hasKind
    exact ⟨k, hk⟩
  · rintro ⟨k, hk⟩
    exact (hk.fits false nofun).1

end Types

/-- With folding, the divisors must not fold to zero besides. -/
theorem fits_settle_fold :
    (t.settle false).All (Fits true) ↔ (∃ k, HasKind t k) ∧ t.FoldsSafely := by
  rw [all_fits_fold, fits_settle, foldsSafely_settle]

end Behavioral.ParseTree
