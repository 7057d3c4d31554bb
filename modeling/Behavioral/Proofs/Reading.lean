import Behavioral.Proofs.Simulation

/-!
# Reading literals and names

Reading the pieces of a text makes an operand of each of its literals and names, in the order of the
text (`leaves_of_pieces`). After that the operators come: what each of them keeps is kept by the
whole reduction (`Keeps.reduce`), and algebras with the same operators reduce the same pieces alike
(`SameOperators.reduce_eq`).
-/

namespace Behavioral.Reduction

variable {σ α : Type} {alg : Algebra σ α} {P : σ → Prop} {s s' : σ}

/-- The operand that a literal or a name is read as; no other tree is one. -/
def leaf (alg : Algebra σ α) : ParseTree → Build σ α
  | .number x => alg.number x
  | .name n => alg.name n
  | _ => fail .nothingLeft

def Piece.operand? : Piece α → Option α
  | .part (.operand a) => some a
  | _ => none

/-- The operands among the pieces. -/
def operands (ps : List (Spanned (Piece α))) : List α :=
  ps.filterMap fun p => Piece.operand? p.value

theorem operands_cons (p : Spanned (Piece α)) (ps : List (Spanned (Piece α))) :
    operands (p :: ps) = (Piece.operand? p.value).toList ++ operands ps := by
  rw [operands, List.filterMap_cons]
  cases Piece.operand? p.value <;> rfl

/-- The literals and names are read one after the other, and are the operands among the pieces. -/
theorem leaves_of_pieces (items : Items) : ∀ {s s' : σ} {ps : List (Spanned (Piece α))},
    pieces alg items s = .ok (ps, s') →
      (leaves items).mapM (leaf alg) s = .ok (operands ps, s') := by
  fun_induction spell items with
  | case1 =>
    intro s s' ps h
    cases h
    rfl
  | case2 start f stop openStart openStop rest ih =>
    intro s s' ps h
    rw [pieces] at h
    obtain ⟨qs, s₁, hrest, hps⟩ := build_bind_eq_ok.1 h
    cases hps
    rw [operands_cons]
    exact ih hrest
  | case3 start item stop rest hname ih =>
    intro s s' ps h
    -- a leaf is read before those behind it
    have behind {l : ParseTree} (hl : leaves (⟨start, item, stop⟩ :: rest) = l :: leaves rest)
        (hrun : (leaf alg l >>= fun a => pieces alg rest >>= fun qs =>
          pure (⟨start, .part (.operand a), stop⟩ :: qs)) s = .ok (ps, s')) :
        (leaves (⟨start, item, stop⟩ :: rest)).mapM (leaf alg) s = .ok (operands ps, s') := by
      obtain ⟨a, s₁, ha, hrun⟩ := build_bind_eq_ok.1 hrun
      obtain ⟨qs, s₂, hrest, hps⟩ := build_bind_eq_ok.1 hrun
      cases hps
      rw [hl, List.mapM_cons]
      refine build_bind_eq_ok.2 ⟨a, s₁, ha, build_bind_eq_ok.2 ⟨operands qs, s', ih hrest, ?_⟩⟩
      rw [operands_cons]
      rfl
    cases item with
    | number x =>
      simp only [pieces, bind_map_left] at h
      exact behind rfl h
    | name n =>
      rw [pieces] at h
      · simp only [bind_map_left] at h
        refine @behind (.name n) ?_ h
        rw [leaves]
        exact fun s t zs hzs => hname n s t zs hzs rfl
      · exact fun f s t zs hzs hf => hname f s t zs hzs hf
    | lead | join | comma | opening | closing =>
      simp only [pieces, pure_bind] at h
      obtain ⟨qs, s₁, hrest, hps⟩ := build_bind_eq_ok.1 h
      cases hps
      rw [operands_cons]
      exact ih hrest

/-- What reading a literal or a name keeps is kept by reading all of them. -/
theorem mapM_leaf_keeps
    (hnumber : ∀ x {s s' : σ} {a : α}, alg.number x s = .ok (a, s') → P s → P s')
    (hname : ∀ n {s s' : σ} {a : α}, alg.name n s = .ok (a, s') → P s → P s')
    {ls : List ParseTree} : ∀ {s s' : σ} {as : List α},
      ls.mapM (leaf alg) s = .ok (as, s') → P s → P s' := by
  induction ls with
  | nil =>
    intro s s' as h hs
    cases h
    exact hs
  | cons l ls ih =>
    intro s s' as h hs
    rw [List.mapM_cons] at h
    obtain ⟨a, s₁, ha, h⟩ := build_bind_eq_ok.1 h
    obtain ⟨rest, s₂, hrest, has⟩ := build_bind_eq_ok.1 h
    cases has
    cases l with
    | number x => exact ih hrest (hnumber x ha hs)
    | name n => exact ih hrest (hname n ha hs)
    | _ => cases ha

/-- Every operator keeps the property of the state. -/
structure Keeps (alg : Algebra σ α) (P : σ → Prop) : Prop where
  lead (op : LeadOp) (a : α) (start : Nat) {s s' : σ} {b : α} :
    alg.lead op a start s = .ok (b, s') → P s → P s'
  join (op : BinaryOp) (a a' : α) (start : Nat) {s s' : σ} {b : α} :
    alg.join op a a' start s = .ok (b, s') → P s → P s'
  call (op : UnaryOp) (f : String) (a : α) (start : Nat) {s s' : σ} {b : α} :
    alg.call op f a start s = .ok (b, s') → P s → P s'
  callList (op : ListOp) (f : String) (as : List α) (start : Nat) {s s' : σ} {b : α} :
    alg.callList op f as start s = .ok (b, s') → P s → P s'

/-- The algebras have the same operators, but may read literals and names differently. -/
structure SameOperators (A B : Algebra σ α) : Prop where
  lead : A.lead = B.lead
  join : A.join = B.join
  call : A.call = B.call
  callList : A.callList = B.callList

/-- A reduction beside the same one. -/
def diagonal (α : Type) (P : σ → Prop) : Correspondence σ σ α α where
  Inv w := w.1 = w.2 ∧ P w.1
  Grows _ _ := True
  Rel _ a b := a = b
  Excused _ := False
  refl _ := trivial
  trans _ _ := trivial
  mono _ h := h

theorem diagonal_agrees {w : σ × σ} {x : Build σ α}
    (h : ∀ {s s' b}, x s = .ok (b, s') → P s → P s') :
    (diagonal α P).Agrees w x x (diagonal α P).Rel := by
  obtain ⟨s, t⟩ := w
  rintro ⟨rfl : s = t, hs : P s⟩
  show (diagonal α P).Outcome _ _ (x s) (x s)
  cases hx : x s with
  | error f => exact .fault
  | ok r => exact .ok trivial ⟨rfl, h hx hs⟩ rfl

theorem Keeps.simulates (h : Keeps alg P) {other : Algebra σ α} (same : SameOperators alg other) :
    Simulates (diagonal α P) alg other (fun _ => False) (fun _ => False) where
  number _ _ := False.elim
  name _ _ := False.elim
  reciprocal _ _ _ _ := False.elim
  lead _ op a _ start := by
    rintro rfl
    rw [← same.lead]
    exact diagonal_agrees (h.lead op a start)
  join _ op a a' _ _ start := by
    rintro rfl rfl
    rw [← same.join]
    exact diagonal_agrees (h.join op a a' start)
  call _ op f a _ start _ := by
    rintro rfl
    rw [← same.call]
    exact diagonal_agrees (h.call op f a start)
  callList _ op f as bs start has _ _ := by
    obtain rfl : as = bs := List.forall₂_eq_eq_eq ▸ has
    rw [← same.callList]
    exact diagonal_agrees (h.callList op f as start)

theorem Keeps.reduce_agrees (h : Keeps alg P) {other : Algebra σ α}
    (same : SameOperators alg other) (ps : List (Spanned (Piece α))) (hs : P s) :
    (diagonal α P).Outcome (s, s) (diagonal α P).Rel (reduce alg [] [] ps s)
      (reduce other [] [] ps s) :=
  Reduction.reduce_agrees (h.simulates same) .nil .nil (matches_self fun _ _ _ _ => rfl) ⟨rfl, hs⟩

/-- What every operator keeps is kept by the reduction of a text. -/
theorem Keeps.reduce (h : Keeps alg P) {ps : List (Spanned (Piece α))} {a : α}
    (hrun : reduce alg [] [] ps s = .ok (a, s')) (hs : P s) : P s' := by
  have hagrees := h.reduce_agrees ⟨rfl, rfl, rfl, rfl⟩ ps hs
  rw [hrun] at hagrees
  generalize Reduction.reduce alg [] [] ps s = y at hagrees
  cases hagrees with
  | ok _ hinv _ => exact hinv.2

/-- The reduction of pieces takes nothing from an algebra but its operators. -/
theorem SameOperators.reduce_eq {other : Algebra σ α} (same : SameOperators alg other)
    (ps : List (Spanned (Piece α))) : reduce alg [] [] ps = reduce other [] [] ps := by
  funext s
  have hkeeps : Keeps alg fun _ => True := by constructor <;> intros <;> trivial
  have hagrees := hkeeps.reduce_agrees same ps (s := s) trivial
  generalize reduce alg [] [] ps s = x at hagrees ⊢
  generalize reduce other [] [] ps s = y at hagrees ⊢
  cases hagrees with
  | @ok s₁ s₂ a b _ hinv hrel =>
    obtain ⟨rfl : s₁ = s₂, -⟩ := hinv
    obtain rfl : a = b := hrel
    rfl
  | fault => rfl
  | excused hexcused => exact hexcused.elim
  | pardoned hpardoned => exact hpardoned.elim

end Behavioral.Reduction
