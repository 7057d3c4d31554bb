import Behavioral.Expr.Value
import Mathlib

/-!
# Expression trees

The tree of an expression keeps every sign, negation and bracket of the text. Its value is computed
node by node, if every node has one: a name may have none, and a function of a list
(`value_of_mem`). The tree is well typed when it has a kind: a run of signs with an odd number of
minus signs negates a number, and with an even number it leaves its operand's kind alone.

`folded` is what constant folding finds for a tree, with a power of exponent two computed as a
square. Where squares and such powers agree, that is the value of a tree without names and lists,
and nothing for any other (`folded_eq`).
-/

namespace Behavioral

inductive Sign where
  | plus
  | minus
deriving DecidableEq, Repr

/-- The kinds of values that expressions have. -/
inductive Kind where
  | number
  | boolean
deriving DecidableEq, Repr

inductive ParseTree where
  | number (value : Float)
  | name (text : String)
  | sign (sign : Sign) (a : ParseTree)
  | not (a : ParseTree)
  | bracket (a : ParseTree)
  | join (op : BinaryOp) (a b : ParseTree)
  | call (op : UnaryOp) (a : ParseTree)
  | list (op : ListOp) (args : List ParseTree)

namespace BinaryOp

/-- Whether the operator takes operands of the kind, both of the same one. -/
def takes : BinaryOp → Kind → Bool
  | eq, _ | neq, _ => true
  | and, k | or, k => k == .boolean
  | _, k => k == .number

def kind (op : BinaryOp) : Kind :=
  if op.isBoolean then .boolean else .number

end BinaryOp

namespace ParseTree

mutual

/-- The value of an expression, node by node, if every node has one. -/
def value (bindings : Bindings) : ParseTree → Option Float
  | number x => some x
  | name text => bindings text
  | sign .plus a => a.value bindings
  | sign .minus a => (a.value bindings).map (Op.apply1 (.unary .neg))
  | not a => (a.value bindings).map (Op.apply1 (.unary .not))
  | bracket a => a.value bindings
  | join op a b =>
    (a.value bindings).bind fun x => (b.value bindings).map (Op.apply2 (.binary op) x)
  | call op a => (a.value bindings).map (Op.apply1 (.unary op))
  | list op args => (values bindings args).bind (Op.applyList (.list op))

def values (bindings : Bindings) : List ParseTree → Option (List Float)
  | [] => some []
  | a :: rest => (a.value bindings).bind fun x => (values bindings rest).map (x :: ·)

end

mutual

/-- The tree and everything below it. -/
def nodes : ParseTree → List ParseTree
  | number x => [number x]
  | name text => [name text]
  | sign s a => sign s a :: a.nodes
  | not a => not a :: a.nodes
  | bracket a => bracket a :: a.nodes
  | join op a b => join op a b :: (a.nodes ++ b.nodes)
  | call op a => call op a :: a.nodes
  | list op args => list op args :: nodesOf args

def nodesOf : List ParseTree → List ParseTree
  | [] => []
  | a :: rest => a.nodes ++ nodesOf rest

end

/-- Well typed, with values of the given kind. -/
inductive HasKind : ParseTree → Kind → Prop
  | number (x : Float) : HasKind (number x) .number
  | name (text : String) : HasKind (name text) .number
  | run {signs : List Sign} {a : ParseTree} {k : Kind} : HasKind a k →
      (signs.count .minus % 2 = 1 → k = .number) → HasKind (signs.foldr sign a) k
  | not {a : ParseTree} : HasKind a .boolean → HasKind (not a) .boolean
  | bracket {a : ParseTree} {k : Kind} : HasKind a k → HasKind (bracket a) k
  | join {op : BinaryOp} {a b : ParseTree} {k : Kind} : HasKind a k → HasKind b k →
      op.takes k → HasKind (join op a b) op.kind
  | call {op : UnaryOp} {a : ParseTree} : HasKind a .number → HasKind (call op a) .number
  | list {op : ListOp} {args : List ParseTree} : (∀ a ∈ args, HasKind a .number) →
      HasKind (list op args) .number

/-- Without names and without functions of a list. -/
def isConstant : ParseTree → Bool
  | number _ => true
  | name _ => false
  | sign _ a | not a | bracket a | call _ a => a.isConstant
  | join _ a b => a.isConstant && b.isConstant
  | list _ _ => false

/-- Raising to the power two squares, wherever the tree does it. -/
def SquaresPowers (bindings : Bindings) (t : ParseTree) : Prop :=
  ∀ a b, join .pow a b ∈ t.nodes → b.value bindings = some 2 →
    ∀ x, a.value bindings = some x → x.pow 2 = x * x

/-- Raising a constant to the constant power two squares, wherever the tree does it. -/
def SquaresConstants (bindings : Bindings) (t : ParseTree) : Prop :=
  ∀ a b, join .pow a b ∈ t.nodes → a.isConstant → b.isConstant → b.value bindings = some 2 →
    ∀ x, a.value bindings = some x → x.pow 2 = x * x

/-- No constant divisor is zero. -/
def DividesSafely (t : ParseTree) : Prop :=
  ∀ a b, join .div a b ∈ t.nodes → b.isConstant → ∀ bindings x, b.value bindings = some x →
    (x == 0) = false

/-- What constant folding computes. -/
def folded : ParseTree → Option Float
  | number x => some x
  | name _ => none
  | sign .plus a => a.folded
  | sign .minus a => a.folded.map (UnaryOp.apply .neg)
  | not a => a.folded.map (UnaryOp.apply .not)
  | bracket a => a.folded
  | join op a b =>
    if op = .pow ∧ b.folded = some 2 then a.folded.map (UnaryOp.apply .square)
    else a.folded.bind fun x => b.folded.map (op.apply x)
  | call op a => a.folded.map (UnaryOp.apply op)
  | list _ _ => none

/-- No divisor folds to zero. -/
def FoldsSafely (t : ParseTree) : Prop :=
  ∀ a b, join .div a b ∈ t.nodes → ∀ x, b.folded = some x → (x == 0) = false

/-- Whether a tree is read as a truth value, by its outermost operator. -/
def isBoolean : ParseTree → Bool
  | sign .plus a | bracket a => a.isBoolean
  | not _ => true
  | join op _ _ => op.isBoolean
  | _ => false

theorem mem_nodesOf {n : ParseTree} {args : List ParseTree} :
    n ∈ nodesOf args ↔ ∃ a ∈ args, n ∈ a.nodes := by
  induction args with
  | nil => simp [nodesOf]
  | cons a rest ih => simp [nodesOf, ih]

mutual

theorem nodes_subset {n : ParseTree} : ∀ {t : ParseTree}, n ∈ t.nodes → n.nodes ⊆ t.nodes
  | number _, h | name _, h => by
    rw [List.mem_singleton.1 h]
    exact List.Subset.refl _
  | sign _ a, h | not a, h | bracket a, h | call _ a, h => by
    rcases List.mem_cons.1 h with rfl | h
    · exact List.Subset.refl _
    · exact List.Subset.trans (nodes_subset h) (List.subset_cons_self _ _)
  | join _ a b, h => by
    rcases List.mem_cons.1 h with rfl | h
    · exact List.Subset.refl _
    · refine List.Subset.trans ?_ (List.subset_cons_self _ _)
      rcases List.mem_append.1 h with h | h
      · exact List.Subset.trans (nodes_subset h) (List.subset_append_left _ _)
      · exact List.Subset.trans (nodes_subset h) (List.subset_append_right _ _)
  | list _ args, h => by
    rcases List.mem_cons.1 h with rfl | h
    · exact List.Subset.refl _
    · exact List.Subset.trans (nodes_subset_nodesOf h) (List.subset_cons_self _ _)

theorem nodes_subset_nodesOf {n : ParseTree} : ∀ {args : List ParseTree}, n ∈ nodesOf args →
    n.nodes ⊆ nodesOf args
  | [], h => nomatch h
  | a :: rest, h => by
    rcases List.mem_append.1 h with h | h
    · exact List.Subset.trans (nodes_subset h) (List.subset_append_left _ _)
    · exact List.Subset.trans (nodes_subset_nodesOf h) (List.subset_append_right _ _)

end

theorem divisor_subset {a b t : ParseTree} {op : BinaryOp} (h : join op a b ∈ t.nodes) :
    b.nodes ⊆ t.nodes :=
  List.Subset.trans (by simp [nodes]) (nodes_subset h)

mutual

/-- A tree has a value only if all its nodes have one. -/
theorem value_of_mem {bindings : Bindings} {n : ParseTree} : ∀ {t : ParseTree} {x : Float},
    n ∈ t.nodes → t.value bindings = some x → ∃ y, n.value bindings = some y
  | number _, x, h, hx | name _, x, h, hx => by
    rw [List.mem_singleton.1 h]
    exact ⟨x, hx⟩
  | sign .plus a, x, h, hx | bracket a, x, h, hx => by
    rcases List.mem_cons.1 h with rfl | h
    · exact ⟨x, hx⟩
    · exact value_of_mem h hx
  | sign .minus a, x, h, hx | not a, x, h, hx | call _ a, x, h, hx => by
    rcases List.mem_cons.1 h with rfl | h
    · exact ⟨x, hx⟩
    · obtain ⟨y, hy, -⟩ := Option.map_eq_some_iff.1 hx
      exact value_of_mem h hy
  | join _ a b, x, h, hx => by
    rcases List.mem_cons.1 h with rfl | h
    · exact ⟨x, hx⟩
    · obtain ⟨y, hy, hx⟩ := Option.bind_eq_some_iff.1 hx
      obtain ⟨z, hz, -⟩ := Option.map_eq_some_iff.1 hx
      rcases List.mem_append.1 h with h | h
      · exact value_of_mem h hy
      · exact value_of_mem h hz
  | list _ args, x, h, hx => by
    rcases List.mem_cons.1 h with rfl | h
    · exact ⟨x, hx⟩
    · obtain ⟨ys, hys, -⟩ := Option.bind_eq_some_iff.1 hx
      exact value_of_mem_nodesOf h hys

theorem value_of_mem_nodesOf {bindings : Bindings} {n : ParseTree} :
    ∀ {args : List ParseTree} {xs : List Float}, n ∈ nodesOf args →
      values bindings args = some xs → ∃ y, n.value bindings = some y
  | [], _, h, _ => nomatch h
  | a :: rest, xs, h, hxs => by
    obtain ⟨y, hy, hxs⟩ := Option.bind_eq_some_iff.1 hxs
    obtain ⟨ys, hys, -⟩ := Option.map_eq_some_iff.1 hxs
    rcases List.mem_append.1 h with h | h
    · exact value_of_mem h hy
    · exact value_of_mem_nodesOf h hys

end

theorem SquaresPowers.mono {bindings : Bindings} {t u : ParseTree} (h : t.SquaresPowers bindings)
    (sub : u.nodes ⊆ t.nodes) : u.SquaresPowers bindings :=
  fun a b hab => h a b (sub hab)

theorem SquaresConstants.mono {bindings : Bindings} {t u : ParseTree}
    (h : t.SquaresConstants bindings) (sub : u.nodes ⊆ t.nodes) : u.SquaresConstants bindings :=
  fun a b hab => h a b (sub hab)

theorem exists_value (bindings : Bindings) : ∀ {t : ParseTree}, t.isConstant = true →
    ∃ x, t.value bindings = some x
  | number x, _ => ⟨x, rfl⟩
  | sign .plus a, h | bracket a, h => exists_value bindings (t := a) h
  | sign .minus a, h | not a, h | call _ a, h => by
    obtain ⟨x, hx⟩ := exists_value bindings (t := a) h
    exact ⟨_, by rw [value, hx, Option.map_some]⟩
  | join op a b, h => by
    rw [isConstant, Bool.and_eq_true] at h
    obtain ⟨x, hx⟩ := exists_value bindings h.1
    obtain ⟨y, hy⟩ := exists_value bindings h.2
    exact ⟨_, by rw [value, hx, hy, Option.bind_some, Option.map_some]⟩

/-- A tree without names and lists folds to its value, and any other tree does not fold. -/
theorem folded_eq {bindings : Bindings} : ∀ {t : ParseTree}, t.SquaresConstants bindings →
    t.folded = if t.isConstant then t.value bindings else none
  | number x, _ => rfl
  | name _, _ => rfl
  | sign .plus a, h => by
    rw [folded, folded_eq (h.mono (by simp [nodes])), isConstant, value]
  | sign .minus a, h => by
    rw [folded, folded_eq (h.mono (by simp [nodes])), isConstant, value]
    split <;> rfl
  | not a, h => by
    rw [folded, folded_eq (h.mono (by simp [nodes])), isConstant, value]
    split <;> rfl
  | bracket a, h => by
    rw [folded, folded_eq (h.mono (by simp [nodes])), isConstant, value]
  | join op a b, h => by
    have ha := folded_eq (t := a) (h.mono (by simp [nodes]))
    have hb := folded_eq (t := b) (h.mono (by simp [nodes]))
    rw [folded, isConstant, value, ha, hb]
    cases hca : a.isConstant with
    | false => simp
    | true =>
      cases hcb : b.isConstant with
      | false => simp
      | true =>
        obtain ⟨x, hx⟩ := exists_value bindings hca
        obtain ⟨y, hy⟩ := exists_value bindings hcb
        have square (hop : op = .pow) (htwo : y = 2) : x.pow 2 = x * x := by
          subst hop htwo
          exact h a b (by simp [nodes]) hca hcb hy x hx
        simp only [hx, hy, if_true, Bool.and_self, Option.bind_some, Option.map_some,
          Option.some_inj]
        split
        · rename_i hpow
          obtain ⟨rfl, rfl⟩ := hpow
          exact congrArg some (square rfl rfl).symm
        · rfl
  | call op a, h => by
    rw [folded, folded_eq (h.mono (by simp [nodes])), isConstant, value]
    split <;> rfl
  | list _ _, _ => rfl

theorem value_eq_of_isConstant (bindings bindings' : Bindings) : ∀ {t : ParseTree},
    t.isConstant = true → t.value bindings = t.value bindings'
  | number x, _ => rfl
  | sign .plus a, h => value_eq_of_isConstant bindings bindings' (t := a) h
  | sign .minus a, h => by rw [value, value, value_eq_of_isConstant bindings bindings' (t := a) h]
  | not a, h => by rw [value, value, value_eq_of_isConstant bindings bindings' (t := a) h]
  | bracket a, h => value_eq_of_isConstant bindings bindings' (t := a) h
  | join op a b, h => by
    rw [isConstant, Bool.and_eq_true] at h
    rw [value, value, value_eq_of_isConstant bindings bindings' h.1,
      value_eq_of_isConstant bindings bindings' h.2]
  | call op a, h => by rw [value, value, value_eq_of_isConstant bindings bindings' (t := a) h]

/-- Where squares and constant powers agree, no divisor folds to zero just when no constant divisor
is zero. -/
theorem foldsSafely_iff {bindings : Bindings} {t : ParseTree} (h : t.SquaresConstants bindings) :
    t.FoldsSafely ↔ t.DividesSafely := by
  have hfolded {a b : ParseTree} (hab : join .div a b ∈ t.nodes) :
      b.folded = if b.isConstant then b.value bindings else none :=
    folded_eq (h.mono (divisor_subset hab))
  constructor
  · intro hsafe a b hab hb bindings' x hx
    rw [value_eq_of_isConstant bindings' bindings hb] at hx
    exact hsafe a b hab x ((hfolded hab).trans ((if_pos hb).trans hx))
  · intro hsafe a b hab x hx
    rw [hfolded hab, Option.ite_none_right_eq_some] at hx
    exact hsafe a b hab hx.1 bindings x hx.2

end ParseTree

end Behavioral
