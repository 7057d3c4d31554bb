import Behavioral.Expr.Assembly
import Behavioral.Proofs.Grammar

/-!
# Building trees

Algebras whose operands are trees: `ParseTree.shapes` joins whatever it is given,
`ParseTree.algebra` takes only operands that fit, with the faults that assembling atoms has, and
`ParseTree.admitting` builds only some of the functions of a list. What they have in common is
`Builds`: an operator yields its tree just when that tree fits.
-/

namespace Behavioral

/-- A step and what follows from it come to an end one after the other. -/
theorem build_bind_eq_ok {σ α β : Type} {x : Build σ α} {f : α → Build σ β} {s s' : σ} {b : β} :
    (x >>= f) s = .ok (b, s') ↔ ∃ a s₁, x s = .ok (a, s₁) ∧ f a s₁ = .ok (b, s') := by
  simp only [bind, StateT.bind, Except.bind]
  rcases x s with e | ⟨a, s₁⟩ <;> simp

/-- Without a state to change, a step yields a value or fails. -/
def Yields {α : Type} (x : Build Unit α) (a : α) : Prop :=
  x () = .ok (a, ())

section Yields

variable {α β : Type} {a : α} {b : β}

@[simp]
theorem yields_pure {a' : α} : Yields (pure a) a' ↔ a' = a := by
  simp [Yields, pure, StateT.pure, Except.pure, eq_comm]

@[simp]
theorem yields_bind {x : Build Unit α} {f : α → Build Unit β} :
    Yields (x >>= f) b ↔ ∃ a, Yields x a ∧ Yields (f a) b :=
  build_bind_eq_ok.trans (exists_congr fun _ => ⟨fun ⟨_, h⟩ => h, fun h => ⟨(), h⟩⟩)

@[simp]
theorem yields_map {x : Build Unit α} {f : α → β} :
    Yields (f <$> x) b ↔ ∃ a, Yields x a ∧ b = f a := by
  rw [← bind_pure_comp, yields_bind]
  simp only [yields_pure]

@[simp]
theorem not_yields_throw {fault : Fault} : ¬Yields (throw fault) a :=
  nofun

@[simp]
theorem not_yields_fail {fault : SyntaxFault} : ¬Yields (Reduction.fail fault) a :=
  nofun

theorem Yields.unique {x : Build Unit α} {a a' : α} (h : Yields x a) (h' : Yields x a') : a = a' :=
  congrArg Prod.fst (Except.ok.inj (h.symm.trans h'))

end Yields

namespace ParseTree

/-- Every node of the tree has the property. -/
def All (P : ParseTree → Prop) (t : ParseTree) : Prop :=
  ∀ n ∈ t.nodes, P n

variable {P : ParseTree → Prop} {a b : ParseTree}

theorem all_number {x : Float} : (number x).All P ↔ P (number x) := by
  simp [All, nodes]

theorem all_name {n : String} : (name n).All P ↔ P (name n) := by
  simp [All, nodes]

theorem all_lead {op : LeadOp} : (op.tree a).All P ↔ P (op.tree a) ∧ a.All P := by
  cases op <;> simp [All, LeadOp.tree, nodes]

theorem all_join {op : BinaryOp} :
    (join op a b).All P ↔ P (join op a b) ∧ a.All P ∧ b.All P := by
  simp [All, nodes, or_imp, forall_and]

theorem all_call {op : UnaryOp} : (call op a).All P ↔ P (call op a) ∧ a.All P := by
  simp [All, nodes]

theorem all_list {op : ListOp} {args : List ParseTree} :
    (list op args).All P ↔ P (list op args) ∧ ∀ a ∈ args, a.All P := by
  simp only [All, nodes, List.mem_cons, forall_eq_or_imp, mem_nodesOf]
  refine and_congr_right fun _ => ⟨fun h a ha n hn => h n ⟨a, ha, hn⟩, fun h n hn => ?_⟩
  obtain ⟨a, ha, hn⟩ := hn
  exact h a ha n hn

/-- Whether the operands of the outermost operator fit: numbers or truth values as it takes them,
and a divisor that does not fold to zero where `fold` asks for it. -/
def Fits (fold : Bool) : ParseTree → Prop
  | not a => a.isBoolean = true
  | sign .minus a => a.isBoolean = false
  | join op a b => Assembly.typeFault? op a.isBoolean b.isBoolean 0 = none ∧
      (fold = true → op = .div → ∀ x, b.folded = some x → (x == 0) = false)
  | call _ a => a.isBoolean = false
  | list _ args => ∀ a ∈ args, a.isBoolean = false
  | _ => True

def leadFault? : LeadOp → ParseTree → Nat → Option Fault
  | .not, a, start => if a.isBoolean then none else some (.typing (.notNeedsBoolean start))
  | .negate, a, start => if a.isBoolean then some (.typing (.minusNeedsNumber start)) else none

def foldsToZero (a : ParseTree) : Bool :=
  a.folded.any (· == 0)

def joinFault? (fold : Bool) (op : BinaryOp) (a b : ParseTree) (start : Nat) : Option Fault :=
  match Assembly.typeFault? op a.isBoolean b.isBoolean start with
  | some fault => some (.typing fault)
  | none =>
    if fold && op = .div && b.foldsToZero then some (.arithmetic (.divisionByZero start)) else none

def callFault? (name : String) (a : ParseTree) (start : Nat) : Option Fault :=
  if a.isBoolean then some (.typing (.functionNeedsNumber name start)) else none

def listFault? (name : String) (args : List ParseTree) (start : Nat) : Option Fault :=
  if args.any isBoolean then some (.typing (.functionNeedsNumbers name start)) else none

def grow (fault? : Option Fault) (t : ParseTree) : Build Unit ParseTree :=
  match fault? with
  | none => return t
  | some fault => throw fault

/-- Trees whose operators fit their operands. -/
def algebra (fold : Bool) : Algebra Unit ParseTree where
  number x := return number x
  name n := return name n
  lead op a start := grow (leadFault? op a start) (op.tree a)
  join op a b start := grow (joinFault? fold op a b start) (join op a b)
  call op f a start := grow (callFault? f a start) (call op a)
  callList op f args start := grow (listFault? f args start) (list op args)

open Classical in
/-- Trees whose operators fit their operands and whose functions of a list are admitted. -/
noncomputable def admitting (fold : Bool) (Admits : ParseTree → Prop) : Algebra Unit ParseTree :=
  { algebra fold with
    callList := fun op f args start =>
      if Admits (list op args) then (algebra fold).callList op f args start
      else Reduction.fail (.bareList start) }

/-- Trees of any operands. -/
def shapes : Algebra Unit ParseTree where
  number x := return number x
  name n := return name n
  lead op a _ := return op.tree a
  join op a b _ := return join op a b
  call op _ a _ := return call op a
  callList op _ args _ := return list op args

/-- An algebra that builds a tree just when it fits. -/
structure Builds (alg : Algebra Unit ParseTree) (Fit : ParseTree → Prop) : Prop where
  number (x : Float) : alg.number x = pure (.number x) ∧ Fit (.number x)
  name (n : String) : alg.name n = pure (.name n) ∧ Fit (.name n)
  lead (op : LeadOp) (a : ParseTree) (start : Nat) (t : ParseTree) :
    Yields (alg.lead op a start) t ↔ Fit (op.tree a) ∧ t = op.tree a
  join (op : BinaryOp) (a b : ParseTree) (start : Nat) (t : ParseTree) :
    Yields (alg.join op a b start) t ↔ Fit (.join op a b) ∧ t = .join op a b
  call (op : UnaryOp) (f : String) (a : ParseTree) (start : Nat) (t : ParseTree) :
    Yields (alg.call op f a start) t ↔ Fit (.call op a) ∧ t = .call op a
  callList (op : ListOp) (f : String) (args : List ParseTree) (start : Nat) (t : ParseTree) :
    Yields (alg.callList op f args start) t ↔ Fit (.list op args) ∧ t = .list op args

theorem yields_grow {fault? : Option Fault} {t u : ParseTree} :
    Yields (grow fault? t) u ↔ fault? = none ∧ u = t := by
  cases fault? <;> simp [grow]

theorem typeFault?_eq_none {op : BinaryOp} {x y : Bool} (start : Nat) :
    Assembly.typeFault? op x y start = none ↔ Assembly.typeFault? op x y 0 = none := by
  cases op <;> cases x <;> cases y <;> simp [Assembly.typeFault?]

theorem joinFault?_eq_none {fold : Bool} {op : BinaryOp} {start : Nat} :
    joinFault? fold op a b start = none ↔ (join op a b).Fits fold := by
  rw [Fits, ← typeFault?_eq_none start, joinFault?, foldsToZero]
  split
  · rename_i fault hf
    simp [hf]
  · rename_i hf
    cases fold <;> cases hb : b.folded <;> simp [hf]

theorem builds_algebra (fold : Bool) : Builds (algebra fold) (Fits fold) where
  number _ := ⟨rfl, trivial⟩
  name _ := ⟨rfl, trivial⟩
  lead op a start t := by
    cases op <;> simp [algebra, yields_grow, leadFault?, LeadOp.tree, Fits]
  join op a b start t := by
    simp [algebra, yields_grow, joinFault?_eq_none]
  call op f a start t := by
    simp [algebra, yields_grow, callFault?, Fits]
  callList op f args start t := by
    simp [algebra, yields_grow, listFault?, Fits]

/-- What fits, and is admitted if it is a function of a list. -/
def FitsAdmitted (fold : Bool) (Admits : ParseTree → Prop) (t : ParseTree) : Prop :=
  t.Fits fold ∧ ∀ op args, t = list op args → Admits t

theorem admitting_callList {fold : Bool} {Admits : ParseTree → Prop} {op : ListOp} {f : String}
    {args : List ParseTree} {start : Nat} (h : Admits (list op args)) :
    (admitting fold Admits).callList op f args start = (algebra fold).callList op f args start :=
  if_pos h

theorem admitting_callList_fail {fold : Bool} {Admits : ParseTree → Prop} {op : ListOp} {f : String}
    {args : List ParseTree} {start : Nat} (h : ¬Admits (list op args)) :
    (admitting fold Admits).callList op f args start = Reduction.fail (.bareList start) :=
  if_neg h

theorem fitsAdmitted_iff {fold : Bool} {Admits : ParseTree → Prop} {t : ParseTree}
    (ht : ∀ op args, t ≠ list op args) : t.FitsAdmitted fold Admits ↔ t.Fits fold :=
  and_iff_left fun op args h => absurd h (ht op args)

theorem builds_admitting (fold : Bool) (Admits : ParseTree → Prop) :
    Builds (admitting fold Admits) (FitsAdmitted fold Admits) where
  number x := ⟨rfl, (fitsAdmitted_iff (by simp)).2 trivial⟩
  name n := ⟨rfl, (fitsAdmitted_iff (by simp)).2 trivial⟩
  lead op a start t := by
    rw [fitsAdmitted_iff (by cases op <;> simp [LeadOp.tree])]
    exact (builds_algebra fold).lead op a start t
  join op a b start t := by
    rw [fitsAdmitted_iff (by simp)]
    exact (builds_algebra fold).join op a b start t
  call op f a start t := by
    rw [fitsAdmitted_iff (by simp)]
    exact (builds_algebra fold).call op f a start t
  callList op f args start t := by
    have hbuilds := (builds_algebra fold).callList op f args start t
    have hadmits : (list op args).FitsAdmitted fold Admits ↔
        (list op args).Fits fold ∧ Admits (list op args) :=
      and_congr_right fun _ => ⟨fun h => h op args rfl, fun h _ _ _ => h⟩
    rw [hadmits, and_right_comm, ← hbuilds]
    by_cases h : Admits (list op args)
    · rw [admitting_callList h, and_iff_left h]
    · simp [admitting_callList_fail h, h]

theorem builds_shapes : Builds shapes fun _ => True where
  number _ := ⟨rfl, trivial⟩
  name _ := ⟨rfl, trivial⟩
  lead op a start t := by simp [shapes]
  join op a b start t := by simp [shapes]
  call op f a start t := by simp [shapes]
  callList op f args start t := by simp [shapes]

end ParseTree

namespace Reduction

abbrev Parts := List (Spanned (Part ParseTree))

/-- The literals and names among the items, except for the names of functions. -/
def leaves : Items → List ParseTree
  | [] => []
  | ⟨_, .name _, _⟩ :: ⟨_, .opening, _⟩ :: rest => leaves rest
  | ⟨_, .number x, _⟩ :: rest => .number x :: leaves rest
  | ⟨_, .name n, _⟩ :: rest => .name n :: leaves rest
  | _ :: rest => leaves rest

/-- A literal or a name as the tree it is, and any other item as itself. -/
def piece : Item → Piece ParseTree
  | .number x => .part (.operand (.number x))
  | .name n => .part (.operand (.name n))
  | .lead op => .part (.lead op)
  | .join op => .part (.join op)
  | .comma => .part .comma
  | .opening => .opening none
  | .closing => .closing

/-- The pieces of the items, a name in front of a bracket being the bracket's. -/
def spell : Items → List (Spanned (Piece ParseTree))
  | [] => []
  | ⟨start, .name f, stop⟩ :: ⟨openStart, .opening, openStop⟩ :: rest =>
    ⟨openStart, .opening (some ⟨start, f, stop⟩), openStop⟩ :: spell rest
  | ⟨start, item, stop⟩ :: rest => ⟨start, piece item, stop⟩ :: spell rest

theorem pieces_eq {alg : Algebra Unit ParseTree} {Fit : ParseTree → Prop}
    (build : ParseTree.Builds alg Fit) (xs : Items) : pieces alg xs = pure (spell xs) := by
  fun_induction spell xs with
  | case1 => rfl
  | case2 start f stop openStart openStop rest ih => simp only [pieces, ih, pure_bind]
  | case3 start item stop rest hname ih =>
    cases item <;>
      simp only [pieces, piece, ih, (build.number _).1, (build.name _).1, map_pure, pure_bind]

end Reduction

end Behavioral
