import Behavioral.Proofs.Interning
import Behavioral.Proofs.Unbound

/-!
# The names of a text

The names of a compiled table are those of the text that stand for values, each where it is read
first (`names_compile`). Reading the literals and names interns them all before the first operator
is applied (`names_leaves`), and no operator adds or drops a name (`keeps_names`), so neither a
collapsed negation nor a folded or pruned atom takes one away. For the same reason no function of a
list stands in front of a name (`namesFirst_of_run`). An evaluation thus needs every name of the
text, and the first one without a value ends it, even where a lookup would break down.
-/

namespace Behavioral

open AtomTable Assembly Item Reduction

variable {fold : Bool} {t t' : AtomTable} {a : AtomId} {atom : Atom} {n : String}
  {tokens : Tokens} {xs ys : Items} {text : String} {settings : Settings}

theorem eraseDups_append_singleton (seen : List String) (n : String) :
    (seen ++ [n]).eraseDups = seen.eraseDups ++ if n ∈ seen then [] else [n] := by
  rw [List.eraseDups_append, List.removeAll, List.filter_singleton]
  by_cases hmem : n ∈ seen
  · simp [hmem]
  · simp [hmem, List.eraseDups_cons]

/-! ### Names among tokens and items -/

/-- The names that stand for values, in the order of the text; a name in front of a bracket is a
function's. -/
def operandNames : Tokens → List String
  | [] => []
  | ⟨_, .name _, _⟩ :: ⟨_, .symbol .opening, _⟩ :: rest => operandNames rest
  | ⟨_, .name n, _⟩ :: rest => n :: operandNames rest
  | _ :: rest => operandNames rest

def ParseTree.name? : ParseTree → Option String
  | .name n => some n
  | _ => none

/-- The names among the leaves of the items. -/
def leafNames (xs : Items) : List String :=
  (leaves xs).filterMap ParseTree.name?

theorem leafNames_name {start stop : Nat} (h : Apart xs) :
    leafNames (⟨start, .name n, stop⟩ :: xs) = n :: leafNames xs := by
  rw [leafNames, leaves_name h]
  rfl

theorem leafNames_negation (minus : Option (Spanned Unit)) :
    leafNames (negation minus ++ xs) = leafNames xs := by
  cases minus <;> rfl

/-- Settling signs keeps the names, and keeps them apart from brackets. -/
theorem leafNames_settle : ∀ (leading : Bool) (minus : Option (Spanned Unit)) (ts : Tokens),
    leafNames (settle leading minus ts) = operandNames ts
  | leading, minus, [] => by cases leading <;> cases minus <;> rfl
  | leading, minus, ⟨_, .number _, _⟩ :: rest => by
    cases leading <;> cases minus <;> exact leafNames_settle false none rest
  | leading, minus, ⟨_, .symbol s, _⟩ :: rest => by
    cases s <;> cases leading <;> cases minus <;> exact leafNames_settle _ _ rest
  | leading, minus, ⟨start, .name n, stop⟩ :: rest => by
    have ih := leafNames_settle false none rest
    rw [settle_solid (solid_name n), leafNames_negation, ofToken,
      show leadsOn (.name n) = false from rfl]
    by_cases hcall : ∃ s e us, rest = ⟨s, .symbol .opening, e⟩ :: us
    · obtain ⟨s, e, us, rfl⟩ := hcall
      exact ih
    · have hapart : Apart (settle false none rest) := by
        rcases rest with _ | ⟨⟨s, token, e⟩, us⟩
        · nofun
        · rw [settle_follow]
          refine apart_cons _ _ fun hopening => ?_
          cases @ofToken_injective token (.symbol .opening) hopening
          exact hcall ⟨s, e, us, rfl⟩
      rw [leafNames_name hapart, ih, operandNames]
      exact fun s e us hrest => hcall ⟨s, e, us, hrest⟩

/-- Replacing reciprocals of literals keeps the names. -/
theorem leafNames_expanded {IsReciprocal : String → Prop} (h : Expanded IsReciprocal xs ys) :
    leafNames ys = leafNames xs := by
  induction h with
  | nil => rfl
  | reciprocal _ _ ih => exact ih
  | call _ ih => exact ih
  | @item i xs ys hcall _ ih =>
    obtain ⟨start, item, stop⟩ := i
    cases item with
    | name f =>
      have apart {zs : Items} (hzs : ∀ s e us, zs ≠ ⟨s, .opening, e⟩ :: us) : Apart zs := by
        rintro ⟨s, item, e⟩ hfirst rfl
        obtain ⟨us, rfl⟩ := List.head?_eq_some_iff.1 hfirst
        exact hzs s e us rfl
      rw [leafNames_name (apart fun s e us => (hcall f s e us rfl).1),
        leafNames_name (apart fun s e us => (hcall f s e us rfl).2), ih]
    | number | lead | join | comma | opening | closing => exact ih

theorem leafNames_prepare (tokens : Tokens) : leafNames (prepare tokens) = operandNames tokens :=
  (leafNames_expanded (expanded_expandReciprocals _)).trans (leafNames_settle _ _ _)

/-! ### Names in a table -/

namespace AtomTable

theorem names_push :
    names { t with atoms := t.atoms.push atom } = t.names ++ atom.text?.toList := by
  rw [names, Array.toList_push, List.filterMap_append]
  cases atom <;> rfl

/-- A name is added when it is new. -/
theorem names_intern_name (h : t.intern (.name n) = .ok (a, t')) :
    t'.names = t.names ++ if n ∈ t.names then [] else [n] := by
  have hsame {atom : Atom} : atom.sameContent (.name n) = true ↔ atom.text? = some n := by
    cases atom <;> simp [Atom.sameContent, Atom.text?]
  have hmem : n ∈ t.names ↔ ∃ id, (t.get id).sameContent (.name n) = true := by
    rw [names_eq, List.mem_filterMap]
    constructor
    · rintro ⟨id, -, hid⟩
      exact ⟨id, hsame.2 hid⟩
    · rintro ⟨id, hid⟩
      refine ⟨id, List.mem_range.2 (lt_size_of_get rfl fun hget => ?_), hsame.1 hid⟩
      rw [hget] at hid
      cases hid
  rcases of_intern h with ⟨rfl, hfound⟩ | ⟨hnew, -, rfl⟩
  · rw [if_pos (hmem.2 ⟨a, hfound⟩), List.append_nil]
  · have hnot : n ∉ t.names := by
      rw [hmem]
      rintro ⟨id, hid⟩
      rw [hnew id] at hid
      cases hid
    rw [names_push, if_neg hnot]
    rfl

/-- Nothing else adds a name. -/
theorem names_intern (hatom : atom.text? = none) (h : t.intern atom = .ok (a, t')) :
    t'.names = t.names := by
  rcases of_intern h with ⟨rfl, -⟩ | ⟨-, -, rfl⟩
  · rfl
  · rw [names_push, hatom]
    exact List.append_nil _

end AtomTable

/-- Reading leaves adds their names, each when it comes first. -/
theorem names_leaves {ls : List ParseTree} : ∀ {seen : List String} {t t' : AtomTable}
    {as : List AtomId}, t.names = seen.eraseDups →
      ls.mapM (leaf (algebra fold)) t = .ok (as, t') →
      t'.names = (seen ++ ls.filterMap ParseTree.name?).eraseDups := by
  induction ls with
  | nil =>
    intro seen t t' as hseen h
    cases h
    rw [List.filterMap_nil, List.append_nil, hseen]
  | cons l ls ih =>
    intro seen t t' as hseen h
    rw [List.mapM_cons] at h
    obtain ⟨a, t₁, ha, h⟩ := build_bind_eq_ok.1 h
    obtain ⟨rest, t₂, hrest, has⟩ := build_bind_eq_ok.1 h
    cases has
    cases l with
    | number x =>
      have hnames : t₁.names = t.names := names_intern rfl ha
      exact ih (hnames.trans hseen) hrest
    | name n =>
      have hnames : t₁.names = t.names ++ if n ∈ t.names then [] else [n] := names_intern_name ha
      have hseen' : t₁.names = (seen ++ [n]).eraseDups := by
        rw [hnames, hseen, eraseDups_append_singleton]
        simp only [List.mem_eraseDups]
      rw [ih hseen' hrest, List.append_assoc]
      rfl
    | _ => cases ha

/-- No operator adds or drops a name. -/
theorem keeps_names (fold : Bool) (ns : List String) :
    Reduction.Keeps (algebra fold) (·.names = ns) := by
  refine keeps_of_intern fun hinner h ht => (names_intern ?_ h).trans ht
  rename_i atom
  cases atom <;> first | rfl | cases hinner

/-- An assembled table has the names of its items, each where it is read first. -/
theorem names_assemble (h : assemble fold xs = .ok t) : t.names = (leafNames xs).eraseDups := by
  obtain ⟨root, table, hrun, rfl⟩ := assemble_eq_ok.1 h
  obtain ⟨ps, t₀, hpieces, hreduce⟩ := build_bind_eq_ok.1 hrun
  have hleaves : t₀.names = (leafNames xs).eraseDups :=
    @names_leaves fold _ [] _ _ _ rfl (leaves_of_pieces xs hpieces)
  have hnames : table.names = (leafNames xs).eraseDups :=
    (keeps_names fold _).reduce hreduce hleaves
  exact hnames

/-! ### Names before functions of lists -/

namespace AtomTable

theorem NamesFirst.intern (h : t.NamesFirst) (hatom : atom.text? = none)
    (hintern : t.intern atom = .ok (a, t')) : t'.NamesFirst := by
  rcases of_intern hintern with ⟨rfl, -⟩ | ⟨-, -, rfl⟩
  · exact h
  · refine h.grow extends_push ((adds_of_size size_push get_push_size).imp ?_)
    rintro _ rfl
    exact hatom

/-- No atom applies a function of a list. -/
def Unlisted (t : AtomTable) : Prop :=
  ∀ id, (t.get id).appliesList = false

theorem Unlisted.namesFirst (h : t.Unlisted) : t.NamesFirst := by
  intro id i n hlist
  rw [h id] at hlist
  cases hlist

theorem Unlisted.push (h : t.Unlisted) (hatom : atom.appliesList = false) :
    Unlisted { t with atoms := t.atoms.push atom } :=
  forall_get_push (Q := fun atom => atom.appliesList = false) rfl h hatom

theorem Unlisted.intern (h : t.Unlisted) (hatom : atom.appliesList = false)
    (hintern : t.intern atom = .ok (a, t')) : t'.Unlisted :=
  forall_get_intern (Q := fun atom => atom.appliesList = false) rfl h hatom hintern

theorem unlisted_empty : empty.Unlisted
  | 0 => rfl
  | id + 1 => congrArg Atom.appliesList (get_of_size_le (Nat.succ_pos id))

end AtomTable

/-- No operator puts a name behind a function of a list. -/
theorem keeps_namesFirst (fold : Bool) : Reduction.Keeps (algebra fold) NamesFirst := by
  refine keeps_of_intern fun hinner h ht => NamesFirst.intern ht ?_ h
  rename_i atom
  cases atom <;> first | rfl | cases hinner

/-- All literals and names are read before the first operator is applied, so the names come first,
however a literal is read. -/
theorem namesFirst_of_run (alg : Algebra AtomTable AtomId)
    (same : SameOperators alg (algebra fold)) (hname : alg.name = (algebra fold).name)
    (hnumber : ∀ x {t t' : AtomTable} {a : AtomId}, alg.number x t = .ok (a, t') →
      t.Unlisted → t'.Unlisted)
    (hrun : Reduction.run alg xs AtomTable.empty = .ok (a, t)) : t.NamesFirst := by
  obtain ⟨ps, t₀, hpieces, hreduce⟩ := build_bind_eq_ok.1 hrun
  have hunlisted : t₀.Unlisted := by
    refine mapM_leaf_keeps hnumber (fun n _ _ _ hn ht => ?_) (leaves_of_pieces xs hpieces)
      unlisted_empty
    rw [hname] at hn
    exact @Unlisted.intern _ _ _ (.name n) ht rfl hn
  have hreduce : Reduction.reduce alg [] [] ps t₀ = .ok (a, t) := hreduce
  rw [same.reduce_eq] at hreduce
  exact (keeps_namesFirst fold).reduce hreduce hunlisted.namesFirst

theorem namesFirst_assemble (h : assemble fold xs = .ok t) : t.NamesFirst := by
  obtain ⟨root, table, hrun, rfl⟩ := assemble_eq_ok.1 h
  have htable : table.NamesFirst := by
    refine namesFirst_of_run (algebra fold) ⟨rfl, rfl, rfl, rfl⟩ rfl
      (fun x _ _ _ hx ht => ?_) hrun
    exact @Unlisted.intern _ _ _ (.const x false) ht rfl hx
  exact htable

/-- Whatever compiles has the names of the text that stand for values, each once and in the order in
which they come first. The first one that is not bound ends an evaluation. If all are bound, it has
a value unless it strays, and then it breaks down. -/
theorem names_compile (h : compile text settings = .ok t) :
    (∃ tokens, tokenize text settings = .ok tokens ∧ t.names = (operandNames tokens).eraseDups) ∧
    ∀ bindings,
      ((∃ v, t.evaluate bindings = .ok v) ↔
        (∀ n ∈ t.names, (bindings n).isSome) ∧ ¬t.Strays bindings) ∧
      (∀ n, t.names.find? (fun n => (bindings n).isNone) = some n →
        t.evaluate bindings = .error (.evaluation (.unbound n))) ∧
      (t.evaluate bindings = .error (.breakdown .noSegment) ↔ t.Strays bindings) := by
  obtain ⟨items, table, hitems, hassemble, rfl⟩ := compile_eq_ok.1 h
  obtain ⟨tokens, htokens, -, rfl, -⟩ := itemsOf_eq_ok.1 hitems
  obtain ⟨hassembled, hroot⟩ := assembled_of_assemble hassemble
  have hwell := (hassembled.wellFormed hroot.within).optimized settings
  refine ⟨⟨tokens, htokens, ?_⟩, fun bindings =>
    ⟨evaluate_ok_iff hwell.backward hwell.root.2, fun n hn => ?_,
      evaluate_eq_breakdown_iff hwell.backward hwell.root.2⟩⟩
  · rw [names_optimize settings, names_assemble hassemble, leafNames_prepare]
  · rw [names_optimize] at hn
    rw [evaluate_optimize hassembled.sound hroot.within.2]
    exact evaluate_unbound hassembled.sound.backward hroot.within.2
      (namesFirst_assemble hassemble) hn

theorem names_compile_difference : ∃ t, compile "-(-x) + v(a,b)*a + x/(1+1)" {} = .ok t ∧
    t.names = ["x", "@a", "@b", "a"] ∧ (∃ v, t.evaluate (fun _ => some 1) = .ok v) ∧
      t.evaluate (fun n => if n = "@b" then none else some 1) =
        .error (.evaluation (.unbound "@b")) := by
  have hruns : (compile "-(-x) + v(a,b)*a + x/(1+1)" {}).toOption.any
      (fun t => (t.evaluate fun _ => some 1).isOk) = true := by decide +kernel
  have hread : (tokenize "-(-x) + v(a,b)*a + x/(1+1)" {}).toOption.map
      (fun tokens => (operandNames tokens).eraseDups) = some ["x", "@a", "@b", "a"] := by
    decide +kernel
  cases hcompile : compile "-(-x) + v(a,b)*a + x/(1+1)" {} with
  | error f =>
    rw [hcompile] at hruns
    cases hruns
  | ok t =>
    obtain ⟨⟨tokens, htokens, hnames⟩, hevaluate⟩ := names_compile hcompile
    rw [htokens] at hread
    rw [hcompile] at hruns
    have hruns : (t.evaluate fun _ => some 1).isOk = true := hruns
    have hnames' : t.names = ["x", "@a", "@b", "a"] := hnames.trans (Option.some.inj hread)
    refine ⟨t, rfl, hnames', (hevaluate _).1.2 ⟨fun _ _ => rfl, fun hstrays => ?_⟩,
      (hevaluate _).2.1 "@b" ?_⟩
    · rw [(hevaluate _).2.2.2 hstrays] at hruns
      cases hruns
    · rw [hnames']
      decide +kernel

/-- Binding every name is not enough where the first abscissa of a table is not a number. -/
theorem names_compile_stray : ∃ t, compile "pwl(0.5, x, 0, 1, 1)" {} = .ok t ∧
    t.names = ["x"] ∧
      t.evaluate (fun _ => some notANumber) = .error (.breakdown .noSegment) := by
  have hbroken : (compile "pwl(0.5, x, 0, 1, 1)" {}).toOption.any (fun t => t.names = ["x"] ∧
      t.evaluate (fun _ => some notANumber) = .error (.breakdown .noSegment)) = true := by
    decide +kernel
  cases hcompile : compile "pwl(0.5, x, 0, 1, 1)" {} with
  | error f =>
    rw [hcompile] at hbroken
    cases hbroken
  | ok t =>
    rw [hcompile] at hbroken
    exact ⟨t, rfl, of_decide_eq_true hbroken⟩

end Behavioral
