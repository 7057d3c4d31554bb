import Behavioral.Expr.Compile
import Behavioral.Proofs.Assembling
import Behavioral.Proofs.Brackets
import Behavioral.Proofs.Optimizing
import Behavioral.Proofs.ReductionComplete
import Behavioral.Proofs.ReductionSound
import Behavioral.Proofs.Signs

/-!
# Compiling

An expression that compiles evaluates to the value of its parse tree, if that has one
(`evaluate_compile`), and with folding it compiles just when it has a parse tree that is well typed
and divides by no constant zero (`compile_ok_iff`). Assembling goes beside building the settled tree
of the tokens (`assemble_agrees`), which is built just when the tokens parse and the tree fits
together. A second look at the same run, which admits the nodes of that tree only, shows that the
table applies no function of a list besides (`assemble_sound`).
-/

namespace Behavioral

open AtomTable Item Reduction

deriving instance DecidableEq for Token

deriving instance DecidableEq for Spanned

variable {text : String} {settings : Settings} {tokens : Tokens} {items : Items} {t : AtomTable}
  {fold : Bool} {e tree : ParseTree} {Admits : ParseTree → Prop} {bindings : Bindings}

/-- The items of tokens as they are assembled. -/
def prepare (tokens : Tokens) : Items :=
  expandReciprocals (ofTokens tokens)

theorem itemsOf_eq_ok : itemsOf text settings = .ok items ↔ ∃ tokens,
    tokenize text settings = .ok tokens ∧ tokens ≠ [] ∧ items = prepare tokens ∧
      checkBrackets (prepare tokens) = .ok () := by
  simp only [itemsOf, bind, Except.bind]
  rcases tokenize text settings with f | tokens
  · simp
  · cases tokens with
    | nil => simp [throw, throwThe, MonadExceptOf.throw]
    | cons first rest =>
      simp only [List.isEmpty_cons, Bool.false_eq_true, ↓reduceIte, Except.ok.injEq,
        exists_eq_left', ne_eq, reduceCtorEq, not_false_eq_true, true_and]
      rw [← prepare]
      rcases checkBrackets (prepare (first :: rest)) with f | u
      · simp
      · simp [pure, Except.pure, eq_comm]

theorem compile_eq_ok : compile text settings = .ok t ↔ ∃ items t',
    itemsOf text settings = .ok items ∧ assemble settings.foldConstants items = .ok t' ∧
      t = t'.optimize settings := by
  simp only [compile, bind, Except.bind]
  rcases itemsOf text settings with f | items
  · simp
  · simp only [Except.ok.injEq, exists_and_left, exists_eq_left']
    rcases assemble settings.foldConstants items with f | t'
    · simp
    · simp [pure, Except.pure, eq_comm]

theorem assemble_eq_ok : assemble fold items = .ok t ↔ ∃ root table,
    run (Assembly.algebra fold) items AtomTable.empty = .ok (root, table) ∧
      t = { table with root } := by
  simp only [assemble, StateT.run, bind, Except.bind]
  rcases run (Assembly.algebra fold) items AtomTable.empty with f | ⟨root, table⟩
  · simp
  · simp [pure, Except.pure, eq_comm]

/-- A leaf of the items that are assembled. -/
def IsLeaf (tokens : Tokens) (a : ParseTree) : Prop :=
  a ∈ leaves (prepare tokens)

/-- No two of the literals are zeros of different signs. -/
def OneZero (xs : List Float) : Prop :=
  ¬(0 ∈ xs ∧ -0 ∈ xs)

instance (xs : List Float) : Decidable (OneZero xs) :=
  decidable_of_iff (¬((∃ x ∈ xs, x = 0) ∧ ∃ x ∈ xs, x = -0)) (by simp [OneZero])

/-- The literals of a text, once signs are settled and reciprocals of literals replaced. -/
def literalsOf (text : String) (settings : Settings) : List Float :=
  match itemsOf text settings with
  | .ok items => literals items
  | .error _ => []

theorem OneZero.distinct (h : OneZero (literals (prepare tokens))) : Distinct (IsLeaf tokens) :=
  fun ⟨hzero, hneg⟩ => h ⟨mem_literals _ hzero, mem_literals _ hneg⟩

theorem sound_empty {Leaf : ParseTree → Prop} : Sound fold Leaf AtomTable.empty where
  pos := Nat.zero_lt_one
  sentinel := rfl
  formed _ hid := absurd hid.1 (Nat.not_lt.2 (Nat.le_of_lt_succ hid.2))

theorem admitted_empty {Leaf : ParseTree → Prop} :
    Assembly.Admitted fold Leaf Admits AtomTable.empty where
  sound := sound_empty
  lists id hlist := by
    have hid : id < 1 := lt_size_of_get rfl (Atom.ne_sentinel_of_appliesList hlist)
    obtain rfl : id = 0 := Nat.lt_one_iff.1 hid
    cases hlist

theorem assemble_agrees (Admits : ParseTree → Prop) (h : OneZero (literals (prepare tokens))) :
    (Assembly.correspondence fold (IsLeaf tokens) Admits).Outcome (AtomTable.empty, ())
      (Assembly.correspondence fold (IsLeaf tokens) Admits).Rel
      (run (Assembly.algebra fold) (prepare tokens) AtomTable.empty)
      (run (ParseTree.admitting fold Admits) (ofTokens tokens) ()) :=
  run_agrees (Assembly.simulates h.distinct) (fun _ => inv_of_isReciprocal) _
    (expanded_expandReciprocals _) (fun _ => id) admitted_empty

theorem extends_root (t : AtomTable) (root : AtomId) : Extends t { t with root } :=
  ⟨Nat.le_refl _, fun _ _ => rfl⟩

theorem AtomTable.Sound.root {Leaf : ParseTree → Prop} (h : Sound fold Leaf t) (root : AtomId) :
    Sound fold Leaf { t with root } where
  pos := h.pos
  sentinel := h.sentinel
  formed id hid := (h.formed id hid).mono (extends_root t root) (Nat.le_of_lt hid.2)

/-- What is assembled beside a tree that is built stands for it. -/
theorem assemble_admitted (h : OneZero (literals (prepare tokens)))
    (ht : assemble fold (prepare tokens) = .ok t)
    (he : run (ParseTree.admitting fold Admits) (ofTokens tokens) () = .ok (e, ())) :
    Assembly.Admitted fold (IsLeaf tokens) Admits t ∧ Assembly.Stands fold t t.root e := by
  have hagrees := @assemble_agrees _ fold Admits h
  obtain ⟨root, table, hrun, rfl⟩ := assemble_eq_ok.1 ht
  rw [hrun, he] at hagrees
  cases hagrees with
  | ok hext hadmitted hstands =>
    have hadmitted : Assembly.Admitted fold (IsLeaf tokens) Admits table := hadmitted
    have hroot := extends_root table root
    exact ⟨hadmitted.grow hroot (hadmitted.sound.root root) fun _ hid hid' =>
      absurd hid' (Nat.not_lt.2 hid), hstands.mono hroot⟩

/-- What is assembled fits together. -/
theorem assemble_fits (h : OneZero (literals (prepare tokens)))
    (ht : assemble fold (prepare tokens) = .ok t) :
    ∃ e, Derives 7 (ofTokens tokens) e ∧ e.All (ParseTree.Fits fold) := by
  have hagrees := @assemble_agrees _ fold (fun _ => True) h
  obtain ⟨root, table, hrun, rfl⟩ := assemble_eq_ok.1 ht
  rw [hrun] at hagrees
  generalize hy : run (ParseTree.admitting fold fun _ => True) (ofTokens tokens) () = y at hagrees
  cases hagrees with
  | ok =>
    obtain ⟨hderives, hfits⟩ := run_sound (ParseTree.builds_admitting fold _) hy
    exact ⟨_, hderives, fun n hn => (hfits n hn).1⟩
  | pardoned hpardoned => exact absurd (fun _ => trivial) hpardoned

/-- An assembled table stands for a settled tree of the tokens, and its functions of a list for
nodes of the tree. -/
theorem assemble_sound (h : OneZero (literals (prepare tokens)))
    (ht : assemble fold (prepare tokens) = .ok t) :
    ∃ e, Derives 7 (ofTokens tokens) e ∧ e.All (ParseTree.Fits fold) ∧
      Assembly.Admitted fold (IsLeaf tokens) (· ∈ e.nodes) t ∧ Assembly.Stands fold t t.root e := by
  obtain ⟨e, hderives, hfits⟩ := assemble_fits h ht
  have hrun := run_complete (ParseTree.builds_admitting fold (· ∈ e.nodes)) hderives
    fun n hn => ⟨hfits n hn, fun _ _ _ => hn⟩
  exact ⟨e, hderives, hfits, assemble_admitted h ht hrun⟩

/-- What fits together is assembled, unless the table is full. -/
theorem assemble_complete (h : OneZero (literals (prepare tokens)))
    (he : Derives 7 (ofTokens tokens) e) (hfit : e.All (ParseTree.Fits true)) :
    (∃ t, assemble true (prepare tokens) = .ok t) ∨
      assemble true (prepare tokens) = .error (.grammar (.tooManyAtoms limit)) := by
  have hagrees := @assemble_agrees _ true (fun _ => True) h
  have hy : run (ParseTree.admitting true fun _ => True) (ofTokens tokens) () = .ok (e, ()) :=
    run_complete (ParseTree.builds_admitting true _) he fun n hn =>
      ⟨hfit n hn, fun _ _ _ => trivial⟩
  rw [hy] at hagrees
  simp only [assemble, StateT.run, bind, Except.bind]
  generalize run (Assembly.algebra true) (prepare tokens) AtomTable.empty = x at hagrees
  cases hagrees with
  | ok => exact .inl ⟨_, rfl⟩
  | excused hexcused =>
    rcases hexcused with rfl | ⟨hfold, -⟩
    · exact .inr rfl
    · cases hfold

/-- The settled trees of the tokens are all the same. -/
theorem settle_unique (he : Derives 7 (ofTokens tokens) e) (htree : Parses 7 tokens tree) :
    tree.settle false = e := by
  have hsettle := derives_ofTokens.2 ⟨tree, htree, rfl⟩
  exact Yields.unique (run_complete ParseTree.builds_shapes hsettle fun _ _ => trivial)
    (run_complete ParseTree.builds_shapes he fun _ _ => trivial)

/-- A table that is assembled has the names of the tree only. -/
theorem name_mem_of_sound (hsound : Sound fold (IsLeaf tokens) t)
    (he : Derives 7 (ofTokens tokens) e) {id : AtomId} {n : String} (hget : t.get id = .name n) :
    .name n ∈ e.nodes := by
  have hleaf := hsound.formed id (hsound.within_of_get hget nofun)
  rw [hget] at hleaf
  have hname : .name n ∈ leaves (ofTokens tokens ++ []) := by
    rw [List.append_nil]
    exact (expanded_expandReciprocals _).names hleaf
  exact (@Derives.names n _ _ _ he [] nofun hname).resolve_right nofun

/-- An assembled table evaluates to the value of the tree that it stands for. Where that has none
although its names are bound, the evaluation breaks down. -/
theorem evaluate_assembled (h : Assembly.Admitted fold (IsLeaf tokens) (· ∈ e.nodes) t)
    (hstands : Assembly.Stands fold t t.root e) (he : Derives 7 (ofTokens tokens) e)
    (hsquares : e.SquaresPowers bindings) :
    (t.evaluate bindings).toOption = e.value bindings ∧
      ((∀ n, .name n ∈ e.nodes → (bindings n).isSome) → e.value bindings = none →
        t.evaluate bindings = .error (.breakdown .noSegment)) := by
  have hback := h.sound.backward
  have hroot := hstands.operand.within.2
  obtain ⟨f, hf⟩ := exists_valuation hback bindings
  have hvalue := hstands.value t bindings f (.refl t) hf hsquares
  cases hx : e.value bindings with
  | some x =>
    -- then every node of the tree has a value, so no name and no function of a list is without one
    have hall : ∀ id < t.size, (f id).isSome := by
      refine hf.isSome hback le_rfl (fun id _ n hget => ?_) fun id _ hlist => ?_
      · obtain ⟨y, hy⟩ := ParseTree.value_of_mem (name_mem_of_sound h.sound he hget) hx
        exact Option.isSome_iff_exists.2 ⟨y, hy⟩
      · obtain ⟨l, hl, hlstands⟩ := h.lists id hlist
        rw [hlstands.value t bindings f (.refl t) hf (hsquares.mono (ParseTree.nodes_subset hl))]
        exact Option.isSome_iff_exists.2 (ParseTree.value_of_mem hl hx)
    obtain ⟨y, hy, hrun⟩ := hf.evaluate_ok hback hroot hall
    rw [hvalue, hx] at hy
    rw [hrun, hy]
    exact ⟨rfl, nofun⟩
  | none =>
    rcases hf.evaluate_eq hback hroot with ⟨y, hy, -⟩ | ⟨id, hid, hnone, hbefore, hrun⟩
    · rw [hvalue, hx] at hy
      cases hy
    · refine ⟨by rw [hrun]; rfl, fun hnames _ => ?_⟩
      rcases hf.first_cases hback hid hnone hbefore with
        ⟨n, hget, hn⟩ | ⟨op, a, b, folded, isBoolean, args, hget, -⟩
      · have hbound := hnames n (name_mem_of_sound h.sound he hget)
        rw [hn] at hbound
        cases hbound
      · rw [hrun, hget]
        rfl

/-- A compiled expression evaluates to the value of every parse tree of its tokens, and there is
one. Where the tree has none although its names are bound, the evaluation breaks down. -/
theorem evaluate_compile (hcompile : compile text settings = .ok t)
    (hzero : OneZero (literalsOf text settings)) :
    ∃ tokens, tokenize text settings = .ok tokens ∧ (∃ tree, Parses 7 tokens tree) ∧
      ∀ tree, Parses 7 tokens tree → ∀ bindings, tree.SquaresPowers bindings →
        (t.evaluate bindings).toOption = tree.value bindings ∧
          ((∀ n, .name n ∈ tree.nodes → (bindings n).isSome) → tree.value bindings = none →
            t.evaluate bindings = .error (.breakdown .noSegment)) := by
  obtain ⟨items, t', hitems, hassemble, rfl⟩ := compile_eq_ok.1 hcompile
  obtain ⟨tokens, htokens, -, rfl, -⟩ := itemsOf_eq_ok.1 hitems
  rw [literalsOf, hitems] at hzero
  obtain ⟨e, he, -, hadmitted, hstands⟩ := assemble_sound hzero hassemble
  obtain ⟨tree, htree, -⟩ := derives_ofTokens.1 he
  refine ⟨tokens, htokens, ⟨tree, htree⟩, fun tree htree bindings hsquares => ?_⟩
  obtain rfl := settle_unique he htree
  have hvalue : (tree.settle false).value bindings = tree.value bindings :=
    ParseTree.value_settle bindings false tree
  have hassembled := evaluate_assembled hadmitted hstands he hsquares.settle
  simp only [ParseTree.name_mem_settle, hvalue] at hassembled
  rwa [evaluate_optimize hadmitted.sound hstands.operand.within.2]

theorem evaluate_compile_difference : ∃ t, compile "-(a-1)" {} = .ok t ∧
    t.evaluate (fun _ => some 3) = .ok (-(3 - 1)) := by
  have hok : (compile "-(a-1)" {}).isOk = true := by decide +kernel
  have hread : (tokenize "-(a-1)" {}).toOption = some
      [⟨0, .symbol .minus, 1⟩, ⟨1, .symbol .opening, 2⟩, ⟨2, .name "a", 3⟩, ⟨3, .symbol .minus, 4⟩,
        ⟨4, .number 1, 5⟩, ⟨5, .symbol .closing, 6⟩] := by
    decide +kernel
  cases hcompile : compile "-(a-1)" {} with
  | error f =>
    rw [hcompile] at hok
    cases hok
  | ok t =>
    obtain ⟨tokens, htokens, -, hvalue⟩ := evaluate_compile hcompile (by decide +kernel)
    rw [htokens] at hread
    cases hread
    have difference : Parses 3
        ([⟨2, .name "a", 3⟩] ++ ⟨3, .symbol .minus, 4⟩ :: [⟨4, .number 1, 5⟩])
        (.join .sub (.name "a") (.number 1)) :=
      @Parses.join _ _ .sub _ _ _ _ (.up (.up (.up .name))) (.up (.up .number))
    have negated : Parses 0 _ _ :=
      @Parses.sign 0 1 .minus _ _ (@Parses.bracket 1 2 5 6 _ _ (.up (.up (.up (.up difference)))))
    have hevaluate := (hvalue _ (.up (.up (.up (.up (.up (.up (.up negated))))))) (fun _ => some 3)
      (by simp [ParseTree.SquaresPowers, ParseTree.nodes])).1
    refine ⟨t, rfl, ?_⟩
    cases hrun : t.evaluate fun _ => some 3 with
    | error f =>
      rw [hrun] at hevaluate
      cases hevaluate
    | ok x =>
      rw [hrun] at hevaluate
      exact congrArg Except.ok (Option.some.inj hevaluate)

/-- With folding, and while the table has room, a text compiles just when its tokens parse to a
well-typed tree without a divisor that folds to zero: without a constant divisor of value zero,
where squares and constant powers agree. -/
theorem compile_ok_iff (hfold : settings.foldConstants = true)
    (hzero : OneZero (literalsOf text settings))
    (hroom : compile text settings ≠ .error (.grammar (.tooManyAtoms limit))) :
    ((∃ t, compile text settings = .ok t) ↔ ∃ tokens tree, tokenize text settings = .ok tokens ∧
      Parses 7 tokens tree ∧ (∃ k, tree.HasKind k) ∧ tree.FoldsSafely) ∧
    ∀ bindings, (∀ tokens tree, tokenize text settings = .ok tokens → Parses 7 tokens tree →
        tree.SquaresConstants bindings) →
      ((∃ t, compile text settings = .ok t) ↔ ∃ tokens tree, tokenize text settings = .ok tokens ∧
        Parses 7 tokens tree ∧ (∃ k, tree.HasKind k) ∧ tree.DividesSafely) := by
  have hfolds : (∃ t, compile text settings = .ok t) ↔ ∃ tokens tree,
      tokenize text settings = .ok tokens ∧ Parses 7 tokens tree ∧ (∃ k, tree.HasKind k) ∧
        tree.FoldsSafely := by
    constructor
    · rintro ⟨t, ht⟩
      obtain ⟨items, t', hitems, hassemble, rfl⟩ := compile_eq_ok.1 ht
      obtain ⟨tokens, htokens, -, rfl, -⟩ := itemsOf_eq_ok.1 hitems
      rw [literalsOf, hitems] at hzero
      rw [hfold] at hassemble
      obtain ⟨e, he, hfits, -, -⟩ := assemble_sound hzero hassemble
      obtain ⟨tree, htree, rfl⟩ := derives_ofTokens.1 he
      exact ⟨tokens, tree, htokens, htree, ParseTree.fits_settle_fold.1 hfits⟩
    · rintro ⟨tokens, tree, htokens, htree, hfits⟩
      have he := derives_ofTokens.2 ⟨tree, htree, rfl⟩
      have hitems : itemsOf text settings = .ok (prepare tokens) :=
        itemsOf_eq_ok.2 ⟨tokens, htokens, Parses.ne_nil htree, rfl, he.checkBrackets⟩
      rw [literalsOf, hitems] at hzero
      rcases assemble_complete hzero he (ParseTree.fits_settle_fold.2 hfits) with ⟨t, ht⟩ | hfull
      · exact ⟨_, compile_eq_ok.2 ⟨_, t, hitems, hfold ▸ ht, rfl⟩⟩
      · refine absurd ?_ hroom
        simp [compile, hitems, hfold, hfull, bind, Except.bind]
  refine ⟨hfolds, fun bindings hsquares => hfolds.trans ?_⟩
  refine exists_congr fun tokens => exists_congr fun tree => ?_
  exact and_congr_right fun htokens => and_congr_right fun htree => and_congr_right fun _ =>
    ParseTree.foldsSafely_iff (hsquares tokens tree htokens htree)

theorem compile_ok_iff_ratio : ∃ tokens tree, tokenize "ratio(a,1,2)/(3-2)" {} = .ok tokens ∧
    Parses 7 tokens tree ∧ (∃ k, tree.HasKind k) ∧ tree.FoldsSafely := by
  have hok : (compile "ratio(a,1,2)/(3-2)" {}).isOk = true := by decide +kernel
  cases hcompile : compile "ratio(a,1,2)/(3-2)" {} with
  | error f =>
    rw [hcompile] at hok
    cases hok
  | ok t =>
    have hroom : compile "ratio(a,1,2)/(3-2)" {} ≠ .error (.grammar (.tooManyAtoms limit)) := by
      rw [hcompile]
      nofun
    exact (compile_ok_iff rfl (by decide +kernel) hroom).1.1 ⟨t, hcompile⟩

end Behavioral
