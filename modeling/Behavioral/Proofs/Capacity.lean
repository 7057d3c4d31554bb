import Behavioral.Proofs.Building
import Behavioral.Proofs.Compiling

/-!
# How many atoms a text takes

Every token has a character of its own (`length_read_le`), settling signs and replacing reciprocals
adds no items (`length_prepare_le`), and an item takes one atom at most (`costs_run`): a literal or
a name when it is read, an operator, a comma or the name of a function when it is reduced. A text
is therefore too large only if it has as many characters as a table has places (`compile_full`).
-/

namespace Behavioral

open AtomTable

variable {text : String} {settings : Settings} {tokens : Tokens} {t : AtomTable} {fold : Bool}

/-! ### Tokens -/

namespace Scan

theorem length_nodeName_lt {start : Nat} {c : Cursor} {n : Spanned String} {after : Cursor}
    (h : nodeName start c = .ok (n, after)) : after.rest.length < c.rest.length := by
  unfold nodeName at h
  simp only at h
  split at h
  · cases h
  · rename_i hname
    cases h
    have hskip := Cursor.length_rest_skipRun_le isBlank c
    have hafter :=
      Cursor.length_rest_skipRun_le isBlank ((c.skipRun isBlank).takeRun continuesName).2
    have htake : ((c.skipRun isBlank).rest.takeWhile continuesName).length +
        ((c.skipRun isBlank).rest.dropWhile continuesName).length =
          (c.skipRun isBlank).rest.length := by
      rw [← List.length_append, List.takeWhile_append_dropWhile]
    have hpos : 0 < ((c.skipRun isBlank).rest.takeWhile continuesName).length :=
      List.length_pos_iff.2 fun hnil => hname (by rw [Cursor.takeRun, hnil]; rfl)
    simp only [Cursor.takeRun] at hafter ⊢
    omega

theorem length_advance_one {c : Cursor} {d : Char} {ds : List Char} (h : c.rest = d :: ds) :
    (c.advance 1).rest.length + 1 = c.rest.length := by
  rw [Cursor.rest_advance, h]
  rfl

/-- The five tokens of a difference have four characters behind the bracket. -/
theorem length_shorthand_others {start : Nat} {v : Bool} {c : Cursor} {found : Lexeme}
    (h : shorthand start v c = .ok found) :
    found.others.length + found.next.rest.length ≤ c.rest.length := by
  unfold shorthand at h
  simp only [bind, Except.bind] at h
  split at h
  · cases h
  · rename_i a ha
    have hinner := Cursor.length_rest_advance_le c 1
    have hafterA := length_nodeName_lt ha
    split at h
    · cases h
      have hnext := Cursor.length_rest_advance_le a.2 1
      simp only [single, List.length_nil]
      omega
    · rename_i hcomma
      have hafterComma := length_advance_one hcomma
      split at h
      · split at h
        · cases h
        · rename_i b hb
          have hafterB := length_nodeName_lt hb
          split at h
          · rename_i hclosing
            have hnext := length_advance_one hclosing
            cases h
            simp only [List.length_cons, List.length_nil]
            omega
          · cases h
      · cases h
    · cases h

theorem length_lexeme_others {ambient : Float} {c : Cursor} {d : Char} {ds : List Char}
    {found : Lexeme} (hc : c.rest = d :: ds) (h : lexeme ambient c d = .ok found) :
    found.others.length + found.next.rest.length < c.rest.length := by
  have hlt := length_next_lt hc h
  have single_others (h : found.others = []) :
      found.others.length + found.next.rest.length < c.rest.length := by
    rw [h, List.length_nil, Nat.zero_add]
    exact hlt
  unfold lexeme at h
  split at h
  · cases h
    exact single_others rfl
  · split at h
    · cases h
    · split at h
      · cases h
      · split at h
        · refine single_others ?_
          unfold number at h
          simp only at h
          split at h
          · cases h
          · split at h
            · split at h <;> cases h
              rfl
            · cases h
              rfl
        · split at h
          · rename_i hd
            have htake := Cursor.length_rest_takeRun_lt hc (continuesName_of_startsName hd)
            unfold word at h
            simp only at h
            split at h
            · exact (length_shorthand_others h).trans_lt htake
            · exact (length_shorthand_others h).trans_lt htake
            · refine single_others ?_
              split at h <;> cases h <;> rfl
          · cases h

end Scan

/-- A text has at most as many tokens as characters. -/
theorem length_read_le (ambient : Float) (c : Cursor) :
    (Scanner.read ambient c).1.length ≤ c.rest.length := by
  fun_induction Scanner.read ambient c with
  | case1 => exact Nat.zero_le _
  | case2 => exact Nat.zero_le _
  | case3 c d ds hc found hl tokens fault hrest ih =>
    have hlexeme := Scan.length_lexeme_others hc hl
    have hskip := Cursor.length_rest_skipRun_le isBlank c
    rw [hrest] at ih
    simp only [List.length_cons, List.length_append, List.cons_append] at ih ⊢
    omega

theorem length_tokenize_le (h : tokenize text settings = .ok tokens) :
    tokens.length ≤ text.length := by
  have hread := length_read_le settings.ambientTemperature (Cursor.ofString text)
  unfold tokenize at h
  split at h
  · rename_i hok
    cases h
    rw [hok] at hread
    rwa [Cursor.ofString, String.length_toList] at hread
  · cases h

/-! ### Items -/

namespace Item

theorem length_settle_le (leading : Bool) (minus : Option (Spanned Unit)) (tokens : Tokens) :
    (settle leading minus tokens).length ≤ (negation minus).length + tokens.length := by
  fun_induction settle leading minus tokens <;>
    simp_all only [List.length_cons, List.length_append, negation, List.length_nil] <;> omega

theorem length_expandReciprocals_le (items : Items) :
    (expandReciprocals items).length ≤ items.length := by
  fun_induction expandReciprocals items <;> simp only [List.length_cons, List.length_nil] at * <;>
    omega

end Item

theorem length_prepare_le (tokens : Tokens) : (prepare tokens).length ≤ tokens.length := by
  have hsettle := Item.length_settle_le true none tokens
  have hexpand := Item.length_expandReciprocals_le (Item.ofTokens tokens)
  simp only [Item.negation, List.length_nil, Nat.zero_add] at hsettle
  exact hexpand.trans hsettle

/-! ### Atoms -/

/-- The step adds at most `n` atoms less what its result leaves over, and finds the table full only
where `n` more do not fit. -/
def Costs {α : Type} (left : α → Nat) (x : Build AtomTable α) (n : Nat) : Prop :=
  ∀ t, (∀ a t', x t = .ok (a, t') → t'.size + left a ≤ t.size + n) ∧
    (x t = .error (.grammar (.tooManyAtoms limit)) → limit < t.size + n)

section Costs

variable {α β : Type} {left : α → Nat} {left' : β → Nat} {x : Build AtomTable α} {n m k : Nat}

theorem costs_pure {a : α} (h : left a ≤ n) : Costs left (pure a) n := by
  refine fun t => ⟨fun a' t' ha => ?_, nofun⟩
  cases ha
  exact Nat.add_le_add_left h _

theorem costs_throw {fault : Fault} (h : fault ≠ .grammar (.tooManyAtoms limit)) :
    Costs left (throw fault) n :=
  fun _ => ⟨nofun, fun hfull => absurd (Except.error.inj hfull) h⟩

theorem costs_get : Costs (fun _ => n) (get : Build AtomTable AtomTable) n := by
  refine fun t => ⟨fun a t' h => ?_, nofun⟩
  cases h
  exact le_rfl

/-- A step leaves to the next one what it has left over and `k` more. -/
theorem Costs.bind {f : α → Build AtomTable β} (k : Nat) (hx : Costs left x n)
    (hf : ∀ a, Costs left' (f a) (left a + k)) (hm : n + k ≤ m) : Costs left' (x >>= f) m := by
  intro t
  obtain ⟨hok, hfull⟩ := hx t
  have hrun : (x >>= f) t = (x t).bind fun r => f r.1 r.2 := rfl
  rw [hrun]
  rcases hxt : x t with fault | ⟨a, t₁⟩
  · refine ⟨nofun, fun h => ?_⟩
    have hlt := hfull (hxt.trans (congrArg _ (Except.error.inj h)))
    omega
  · have hle := hok a t₁ hxt
    refine ⟨fun b t₂ hb => ?_, fun hb => ?_⟩
    · have hle' := (hf a t₁).1 b t₂ hb
      omega
    · have hlt := (hf a t₁).2 hb
      omega

theorem Costs.le (hx : Costs left x n) (hn : n ≤ m) : Costs left x m :=
  fun t => ⟨fun a t' h => ((hx t).1 a t' h).trans (Nat.add_le_add_left hn _),
    fun h => ((hx t).2 h).trans_le (Nat.add_le_add_left hn _)⟩

theorem Costs.map {f : α → β} (hx : Costs left x n) (hf : ∀ a, left' (f a) ≤ left a) :
    Costs left' (f <$> x) n := by
  rw [← bind_pure_comp]
  exact hx.bind 0 (fun a => costs_pure (hf a)) le_rfl

theorem costs_foldlM {f : α → β → Build AtomTable α} (hf : ∀ a b, Costs left (f a b) (left a)) :
    ∀ (bs : List β) (a : α), Costs left (bs.foldlM f a) (left a)
  | [], _ => costs_pure le_rfl
  | b :: bs, a => (hf a b).bind 0 (fun a' => costs_foldlM hf bs a') le_rfl

end Costs

namespace Assembly

theorem costs_addAtom (atom : Atom) : Costs (fun _ => 0) (addAtom atom) 1 := by
  intro t
  unfold addAtom intern
  split
  · refine ⟨fun id t' h => ?_, nofun⟩
    cases h
    exact Nat.le_succ _
  · split
    · refine ⟨fun id t' h => ?_, nofun⟩
      cases h
      exact size_push.le
    · rename_i hfull
      exact ⟨nofun, fun _ => by omega⟩

theorem costs_atomAt {n : Nat} (id : AtomId) : Costs (fun _ => n) (atomAt id) n :=
  costs_get.bind 0 (fun _ => costs_pure le_rfl) le_rfl

theorem costs_applyOp (op : Op) (a : AtomId) (b : Option AtomId) (isBoolean : Bool) :
    Costs (fun _ => 0) (applyOp fold op a b isBoolean) 1 :=
  costs_get.bind 0 (fun _ => costs_addAtom _) le_rfl

theorem costs_applyLead (op : LeadOp) (a : AtomId) (start : Nat) :
    Costs (fun _ => 0) (applyLead fold op a start) 1 := by
  intro t
  rw [applyLead_eq]
  split
  · cases operandOf? op.unary (t.get a) with
    | some inner => exact costs_pure (a := inner) (Nat.zero_le _) t
    | none => exact costs_applyOp _ _ _ _ t
  · exact costs_throw (by cases op <;> simp [leadFault]) t

theorem costs_applyJoin (op : BinaryOp) (a b : AtomId) (start : Nat) :
    Costs (fun _ => 0) (applyJoin fold op a b start) 1 := by
  refine (costs_atomAt a).bind 0 (fun left => ?_) le_rfl
  refine (costs_atomAt b).bind 0 (fun right => ?_) le_rfl
  split
  · exact costs_throw (by simp)
  · split
    · exact costs_applyOp _ _ _ _
    · split
      · exact costs_throw (by simp)
      · exact costs_applyOp _ _ _ _

theorem costs_applyCall (op : UnaryOp) (name : String) (a : AtomId) (start : Nat) :
    Costs (fun _ => 0) (applyCall fold op name a start) 1 := by
  refine (costs_atomAt a).bind 0 (fun atom => ?_) le_rfl
  split
  · exact costs_throw (by simp)
  · exact costs_applyOp _ _ _ _

theorem costs_addChain : ∀ as : List AtomId, Costs (fun _ => 0) (addChain as) (as.length - 1)
  | [] => costs_pure le_rfl
  | [_] => costs_pure le_rfl
  | _ :: b :: as => (costs_addChain (b :: as)).bind 1 (fun _ => costs_addAtom _) le_rfl

theorem costs_applyList (op : ListOp) (name : String) (as : List AtomId) (start : Nat) :
    Costs (fun _ => 0) (applyList op name as start) as.length := by
  refine costs_get.bind 0 (fun table => ?_) le_rfl
  split
  · exact costs_throw (by simp)
  · split
    · exact costs_pure le_rfl
    · rename_i first rest _
      refine (costs_addChain rest).bind 1 (fun _ => costs_addAtom _) ?_
      rw [List.length_cons]
      omega

end Assembly

/-- An operator or a comma takes one atom at most. -/
def Part.weight {α : Type} : Part α → Nat
  | .operand _ => 0
  | _ => 1

/-- A call takes one atom for the name of its function. -/
def called (callee : Option (Spanned String)) : Nat :=
  callee.toList.length

def Piece.weight {α : Type} : Piece α → Nat
  | .part p => p.weight
  | .opening callee => called callee
  | .closing => 0

namespace Reduction

variable {α : Type} {parts : List (Spanned (Part α))}

def weight (parts : List (Spanned (Part α))) : Nat :=
  (parts.map (·.value.weight)).sum

def pieceWeight (ps : List (Spanned (Piece α))) : Nat :=
  (ps.map (·.value.weight)).sum

theorem pieceWeight_cons (p : Spanned (Piece α)) (ps : List (Spanned (Piece α))) :
    pieceWeight (p :: ps) = p.value.weight + pieceWeight ps :=
  rfl

theorem weight_cons (p : Spanned (Part α)) : weight (p :: parts) = p.value.weight + weight parts :=
  rfl

theorem weight_nil : weight ([] : List (Spanned (Part α))) = 0 :=
  rfl

theorem weight_reverse : weight parts.reverse = weight parts := by
  rw [weight, weight, List.map_reverse, List.sum_reverse]

theorem costs_applyLeads : ∀ parts : List (Spanned (Part AtomId)),
    Costs weight (applyLeads (Assembly.algebra fold) parts) (weight parts)
  | [] => costs_pure le_rfl
  | ⟨start, .lead op, _⟩ :: parts => by
    refine (costs_applyLeads parts).bind 1 (fun ps => ?_) (Nat.add_comm ..).le
    split
    · rename_i after
      refine (Assembly.costs_applyLead op _ start).bind (weight after) (fun b => costs_pure ?_) ?_
      all_goals simp only [weight_cons, Part.weight]; omega
    · exact costs_throw (by simp)
  | ⟨_, .operand _, _⟩ :: parts | ⟨_, .join _, _⟩ :: parts | ⟨_, .comma, _⟩ :: parts => by
    refine (costs_applyLeads parts).bind _ (fun ps => costs_pure ?_) (Nat.add_comm ..).le
    rw [weight_cons, Nat.add_comm]

theorem costs_applyLevel (level : Nat) (passed parts : List (Spanned (Part AtomId))) :
    Costs weight (applyLevel (Assembly.algebra fold) level passed parts)
      (weight passed + weight parts) := by
  fun_induction applyLevel (Assembly.algebra fold) level passed parts with
  | case1 passed => exact costs_pure (by rw [weight_reverse]; exact Nat.le_add_right ..)
  | case2 start op stop hop first a _ before _ b last after ih =>
    refine (Assembly.costs_applyJoin op a b start).bind (weight before + weight after) (fun c => ?_)
      (by simp only [weight_cons, Part.weight]; omega)
    have hc := ih c
    simpa only [weight_cons, Part.weight, Nat.zero_add] using hc
  | case3 => exact costs_throw (by simp)
  | case4 passed start op stop rest hop ih =>
    rwa [weight_cons, Nat.add_assoc, Nat.add_left_comm] at ih
  | case5 passed p rest hne ih =>
    rwa [weight_cons, Nat.add_assoc, Nat.add_left_comm] at ih

theorem costs_segment (start : Nat) (parts : List (Spanned (Part AtomId))) :
    Costs (fun _ => 0) (segment (Assembly.algebra fold) start parts) (weight parts) := by
  unfold segment
  split
  · exact costs_throw (by simp)
  · refine (costs_applyLeads parts).bind 0 (fun ps => ?_) le_rfl
    refine (costs_foldlM (fun ps level => ?_) levels ps).bind 0 (fun qs => ?_) le_rfl
    · have hlevel := @costs_applyLevel fold level [] ps
      rwa [weight_nil, Nat.zero_add] at hlevel
    · split
      · exact costs_pure (Nat.zero_le _)
      · exact costs_throw (by simp)
      · exact costs_throw (by simp)

/-- The commas between the runs are left over. -/
theorem costs_segments (start : Nat) (run parts : List (Spanned (Part AtomId))) :
    Costs (fun as => as.length - 1) (segments (Assembly.algebra fold) start run parts)
      (weight run + weight parts) := by
  fun_induction segments (Assembly.algebra fold) start run parts with
  | case1 start run =>
    refine (costs_segment start run.reverse).bind 0 (fun a => costs_pure le_rfl) ?_
    rw [weight_reverse]
    exact Nat.le_add_right ..
  | case2 start run _ stop rest ih =>
    refine (costs_segment start run.reverse).bind (1 + weight rest) (fun a => ?_)
      (by rw [weight_reverse]; exact le_rfl)
    refine ih.bind 1 (fun as => costs_pure ?_) ?_
    · simp only [List.length_cons]
      omega
    · rw [weight_nil]
      omega
  | case3 start run p rest hne ih => rwa [weight_cons, Nat.add_assoc, Nat.add_left_comm] at ih

theorem costs_bracket (callee : Option (Spanned String)) (start : Nat) (as : List AtomId) :
    Costs (fun _ => 0) (bracket (Assembly.algebra fold) callee start as)
      (called callee + (as.length - 1)) := by
  unfold bracket
  split
  · split
    · exact costs_pure (Nat.zero_le _)
    · split
      · exact Assembly.costs_applyCall _ _ _ _
      · exact costs_throw (by simp)
  · split
    · exact costs_throw (by simp)
    · split
      · exact costs_throw (by simp)
      · split
        · exact costs_throw (by simp)
        · split
          · refine (Assembly.costs_applyList _ _ as start).le ?_
            simp only [called, Option.toList_some, List.length_singleton]
            omega
          · exact costs_throw (by simp)

/-- What the open brackets take when they close, with what stands in front of them. -/
def frameWeight (outer : List (Frame α)) : Nat :=
  (outer.map fun f => called f.callee + weight f.before).sum

theorem frameWeight_cons (f : Frame α) (outer : List (Frame α)) :
    frameWeight (f :: outer) = called f.callee + weight f.before + frameWeight outer :=
  rfl

theorem costs_reduce (outer : List (Frame AtomId)) (inner : List (Spanned (Part AtomId)))
    (ps : List (Spanned (Piece AtomId))) :
    Costs (fun _ => 0) (reduce (Assembly.algebra fold) outer inner ps)
      (frameWeight outer + weight inner + pieceWeight ps) := by
  fun_induction reduce (Assembly.algebra fold) outer inner ps with
  | case1 => exact costs_throw (by simp)
  | case2 inner hne =>
    refine (costs_segments 0 [] inner.reverse).bind 0 (fun as => ?_) ?_
    · split
      · exact costs_pure (Nat.zero_le _)
      · exact costs_throw (by simp)
    · rw [weight_reverse, weight_nil]
      omega
  | case3 f outer inner => exact costs_throw (by simp)
  | case4 outer inner start callee stop rest ih =>
    refine ih.le ?_
    simp only [frameWeight_cons, pieceWeight_cons, Piece.weight, weight_nil]
    omega
  | case5 inner start stop rest => exact costs_throw (by simp)
  | case6 f outer inner start stop rest hne => exact costs_throw (by simp)
  | case7 f outer inner start stop rest hne ih =>
    refine (costs_segments f.start [] inner.reverse).bind
      (frameWeight (f :: outer) + pieceWeight rest) (fun as => ?_) ?_
    · refine (costs_bracket f.callee f.start as).bind
        (frameWeight outer + weight f.before + pieceWeight rest) (fun a => ?_) ?_
      · have ha := ih a
        simpa only [weight_cons, Part.weight, Nat.zero_add] using ha
      · rw [frameWeight_cons]
        omega
    · simp only [weight_reverse, weight_nil, pieceWeight_cons, Piece.weight]
      omega
  | case8 outer inner start p stop rest ih =>
    refine ih.le ?_
    simp only [weight_cons, pieceWeight_cons, Piece.weight]
    omega

/-- A literal or a name takes an atom when it is read, and any other item one at most when it is
reduced. -/
theorem costs_pieces {alg : Algebra AtomTable AtomId}
    (hnumber : ∀ x, Costs (fun _ => 0) (alg.number x) 1)
    (hname : ∀ n, Costs (fun _ => 0) (alg.name n) 1) (items : Items) :
    Costs pieceWeight (pieces alg items) items.length := by
  fun_induction spell items with
  | case1 => exact costs_pure le_rfl
  | case2 start f stop openStart openStop rest ih =>
    rw [pieces]
    refine ih.bind 1 (fun ps => costs_pure ?_) (Nat.le_succ _)
    rw [pieceWeight_cons, Nat.add_comm]
    exact le_rfl
  | case3 start item stop rest hcall ih =>
    have behind {piece : Build AtomTable (Piece AtomId)} (hpiece : Costs Piece.weight piece 1) :
        Costs pieceWeight (piece >>= fun p => pieces alg rest >>= fun ps =>
          pure (⟨start, p, stop⟩ :: ps)) (rest.length + 1) := by
      refine hpiece.bind rest.length (fun p => ?_) (Nat.add_comm ..).le
      refine ih.bind p.weight (fun ps => costs_pure ?_) (Nat.add_comm ..).le
      rw [pieceWeight_cons, Nat.add_comm]
    cases item with
    | number x => exact behind ((hnumber x).map fun _ => le_rfl)
    | name n =>
      rw [pieces]
      · exact behind ((hname n).map fun _ => le_rfl)
      · exact hcall
    | lead | join | comma => exact behind (costs_pure le_rfl)
    | opening | closing => exact behind (costs_pure (Nat.zero_le _))

theorem costs_run {alg : Algebra AtomTable AtomId}
    (hnumber : ∀ x, Costs (fun _ => 0) (alg.number x) 1)
    (hname : ∀ n, Costs (fun _ => 0) (alg.name n) 1)
    (hreduce : ∀ ps, reduce alg [] [] ps = reduce (Assembly.algebra fold) [] [] ps)
    (items : Items) : Costs (fun _ => 0) (run alg items) items.length := by
  refine (costs_pieces hnumber hname items).bind 0 (fun ps => ?_) le_rfl
  have hcosts := @costs_reduce fold [] [] ps
  rw [hreduce, Nat.add_zero]
  simpa only [frameWeight, weight, List.map_nil, List.sum_nil, Nat.zero_add] using hcosts

end Reduction

theorem Item.checkFrom_ne_full (depth last : Nat) (items : Items) :
    checkFrom depth last items ≠ .error (.grammar (.tooManyAtoms limit)) := by
  fun_induction checkFrom depth last items <;> first | assumption | simp

theorem itemsOf_ne_full : itemsOf text settings ≠ .error (.grammar (.tooManyAtoms limit)) := by
  intro h
  simp only [itemsOf, bind, Except.bind] at h
  split at h
  · rename_i fault htokens
    unfold tokenize at htokens
    split at htokens <;> cases htokens
    cases h
  · split at h
    · cases h
    · split at h
      · rename_i fault hcheck
        cases h
        exact Item.checkFrom_ne_full _ _ _ hcheck
      · cases h

theorem length_itemsOf_le {items : Items} (h : itemsOf text settings = .ok items) :
    items.length ≤ text.length := by
  obtain ⟨tokens, htokens, -, rfl, -⟩ := itemsOf_eq_ok.1 h
  exact (length_prepare_le tokens).trans (length_tokenize_le htokens)

theorem run_full {alg : Algebra AtomTable AtomId} {items : Items}
    (hcosts : Costs (fun _ => 0) (Reduction.run alg items) items.length)
    (h : Reduction.run alg items AtomTable.empty = .error (.grammar (.tooManyAtoms limit))) :
    limit ≤ items.length := by
  have hsize : AtomTable.empty.size = 1 := rfl
  have hlt := (hcosts AtomTable.empty).2 h
  omega

theorem assemble_full {items : Items}
    (h : assemble fold items = .error (.grammar (.tooManyAtoms limit))) :
    limit ≤ items.length := by
  simp only [assemble, StateT.run, bind, Except.bind] at h
  split at h
  · rename_i fault hrun
    cases h
    exact run_full (Reduction.costs_run (fun _ => Assembly.costs_addAtom _)
      (fun _ => Assembly.costs_addAtom _) (fun _ => rfl) items) hrun
  · cases h

/-- A text that is too large has as many characters as a table has places. -/
theorem compile_full (h : compile text settings = .error (.grammar (.tooManyAtoms limit))) :
    limit ≤ text.length := by
  simp only [compile, bind, Except.bind] at h
  split at h
  · rename_i fault hitems
    cases h
    exact absurd hitems itemsOf_ne_full
  · rename_i items hitems
    split at h
    · rename_i fault hassemble
      cases h
      exact (assemble_full hassemble).trans (length_itemsOf_le hitems)
    · cases h

end Behavioral
