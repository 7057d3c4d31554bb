import Behavioral.Proofs.ReductionSound

/-!
# What a reduction accepts

The parts of a run are a phrase, whose operators are applied level by level: `Flat` is such a phrase
with its leading operators still there, and `Run j` one in which all operators below level `j` have
become operands. One pass over a phrase takes it from `Run j` to `Run (j + 1)`, whatever stands
around it (`applyLevel_complete`), so seven passes leave a single operand. A bracket is then
replaced by its operand while the rest of the text waits (`reduce_complete`), and every derivable
text whose nodes fit reduces to its tree (`run_complete`).
-/

namespace Behavioral.Reduction

open ParseTree

variable {alg : Algebra Unit ParseTree} {Fit : ParseTree → Prop}

/-- The parts are a phrase of the level. -/
inductive Flat : Nat → Parts → ParseTree → Prop
  | operand {s t : Nat} {a : ParseTree} : Flat 0 [⟨s, .operand a, t⟩] a
  | lead {s t : Nat} {op : LeadOp} {ps : Parts} {a : ParseTree} : Flat 0 ps a →
      Flat 0 (⟨s, .lead op, t⟩ :: ps) (op.tree a)
  | up {k : Nat} {ps : Parts} {a : ParseTree} : Flat k ps a → Flat (k + 1) ps a
  | join {s t : Nat} {op : BinaryOp} {ps qs : Parts} {a b : ParseTree} : Flat (op.level + 1) ps a →
      Flat op.level qs b → Flat (op.level + 1) (ps ++ ⟨s, .join op, t⟩ :: qs) (.join op a b)

/-- The parts are a phrase of the level that needs no operators below level `j`. -/
inductive Run (j : Nat) : Nat → Parts → ParseTree → Prop
  | operand {s t : Nat} {a : ParseTree} : Run j j [⟨s, .operand a, t⟩] a
  | up {k : Nat} {ps : Parts} {a : ParseTree} : Run j k ps a → Run j (k + 1) ps a
  | join {s t : Nat} {op : BinaryOp} {ps qs : Parts} {a b : ParseTree} : Run j (op.level + 1) ps a →
      Run j op.level qs b → Run j (op.level + 1) (ps ++ ⟨s, .join op, t⟩ :: qs) (.join op a b)

theorem Run.le {j : Nat} : ∀ {k : Nat} {ps : Parts} {a : ParseTree}, Run j k ps a → j ≤ k
  | _, _, _, operand => Nat.le_refl _
  | _, _, _, up h => Nat.le_succ_of_le h.le
  | _, _, _, join h _ => h.le

/-- At its own level the phrase is an operand. -/
theorem Run.single {j : Nat} : ∀ {ps : Parts} {a : ParseTree}, Run j j ps a →
    ∃ s t, ps = [⟨s, .operand a, t⟩]
  | _, _, operand => ⟨_, _, rfl⟩
  | _, _, up h => absurd h.le (by omega)
  | _, _, join _ h => absurd h.le (by omega)

theorem applyLeads_complete (build : Builds alg Fit) {k : Nat} {ps : Parts} {a : ParseTree}
    (h : Flat k ps a) : a.All Fit → ∃ qs, Run 0 k qs a ∧ ∀ {rest out : Parts},
      Yields (applyLeads alg rest) out → Yields (applyLeads alg (ps ++ rest)) (qs ++ out) := by
  induction h with
  | @operand s t a =>
    intro _
    exact ⟨[⟨s, .operand a, t⟩], .operand, fun h => by simpa [applyLeads] using h⟩
  | @lead s t op _ a h ih =>
    intro hfit
    obtain ⟨hop, ha⟩ := all_lead.1 hfit
    obtain ⟨qs, hrun, hqs⟩ := ih ha
    obtain ⟨s', t', rfl⟩ := hrun.single
    refine ⟨[⟨s, .operand (op.tree a), t'⟩], .operand, fun hrest => ?_⟩
    simp only [List.cons_append, applyLeads, yields_bind]
    refine ⟨_, hqs hrest, ?_⟩
    simp [build.lead, hop]
  | up h ih =>
    intro hfit
    obtain ⟨qs, hrun, hqs⟩ := ih hfit
    exact ⟨qs, hrun.up, hqs⟩
  | @join s t op _ _ _ _ h h' ih ih' =>
    intro hfit
    obtain ⟨_, ha, hb⟩ := all_join.1 hfit
    obtain ⟨qs, hrun, hqs⟩ := ih ha
    obtain ⟨qs', hrun', hqs'⟩ := ih' hb
    refine ⟨qs ++ ⟨s, .join op, t⟩ :: qs', hrun.join hrun', fun {rest out} hrest => ?_⟩
    simp only [List.append_assoc, List.cons_append]
    refine hqs ?_
    simp only [applyLeads, yields_bind, yields_pure]
    exact ⟨_, hqs' hrest, rfl⟩

theorem applyLevel_skip {j s t : Nat} {op : BinaryOp} (h : op.level ≠ j) (passed rest : Parts) :
    applyLevel alg j passed (⟨s, .join op, t⟩ :: rest) =
      applyLevel alg j (⟨s, .join op, t⟩ :: passed) rest := by
  rw [applyLevel.eq_def]
  simp only [if_neg h]

/-- Applying the operators of a level takes a phrase to one that needs none of them. -/
theorem applyLevel_complete (build : Builds alg Fit) {j k : Nat} {ps : Parts} {a : ParseTree}
    (h : Run j k ps a) : j < k → a.All Fit → ∃ qs, Run (j + 1) k qs a ∧
      ∀ {passed rest out : Parts}, Yields (applyLevel alg j (qs.reverse ++ passed) rest) out →
        Yields (applyLevel alg j passed (ps ++ rest)) out := by
  induction h with
  | operand => exact fun hlt => absurd hlt (Nat.lt_irrefl _)
  | @up k _ a h ih =>
    intro hlt hfit
    rcases Nat.lt_or_eq_of_le (Nat.le_of_lt_succ hlt) with hk | rfl
    · obtain ⟨qs, hrun, hqs⟩ := ih hk hfit
      exact ⟨qs, hrun.up, hqs⟩
    · obtain ⟨s, t, rfl⟩ := h.single
      exact ⟨[⟨s, .operand a, t⟩], .operand, fun h => by simpa [applyLevel] using h⟩
  | @join s t op _ _ a b h h' ih ih' =>
    intro hlt hfit
    obtain ⟨hop, ha, hb⟩ := all_join.1 hfit
    obtain ⟨qs, hrun, hqs⟩ := ih hlt ha
    rcases Nat.lt_or_eq_of_le (Nat.le_of_lt_succ hlt) with hk | rfl
    · obtain ⟨qs', hrun', hqs'⟩ := ih' hk hb
      refine ⟨qs ++ ⟨s, .join op, t⟩ :: qs', hrun.join hrun', fun hrest => ?_⟩
      rw [List.append_assoc]
      refine hqs ?_
      rw [List.cons_append, applyLevel_skip (by omega)]
      exact hqs' (by simpa using hrest)
    · obtain ⟨s', t', rfl⟩ := h'.single
      obtain ⟨first, stop, rfl⟩ := hrun.single
      refine ⟨[⟨first, .operand (.join op a b), t'⟩], .operand, fun hrest => ?_⟩
      rw [List.append_assoc]
      refine hqs ?_
      simp only [List.reverse_cons, List.reverse_nil, List.nil_append, List.cons_append, applyLevel,
        if_true, yields_bind]
      exact ⟨_, (build.join ..).2 ⟨hop, rfl⟩, by simpa using hrest⟩

theorem levels_complete (build : Builds alg Fit) :
    ∀ (n j : Nat) {ps : Parts} {a : ParseTree}, Run j (j + n) ps a → a.All Fit → ∃ s t,
      Yields ((List.range' j n).foldlM (fun ps level => applyLevel alg level [] ps) ps)
        [⟨s, .operand a, t⟩]
  | 0, j, ps, a, h, _ => by
    obtain ⟨s, t, rfl⟩ := h.single
    exact ⟨s, t, by simp⟩
  | n + 1, j, ps, a, h, hfit => by
    obtain ⟨qs, hrun, hqs⟩ := applyLevel_complete build h (by omega) hfit
    obtain ⟨s, t, hrest⟩ := levels_complete build n (j + 1) (Nat.add_right_comm j n 1 ▸ hrun) hfit
    have hpass : Yields (applyLevel alg j [] ps) qs := by
      simpa using @hqs [] [] qs (by simp [applyLevel])
    simp only [List.range'_succ, List.foldlM_cons, yields_bind]
    exact ⟨s, t, qs, hpass, hrest⟩

theorem Flat.ne_nil : ∀ {k : Nat} {ps : Parts} {a : ParseTree}, Flat k ps a → ps ≠ []
  | _, _, _, operand => nofun
  | _, _, _, lead _ => nofun
  | _, _, _, up h => h.ne_nil
  | _, _, _, join _ _ => by simp

theorem segment_complete (build : Builds alg Fit) {start : Nat} {ps : Parts} {a : ParseTree}
    (h : Flat 7 ps a) (hfit : a.All Fit) : Yields (segment alg start ps) a := by
  obtain ⟨qs, hrun, hqs⟩ := applyLeads_complete build h hfit
  obtain ⟨s, t, hlevels⟩ := levels_complete build 7 0 hrun hfit
  have hleads : Yields (applyLeads alg ps) qs := by
    simpa using @hqs [] [] (by simp [applyLeads])
  unfold segment
  split
  · exact absurd rfl h.ne_nil
  · simp only [yields_bind]
    exact ⟨qs, hleads, _, hlevels, by simp⟩

/-- The parts are phrases between commas. -/
inductive FlatList : Parts → List ParseTree → Prop
  | last {ps : Parts} {a : ParseTree} : Flat 7 ps a → FlatList ps [a]
  | more {s t : Nat} {ps qs : Parts} {a : ParseTree} {rest : List ParseTree} : Flat 7 ps a →
      FlatList qs rest → FlatList (ps ++ ⟨s, .comma, t⟩ :: qs) (a :: rest)

theorem segments_skip {k : Nat} {ps : Parts} {a : ParseTree} (h : Flat k ps a) (start : Nat)
    (run rest : Parts) :
    segments alg start run (ps ++ rest) = segments alg start (ps.reverse ++ run) rest := by
  induction h generalizing run rest with
  | operand => rfl
  | lead h ih =>
    rw [List.cons_append, segments, ih]
    · simp
    · simp
  | up h ih => exact ih run rest
  | join h h' ih ih' =>
    rw [List.append_assoc, ih, List.cons_append, segments, ih']
    · simp
    · simp

theorem segments_complete (build : Builds alg Fit) {ps : Parts} {args : List ParseTree}
    (h : FlatList ps args) (start : Nat) :
    (∀ a ∈ args, a.All Fit) → Yields (segments alg start [] ps) args := by
  induction h generalizing start with
  | @last ps a h =>
    intro hfit
    rw [← List.append_nil ps, segments_skip h]
    simp only [segments, yields_bind, yields_pure, List.append_nil, List.reverse_reverse]
    exact ⟨_, segment_complete build h (hfit _ (by simp)), rfl⟩
  | more h h' ih =>
    intro hfit
    rw [segments_skip h]
    simp only [segments, yields_bind, yields_pure, List.append_nil, List.reverse_reverse]
    exact ⟨_, segment_complete build h (hfit _ (by simp)), _,
      ih _ fun a ha => hfit a (by simp [ha]), rfl⟩

/-- A name is the bracket's only where one opens behind it. -/
theorem spell_append {xs ys : Items} (h : ∀ s t rest, ys ≠ ⟨s, .opening, t⟩ :: rest) :
    spell (xs ++ ys) = spell xs ++ spell ys := by
  fun_induction spell xs with
  | case1 => rfl
  | case2 start f stop openStart openStop rest ih =>
    simp only [List.cons_append, spell, ih]
  | case3 start item stop rest hname ih =>
    rw [List.cons_append, spell, ih, List.cons_append]
    intro f openStart openStop after hafter hitem
    rcases rest with _ | ⟨r, rest⟩
    · exact h _ _ _ hafter
    · obtain ⟨rfl, -⟩ := List.cons.inj hafter
      exact hname _ _ _ _ rfl hitem

theorem spell_closing (xs : Items) (s t : Nat) :
    spell (xs ++ [⟨s, .closing, t⟩]) = spell xs ++ [⟨s, .closing, t⟩] :=
  spell_append (by simp)

theorem spell_join (xs ys : Items) (op : BinaryOp) (s t : Nat) :
    spell (xs ++ ⟨s, .join op, t⟩ :: ys) = spell xs ++ ⟨s, .part (.join op), t⟩ :: spell ys := by
  rw [spell_append (by simp), spell]
  · rfl
  · simp

theorem spell_comma (xs ys : Items) (s t : Nat) :
    spell (xs ++ ⟨s, .comma, t⟩ :: ys) = spell xs ++ ⟨s, .part .comma, t⟩ :: spell ys := by
  rw [spell_append (by simp), spell]
  · rfl
  · simp

theorem FlatList.ne_nil {ps : Parts} {args : List ParseTree} : FlatList ps args → ps ≠ []
  | last h => h.ne_nil
  | more _ _ => by simp

/-- A bracket becomes its operand when it closes. -/
theorem reduce_close (build : Builds alg Fit) {f : Frame ParseTree} {outer : List (Frame ParseTree)}
    {ps : Parts} {rest : List (Spanned (Piece ParseTree))} {args : List ParseTree}
    {a b : ParseTree} {s t : Nat}
    (hargs : FlatList ps args) (hfit : ∀ a ∈ args, a.All Fit)
    (ha : Yields (bracket alg f.callee f.start args) a)
    (h : Yields (reduce alg outer (⟨f.first, .operand a, t⟩ :: f.before) rest) b) :
    Yields (reduce alg (f :: outer) ps.reverse (⟨s, .closing, t⟩ :: rest)) b := by
  rw [reduce, if_neg (by simpa using hargs.ne_nil), List.reverse_reverse]
  simp only [yields_bind]
  exact ⟨args, segments_complete build hargs _ hfit, a, ha, h⟩

mutual

theorem reduce_complete (build : Builds alg Fit) :
    ∀ {k : Nat} {xs : Items} {a : ParseTree}, Derives k xs a → a.All Fit → ∃ ps, Flat k ps a ∧
      ∀ {outer : List (Frame ParseTree)} {inner : Parts} {rest : List (Spanned (Piece ParseTree))}
        {b : ParseTree},
        Yields (reduce alg outer (ps.reverse ++ inner) rest) b →
          Yields (reduce alg outer inner (spell xs ++ rest)) b
  | _, _, _, @Derives.number s t x, _ =>
    ⟨[⟨s, .operand (.number x), t⟩], .operand, fun h => by simpa [spell, piece, reduce] using h⟩
  | _, _, _, @Derives.name s t n, _ =>
    ⟨[⟨s, .operand (.name n), t⟩], .operand, fun h => by simpa [spell, piece, reduce] using h⟩
  | _, _, _, @Derives.lead s t op _ _ h, hfit => by
    obtain ⟨ps, hflat, hps⟩ := reduce_complete build h (all_lead.1 hfit).2
    refine ⟨⟨s, .lead op, t⟩ :: ps, hflat.lead, fun hrest => ?_⟩
    simp only [spell, piece, List.cons_append, reduce]
    exact hps (by simpa using hrest)
  | _, _, _, @Derives.bracket s _ _ t _ a h, hfit => by
    obtain ⟨ps, hflat, hps⟩ := reduce_complete build h hfit
    refine ⟨[⟨s, .operand a, t⟩], .operand, fun hrest => ?_⟩
    simp only [spell, spell_closing, piece, List.cons_append, List.append_assoc, reduce]
    refine hps ?_
    rw [List.append_nil]
    exact reduce_close build (.last hflat) (by simpa using hfit) (by simp [bracket]) hrest
  | _, _, _, @Derives.call s _ _ _ _ t _ op _ a hop h, hfit => by
    obtain ⟨hc, ha⟩ := all_call.1 hfit
    obtain ⟨ps, hflat, hps⟩ := reduce_complete build h ha
    refine ⟨[⟨s, .operand (.call op a), t⟩], .operand, fun hrest => ?_⟩
    simp only [spell, spell_closing, List.cons_append, List.append_assoc, reduce]
    refine hps ?_
    rw [List.append_nil]
    refine reduce_close build (.last hflat) (by simpa using ha) ?_ hrest
    simp [bracket, hop, build.call, hc]
  | _, _, _, @Derives.list s _ _ _ _ t _ op _ args hop three takes h, hfit => by
    obtain ⟨hl, hargs⟩ := all_list.1 hfit
    obtain ⟨ps, hflat, hps⟩ := reduce_list_complete build h hargs
    refine ⟨[⟨s, .operand (.list op args), t⟩], .operand, fun hrest => ?_⟩
    simp only [spell, spell_closing, List.cons_append, List.append_assoc, reduce]
    refine hps ?_
    rw [List.append_nil]
    refine reduce_close build hflat hargs ?_ hrest
    obtain _ | ⟨a, _ | ⟨b, _ | ⟨c, rest⟩⟩⟩ := args
    · simp at three
    · simp at three
    · simp at three
    · have two : (a :: b :: c :: rest).length ≠ 2 := by simp
      rw [bracket]
      · simp only [if_neg two, hop, takes, if_true]
        exact (build.callList ..).2 ⟨hl, rfl⟩
      · simp
  | _, _, _, .up h, hfit => by
    obtain ⟨ps, hflat, hps⟩ := reduce_complete build h hfit
    exact ⟨ps, hflat.up, hps⟩
  | _, _, _, @Derives.join s t op _ _ _ _ h h', hfit => by
    obtain ⟨_, ha, hb⟩ := all_join.1 hfit
    obtain ⟨ps, hflat, hps⟩ := reduce_complete build h ha
    obtain ⟨qs, hflat', hqs⟩ := reduce_complete build h' hb
    refine ⟨ps ++ ⟨s, .join op, t⟩ :: qs, hflat.join hflat', fun hrest => ?_⟩
    rw [spell_join, List.append_assoc]
    refine hps ?_
    rw [List.cons_append, reduce]
    exact hqs (by simpa using hrest)

theorem reduce_list_complete (build : Builds alg Fit) :
    ∀ {xs : Items} {args : List ParseTree}, DerivesList xs args → (∀ a ∈ args, a.All Fit) →
      ∃ ps, FlatList ps args ∧ ∀ {outer : List (Frame ParseTree)} {inner : Parts}
        {rest : List (Spanned (Piece ParseTree))} {b : ParseTree},
        Yields (reduce alg outer (ps.reverse ++ inner) rest) b →
          Yields (reduce alg outer inner (spell xs ++ rest)) b
  | _, _, .last h, hfit => by
    obtain ⟨ps, hflat, hps⟩ := reduce_complete build h (hfit _ (by simp))
    exact ⟨ps, .last hflat, hps⟩
  | _, _, @DerivesList.more s t _ _ _ _ h h', hfit => by
    obtain ⟨ps, hflat, hps⟩ := reduce_complete build h (hfit _ (by simp))
    obtain ⟨qs, hflat', hqs⟩ := reduce_list_complete build h' fun a ha => hfit a (by simp [ha])
    refine ⟨ps ++ ⟨s, .comma, t⟩ :: qs, .more hflat hflat', fun hrest => ?_⟩
    rw [spell_comma, List.append_assoc]
    refine hps ?_
    rw [List.cons_append, reduce]
    exact hqs (by simpa using hrest)

end

/-- Items that derive a tree whose nodes fit reduce to it. -/
theorem run_complete (build : Builds alg Fit) {xs : Items} {a : ParseTree} (h : Derives 7 xs a)
    (hfit : a.All Fit) : Yields (run alg xs) a := by
  obtain ⟨ps, hflat, hps⟩ := reduce_complete build h hfit
  rw [run, pieces_eq build, pure_bind, ← List.append_nil (spell xs)]
  refine hps ?_
  obtain ⟨p, qs, hcons⟩ := List.exists_cons_of_ne_nil (List.reverse_ne_nil_iff.2 hflat.ne_nil)
  rw [List.append_nil, hcons, reduce, ← hcons, List.reverse_reverse]
  · simp only [yields_bind]
    exact ⟨[a], segments_complete build (.last hflat) _ (by simpa using hfit), by simp⟩
  · simp

end Behavioral.Reduction
