import Behavioral.Proofs.Building

/-!
# What a reduction returns

Every part of a run covers items of the text: an operand covers items that derive it. Applying the
leading operators and then the joining operators of one level after the other keeps this, and each
level lets an operand cover a looser phrase (`applyLeads_sound`, `applyLevel_sound`). What stands in
front of the open brackets is covered in the same way, so the tree that a reduction returns is
derived from the whole text, and each of its nodes fits (`run_sound`).
-/

namespace Behavioral.Reduction

open ParseTree

variable {alg : Algebra Unit ParseTree} {Fit : ParseTree → Prop}

/-- The items split into runs, one for each element of the list. -/
inductive Chunks {A : Type} (R : A → Items → Prop) :
    List A → Items → Prop
  | nil : Chunks R [] []
  | cons {p : A} {ps : List A} {xs ys : Items} : R p xs → Chunks R ps ys →
      Chunks R (p :: ps) (xs ++ ys)

namespace Chunks

variable {A : Type} {R : A → Items → Prop} {p : A} {ps qs : List A}
  {xs ys : Items}

theorem append : ∀ {ps : List A} {xs : Items}, Chunks R ps xs → Chunks R qs ys →
    Chunks R (ps ++ qs) (xs ++ ys)
  | _, _, nil, h => h
  | _, _, cons hp hps, h => by
    rw [List.append_assoc]
    exact cons hp (hps.append h)

theorem single (h : R p xs) : Chunks R [p] xs := by
  simpa using cons h (nil (R := R))

theorem last : ∀ {ps : List A} {xs : Items}, Chunks R (ps ++ [p]) xs →
    ∃ ys zs, xs = ys ++ zs ∧ Chunks R ps ys ∧ R p zs
  | [], _, @cons _ _ _ _ xs _ h nil => ⟨[], xs, by simp, nil, h⟩
  | _ :: _, _, @cons _ _ _ _ xs _ h hs => by
    obtain ⟨ys, zs, rfl, hps, hp⟩ := hs.last
    exact ⟨xs ++ ys, zs, by simp, cons h hps, hp⟩

end Chunks

/-- The items that a part covers. -/
inductive Covers (Fit : ParseTree → Prop) (k : Nat) : Spanned (Part ParseTree) → Items → Prop
  | operand {s t : Nat} {a : ParseTree} {xs : Items} : Derives k xs a → a.All Fit →
      Covers Fit k ⟨s, .operand a, t⟩ xs
  | lead {s t s' t' : Nat} {op : LeadOp} : Covers Fit k ⟨s, .lead op, t⟩ [⟨s', .lead op, t'⟩]
  | join {s t s' t' : Nat} {op : BinaryOp} : Covers Fit k ⟨s, .join op, t⟩ [⟨s', .join op, t'⟩]
  | comma {s t s' t' : Nat} : Covers Fit k ⟨s, .comma, t⟩ [⟨s', .comma, t'⟩]

theorem Covers.up {k : Nat} {p : Spanned (Part ParseTree)} {xs : Items}
    (h : Covers Fit k p xs) : Covers Fit (k + 1) p xs := by
  cases h with
  | operand h hfit => exact .operand h.up hfit
  | lead => exact .lead
  | join => exact .join
  | comma => exact .comma

theorem Covers.join_inv {k s t : Nat} {op : BinaryOp} {xs : Items}
    (h : Covers Fit k ⟨s, .join op, t⟩ xs) : ∃ s' t', xs = [⟨s', .join op, t'⟩] := by
  cases h
  exact ⟨_, _, rfl⟩

theorem applyLeads_sound (build : Builds alg Fit) :
    ∀ {ps qs : Parts} {xs : Items},
      Yields (applyLeads alg ps) qs → Chunks (Covers Fit 0) ps xs → Chunks (Covers Fit 0) qs xs
  | [], qs, xs, h, hc => by
    simp only [applyLeads, yields_pure] at h
    subst h
    exact hc
  | ⟨start, .lead op, stop⟩ :: rest, qs, _, h, .cons .lead hrest => by
    simp only [applyLeads, yields_bind] at h
    obtain ⟨after, hafter, h⟩ := h
    split at h
    · simp only [yields_bind, yields_pure, build.lead] at h
      obtain ⟨_, ⟨hop, rfl⟩, rfl⟩ := h
      obtain _ | ⟨⟨ha, hfit⟩, hps⟩ := applyLeads_sound build hafter hrest
      rw [← List.append_assoc]
      exact .cons (.operand (.lead ha) (all_lead.2 ⟨hop, hfit⟩)) hps
    · exact absurd h not_yields_fail
  | ⟨_, .operand _, _⟩ :: rest, qs, _, h, .cons hp hrest
  | ⟨_, .join _, _⟩ :: rest, qs, _, h, .cons hp hrest
  | ⟨_, .comma, _⟩ :: rest, qs, _, h, .cons hp hrest => by
    simp only [applyLeads, yields_bind, yields_pure] at h
    obtain ⟨after, hafter, rfl⟩ := h
    exact .cons hp (applyLeads_sound build hafter hrest)

theorem applyLevel_sound (build : Builds alg Fit) {k : Nat} :
    ∀ {passed rest out : Parts} {xs ys : Items},
      Yields (applyLevel alg k passed rest) out →
      Chunks (Covers Fit (k + 1)) passed.reverse xs → Chunks (Covers Fit k) rest ys →
      Chunks (Covers Fit (k + 1)) out (xs ++ ys) := by
  have pass : ∀ {p : Spanned (Part ParseTree)} {passed : Parts} {xs ys : Items},
      Chunks (Covers Fit (k + 1)) passed.reverse xs → Covers Fit k p ys →
      Chunks (Covers Fit (k + 1)) (p :: passed).reverse (xs ++ ys) := by
    intro p passed xs ys hpassed hp
    rw [List.reverse_cons]
    exact hpassed.append (.single hp.up)
  intro passed rest
  fun_induction applyLevel alg k passed rest with
  | case1 passed =>
    intro out xs ys h hpassed hrest
    simp only [yields_pure] at h
    cases hrest
    simpa [h] using hpassed
  | case2 start op stop hop first a _ before _ b last after ih =>
    intro out xs ys h hpassed hrest
    simp only [yields_bind, build.join] at h
    obtain ⟨_, ⟨hfit, rfl⟩, h⟩ := h
    rw [List.reverse_cons] at hpassed
    obtain ⟨xs, xa, rfl, hbefore, ⟨ha, hfa⟩⟩ := hpassed.last
    obtain _ | ⟨hop', _ | ⟨⟨hb, hfb⟩, hafter⟩⟩ := hrest
    obtain ⟨s, t, rfl⟩ := hop'.join_inv
    subst hop
    have hc := Covers.operand (s := first) (t := last) (Derives.join (s := s) (t := t) ha hb)
      (all_join.2 ⟨hfit, hfa, hfb⟩)
    have := ih _ h (List.reverse_cons ▸ hbefore.append (.single hc)) hafter
    simpa [List.append_assoc] using this
  | case3 => exact fun h => absurd h not_yields_fail
  | case4 passed start op stop rest hop ih =>
    intro out xs ys h hpassed hrest
    obtain _ | ⟨hp, hrest⟩ := hrest
    simpa [List.append_assoc] using ih h (pass hpassed hp) hrest
  | case5 passed p rest hp ih =>
    intro out xs ys h hpassed hrest
    obtain _ | ⟨hp, hrest⟩ := hrest
    simpa [List.append_assoc] using ih h (pass hpassed hp) hrest

theorem levels_sound (build : Builds alg Fit) :
    ∀ (n k : Nat) {ps qs : Parts} {xs : Items},
      Yields ((List.range' k n).foldlM (fun ps level => applyLevel alg level [] ps) ps) qs →
      Chunks (Covers Fit k) ps xs → Chunks (Covers Fit (k + n)) qs xs
  | 0, k, ps, qs, xs, h, hc => by
    simp only [List.range'_zero, List.foldlM_nil, yields_pure] at h
    subst h
    exact hc
  | n + 1, k, ps, qs, xs, h, hc => by
    simp only [List.range'_succ, List.foldlM_cons, yields_bind] at h
    obtain ⟨qs', h, hrest⟩ := h
    have := levels_sound build n (k + 1) hrest (applyLevel_sound build h .nil hc)
    rwa [Nat.add_right_comm] at this

theorem segment_sound (build : Builds alg Fit) {start : Nat} {ps : Parts}
    {a : ParseTree} {xs : Items} (h : Yields (segment alg start ps) a)
    (hc : Chunks (Covers Fit 0) ps xs) :
    Derives 7 xs a ∧ a.All Fit := by
  simp only [segment] at h
  split at h
  · exact absurd h not_yields_fail
  · simp only [yields_bind] at h
    obtain ⟨qs, hqs, rs, hrs, h⟩ := h
    have hlevels := levels_sound build 7 0 hrs (applyLeads_sound build hqs hc)
    split at h
    · simp only [yields_pure] at h
      subst h
      obtain _ | ⟨⟨ha, hfit⟩, _ | _⟩ := hlevels
      exact ⟨by simpa using ha, hfit⟩
    · exact absurd h not_yields_fail
    · exact absurd h not_yields_fail

theorem segments_sound (build : Builds alg Fit) :
    ∀ {ps run : Parts} {start : Nat} {args : List ParseTree} {xs ys : Items},
      Yields (segments alg start run ps) args → Chunks (Covers Fit 0) run.reverse xs →
      Chunks (Covers Fit 0) ps ys → DerivesList (xs ++ ys) args ∧ ∀ a ∈ args, a.All Fit
  | [], run, start, args, xs, _, h, hrun, .nil => by
    simp only [segments, yields_bind, yields_pure] at h
    obtain ⟨a, ha, rfl⟩ := h
    obtain ⟨hd, hfit⟩ := segment_sound build ha hrun
    exact ⟨by simpa using .last hd, by simpa using hfit⟩
  | ⟨_, .comma, stop⟩ :: rest, run, start, args, xs, _, h, hrun, .cons .comma hrest => by
    simp only [segments, yields_bind, yields_pure] at h
    obtain ⟨a, ha, args, hargs, rfl⟩ := h
    obtain ⟨hd, hfit⟩ := segment_sound build ha hrun
    obtain ⟨hds, hfits⟩ := segments_sound build hargs .nil hrest
    exact ⟨.more hd hds, by simpa using ⟨hfit, hfits⟩⟩
  | ⟨s, .operand a, t⟩ :: rest, run, start, args, xs, _, h, hrun, .cons hp hrest
  | ⟨s, .lead op, t⟩ :: rest, run, start, args, xs, _, h, hrun, .cons hp hrest
  | ⟨s, .join op, t⟩ :: rest, run, start, args, xs, _, h, hrun, .cons hp hrest => by
    simp only [segments] at h
    rw [← List.append_assoc]
    exact segments_sound build h (List.reverse_cons ▸ hrun.append (.single hp)) hrest

/-- How the text opens a bracket with or without a name in front. -/
inductive Opens : Option (Spanned String) → Items → Prop
  | bare {s t : Nat} : Opens none [⟨s, .opening, t⟩]
  | call {s t s' t' : Nat} {f : Spanned String} :
      Opens (some f) [⟨s, .name f.value, t⟩, ⟨s', .opening, t'⟩]

theorem bracket_sound (build : Builds alg Fit) {callee : Option (Spanned String)} {start s t : Nat}
    {args : List ParseTree} {a : ParseTree} {xs ys : Items}
    (h : Yields (bracket alg callee start args) a) (hopen : Opens callee ys)
    (hargs : DerivesList xs args) (hfit : ∀ a ∈ args, a.All Fit) :
    Derives 0 (ys ++ (xs ++ [⟨s, .closing, t⟩])) a ∧ a.All Fit := by
  have one : ∀ {b : ParseTree}, args = [b] → Derives 7 xs b := by
    rintro b rfl
    exact hargs.single
  unfold bracket at h
  split at h
  · rename_i b
    split at h
    · simp only [yields_pure] at h
      subst h
      cases hopen
      exact ⟨.bracket (one rfl), hfit _ (by simp)⟩
    · rename_i f
      split at h
      · rename_i op hop
        obtain ⟨hc, rfl⟩ := (build.call ..).1 h
        cases hopen
        exact ⟨.call hop (one rfl), all_call.2 ⟨hc, hfit _ (by simp)⟩⟩
      · exact absurd h not_yields_fail
  · rename_i hone
    split at h
    · exact absurd h not_yields_fail
    · rename_i f
      split at h
      · exact absurd h not_yields_fail
      · rename_i htwo
        split at h
        · exact absurd h not_yields_fail
        · rename_i op hop
          split at h
          · rename_i htakes
            obtain ⟨hl, rfl⟩ := (build.callList ..).1 h
            have three : 3 ≤ args.length := by
              rcases args with _ | ⟨b, _ | ⟨c, _ | ⟨d, rest⟩⟩⟩
              · cases hargs
              · exact absurd rfl (hone b)
              · exact absurd rfl htwo
              · simp
            cases hopen
            exact ⟨.list hop three htakes hargs, all_list.2 ⟨hl, hfit⟩⟩
          · exact absurd h not_yields_fail

/-- The items that a piece stands for. -/
inductive Spells (Fit : ParseTree → Prop) : Spanned (Piece ParseTree) → Items → Prop
  | part {s t : Nat} {p : Part ParseTree} {xs : Items} : Covers Fit 0 ⟨s, p, t⟩ xs →
      Spells Fit ⟨s, .part p, t⟩ xs
  | opening {s t : Nat} {callee : Option (Spanned String)} {xs : Items} : Opens callee xs →
      Spells Fit ⟨s, .opening callee, t⟩ xs
  | closing {s t : Nat} : Spells Fit ⟨s, .closing, t⟩ [⟨s, .closing, t⟩]

/-- The items outside of the open brackets, with what has been read in front of each. -/
inductive Pending (Fit : ParseTree → Prop) : List (Frame ParseTree) → Items → Prop
  | nil : Pending Fit [] []
  | cons {f : Frame ParseTree} {outer : List (Frame ParseTree)} {ws xs ys : Items} :
      Pending Fit outer ws →
      Chunks (Covers Fit 0) f.before.reverse xs → Opens f.callee ys →
      Pending Fit (f :: outer) (ws ++ xs ++ ys)

theorem reduce_sound (build : Builds alg Fit) {ps : List (Spanned (Piece ParseTree))} :
    ∀ {outer : List (Frame ParseTree)} {inner : Parts} {a : ParseTree}
      {ws xs ys : Items}, Yields (reduce alg outer inner ps) a → Pending Fit outer ws →
      Chunks (Covers Fit 0) inner.reverse xs → Chunks (Spells Fit) ps ys →
      Derives 7 (ws ++ (xs ++ ys)) a ∧ a.All Fit := by
  intro outer inner
  fun_induction reduce alg outer inner ps with
  | case1 => exact fun h => absurd h not_yields_fail
  | case2 inner hne =>
    intro a ws xs ys h hpending hinner hps
    simp only [yields_bind] at h
    obtain ⟨args, hargs, h⟩ := h
    obtain ⟨hd, hfit⟩ := segments_sound build hargs .nil hinner
    cases hpending
    cases hps
    split at h
    · simp only [yields_pure] at h
      subst h
      exact ⟨by simpa using hd.single, hfit _ (by simp)⟩
    · exact absurd h not_yields_fail
  | case3 => exact fun h => absurd h not_yields_fail
  | case4 outer inner start callee stop rest ih =>
    intro a ws xs ys h hpending hinner hps
    obtain _ | ⟨_ | hopen | _, hrest⟩ := hps
    simpa [List.append_assoc] using ih h (.cons hpending hinner hopen) .nil hrest
  | case5 => exact fun h => absurd h not_yields_fail
  | case6 => exact fun h => absurd h not_yields_fail
  | case7 f outer inner start stop rest hne ih =>
    intro a ws xs ys h hpending hinner hps
    simp only [yields_bind] at h
    obtain ⟨args, hargs, b, hb, h⟩ := h
    obtain _ | ⟨_ | _ | _, hrest⟩ := hps
    obtain _ | ⟨hpending, hbefore, hopen⟩ := hpending
    obtain ⟨hd, hfit⟩ := segments_sound build hargs .nil hinner
    obtain ⟨hd, hfit⟩ := bracket_sound build (s := start) (t := stop) hb hopen hd hfit
    have := ih _ h hpending (List.reverse_cons ▸ hbefore.append (.single (.operand hd hfit))) hrest
    simpa [List.append_assoc] using this
  | case8 outer inner start p stop rest ih =>
    intro a ws xs ys h hpending hinner hps
    obtain _ | ⟨⟨hp⟩, hrest⟩ := hps
    have := ih h hpending (List.reverse_cons ▸ hinner.append (.single hp)) hrest
    simpa [List.append_assoc] using this

theorem spell_spells (build : Builds alg Fit) (xs : Items) : Chunks (Spells Fit) (spell xs) xs := by
  fun_induction spell xs with
  | case1 => exact .nil
  | case2 start f stop openStart openStop rest ih =>
    exact .cons (.opening (@Opens.call _ _ _ _ ⟨start, f, stop⟩)) ih
  | case3 start item stop rest _ ih =>
    show Chunks _ _ ([⟨start, item, stop⟩] ++ rest)
    refine .cons ?_ ih
    cases item with
    | number x => exact .part (.operand .number (all_number.2 (build.number x).2))
    | name n => exact .part (.operand .name (all_name.2 (build.name n).2))
    | lead op => exact .part .lead
    | join op => exact .part .join
    | comma => exact .part .comma
    | opening => exact .opening .bare
    | closing => exact .closing

/-- A reduction returns a tree that the items derive, all of whose nodes fit. -/
theorem run_sound (build : Builds alg Fit) {xs : Items} {a : ParseTree}
    (h : Yields (run alg xs) a) :
    Derives 7 xs a ∧ a.All Fit := by
  rw [run, pieces_eq build, pure_bind] at h
  simpa using reduce_sound build h .nil .nil (spell_spells build xs)

end Behavioral.Reduction
