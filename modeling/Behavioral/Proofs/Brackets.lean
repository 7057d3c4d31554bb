import Behavioral.Proofs.Simulation

/-!
# Brackets and leaves

The check of the brackets passes on items that derive a tree, also once reciprocals of literals are
replaced (`Derives.checkBrackets`). The names among such items are in the tree (`Derives.names`),
and replacing reciprocals brings no new ones (`Expanded.names`).
-/

namespace Behavioral

open Reduction

namespace Item

/-- Whether the brackets match after a place where `depth` are open. -/
def closes : Nat → Items → Bool
  | depth, [] => depth == 0
  | depth, ⟨_, .opening, _⟩ :: rest => closes (depth + 1) rest
  | 0, ⟨_, .closing, _⟩ :: _ => false
  | depth + 1, ⟨_, .closing, _⟩ :: rest => closes depth rest
  | depth, _ :: rest => closes depth rest

theorem checkFrom_eq_ok (depth last : Nat) (xs : Items) :
    checkFrom depth last xs = .ok () ↔ closes depth xs = true := by
  fun_induction checkFrom depth last xs <;> simp_all [closes]

theorem closes_expandReciprocals (depth : Nat) (xs : Items) :
    closes depth (expandReciprocals xs) = closes depth xs := by
  fun_induction expandReciprocals xs generalizing depth with
  | case1 _ _ _ _ _ _ _ _ _ _ _ _ ih => simp only [closes, ih]
  | case2 _ _ _ _ _ _ _ _ _ _ _ _ ih => simp only [closes, ih]
  | case3 i rest _ ih =>
    obtain ⟨start, item, stop⟩ := i
    cases item <;> cases depth <;> simp only [closes, ih]
  | case4 => rfl

/-- The literals among the items. -/
def literals : Items → List Float
  | [] => []
  | ⟨_, .number x, _⟩ :: rest => x :: literals rest
  | _ :: rest => literals rest

theorem mem_literals {x : Float} (xs : Items) (h : .number x ∈ leaves xs) : x ∈ literals xs := by
  fun_induction leaves xs with
  | case1 => nomatch h
  | case2 _ _ _ _ _ rest ih => exact ih h
  | case3 _ y _ rest ih => simpa [literals] using Or.imp_right ih (by simpa using h)
  | case4 _ n _ rest _ ih => exact ih (by simpa using h)
  | case5 i rest _ _ _ ih =>
    rw [literals]
    · exact ih h
    · assumption

end Item

open Item

mutual

theorem Derives.closes : ∀ {k : Nat} {xs : Items} {e : ParseTree}, Derives k xs e →
    ∀ (depth : Nat) (rest : Items), closes depth (xs ++ rest) = Item.closes depth rest
  | _, _, _, .number, depth, rest => by simp [Item.closes]
  | _, _, _, .name, depth, rest => by simp [Item.closes]
  | _, _, _, .lead h, depth, rest => by simp [Item.closes, h.closes]
  | _, _, _, .bracket h, depth, rest => by simp [Item.closes, h.closes]
  | _, _, _, .call _ h, depth, rest => by simp [Item.closes, h.closes]
  | _, _, _, .list _ _ _ h, depth, rest => by simp [Item.closes, h.closes]
  | _, _, _, .up h, depth, rest => h.closes depth rest
  | _, _, _, .join h h', depth, rest => by simp [Item.closes, h.closes, h'.closes]

theorem DerivesList.closes : ∀ {xs : Items} {es : List ParseTree}, DerivesList xs es →
    ∀ (depth : Nat) (rest : Items), closes depth (xs ++ rest) = Item.closes depth rest
  | _, _, .last h, depth, rest => h.closes depth rest
  | _, _, .more h h', depth, rest => by simp [Item.closes, h.closes, h'.closes]

end

/-- Brackets match around a tree, also once reciprocals of literals are replaced. -/
theorem Derives.checkBrackets {xs : Items} {e : ParseTree} (h : Derives 7 xs e) :
    Item.checkBrackets (expandReciprocals xs) = .ok () := by
  rw [Item.checkBrackets, checkFrom_eq_ok, closes_expandReciprocals, ← List.append_nil xs, h.closes]
  rfl

/-- Does not make a call of a name in front of it. -/
def Apart (xs : Items) : Prop :=
  ∀ first ∈ xs.head?, first.value ≠ .opening

theorem apart_cons (first : Spanned Item) (xs : Items) (h : first.value ≠ .opening) :
    Apart (first :: xs) := by
  simpa [Apart] using h

theorem leaves_name {start stop : Nat} {n : String} {xs : Items} (h : Apart xs) :
    leaves (⟨start, .name n, stop⟩ :: xs) = .name n :: leaves xs := by
  rw [leaves]
  rintro s t rest rfl
  exact h _ rfl rfl

mutual

theorem Derives.names {n : String} : ∀ {k : Nat} {xs : Items} {e : ParseTree}, Derives k xs e →
    ∀ {rest : Items}, Apart rest → .name n ∈ leaves (xs ++ rest) →
      .name n ∈ e.nodes ∨ .name n ∈ leaves rest
  | _, _, _, .number, rest, _, hn => by simpa [leaves, ParseTree.nodes] using hn
  | _, _, _, .name, rest, hrest, hn => by simpa [leaves_name hrest, ParseTree.nodes] using hn
  | _, _, _, @Derives.lead _ _ op _ _ h, rest, hrest, hn => by
    have ha := h.names hrest hn
    cases op <;> simpa [LeadOp.tree, ParseTree.nodes] using ha
  | _, _, _, @Derives.bracket _ _ s t _ _ h, rest, _, hn => by
    have ha := h.names (apart_cons ⟨s, .closing, t⟩ rest nofun) (by simpa [leaves] using hn)
    simpa [leaves] using ha
  | _, _, _, @Derives.call _ _ _ _ s t _ _ _ _ _ h, rest, _, hn => by
    have ha := h.names (apart_cons ⟨s, .closing, t⟩ rest nofun) (by simpa [leaves] using hn)
    simpa [leaves, ParseTree.nodes] using ha
  | _, _, _, @Derives.list _ _ _ _ s t _ _ _ _ _ _ _ h, rest, _, hn => by
    have ha := h.names (apart_cons ⟨s, .closing, t⟩ rest nofun) (by simpa [leaves] using hn)
    simpa [leaves, ParseTree.nodes] using ha
  | _, _, _, .up h, rest, hrest, hn => h.names hrest hn
  | _, _, _, @Derives.join s t op xs ys _ _ h h', rest, hrest, hn => by
    have ha := h.names (apart_cons ⟨s, .join op, t⟩ (ys ++ rest) nofun) (by simpa using hn)
    have hb := h'.names (n := n) hrest
    simp only [leaves, ParseTree.nodes, List.mem_cons, List.mem_append] at ha ⊢
    tauto

theorem DerivesList.names {n : String} : ∀ {xs : Items} {es : List ParseTree}, DerivesList xs es →
    ∀ {rest : Items}, Apart rest → .name n ∈ leaves (xs ++ rest) →
      .name n ∈ ParseTree.nodesOf es ∨ .name n ∈ leaves rest
  | _, _, .last h, rest, hrest, hn => by simpa [ParseTree.nodesOf] using h.names hrest hn
  | _, _, @DerivesList.more s t xs ys _ _ h h', rest, hrest, hn => by
    have ha := h.names (apart_cons ⟨s, .comma, t⟩ (ys ++ rest) nofun) (by simpa using hn)
    have hb := h'.names (n := n) hrest
    simp only [leaves, ParseTree.nodesOf, List.mem_append] at ha ⊢
    tauto

end

/-- Replacing reciprocals brings no new names. -/
theorem Reduction.Expanded.names {IsReciprocal : String → Prop} {n : String} {xs ys : Items}
    (h : Expanded IsReciprocal xs ys) (hn : .name n ∈ leaves ys) : .name n ∈ leaves xs := by
  induction h with
  | nil => exact hn
  | reciprocal _ _ ih => simpa [leaves] using ih (by simpa [leaves] using hn)
  | call _ ih => exact ih hn
  | @item i xs ys hcall h ih =>
    obtain ⟨s, item, t⟩ := i
    cases item with
    | name f =>
      have hxs : Apart xs := by
        rintro ⟨s', item, t'⟩ hfirst rfl
        obtain ⟨zs, rfl⟩ := List.head?_eq_some_iff.1 hfirst
        exact (hcall f s' t' zs rfl).1 rfl
      have hys : Apart ys := by
        rintro ⟨s', item, t'⟩ hfirst rfl
        obtain ⟨zs, rfl⟩ := List.head?_eq_some_iff.1 hfirst
        exact (hcall f s' t' zs rfl).2 rfl
      rw [leaves_name hys] at hn
      rw [leaves_name hxs]
      exact List.mem_cons.2 ((List.mem_cons.1 hn).imp_right ih)
    | number x =>
      simp only [leaves] at hn ⊢
      exact List.mem_cons.2 ((List.mem_cons.1 hn).imp_right ih)
    | _ => exact ih hn

end Behavioral
