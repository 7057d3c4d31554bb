import Behavioral.Proofs.Compiling
import Behavioral.Proofs.Continuing

/-!
# Texts in brackets

A text that is read up to its end is read as the same tokens in front of a closing bracket
(`readsTo_enclosed`), because no lexeme goes on over one. In brackets the signs of a phrase settle
on their own and its reciprocals are replaced on their own, so a text in brackets twice has its
items twice, only elsewhere (`moved_prepare_repeated`).
-/

namespace Behavioral

open Item

variable {ambient : Float} {c : Cursor} {tail : List Char} {ts us tokens tokens' : Tokens}
  {xs ys : Items} {e tree : ParseTree}

/-! ### Tokens -/

/-- A text that is read up to its end is read as the same tokens in front of a closing bracket. -/
theorem readsTo_enclosed (h : Scanner.read ambient c = (ts, none)) :
    ReadsTo ambient (c.rest ++ ')' :: tail) (values ts ++ [.symbol .closing]) tail := by
  have hstops : Stops Scan.goesOn (')' :: tail) := stops_cons.2 (by decide)
  obtain ⟨gap, hgap, hreads⟩ := readsTo_append h (.inr hstops)
  exact hreads.trans (readsTo_symbol hgap rfl)

/-- The sum of what a text stands for and itself. -/
def repeated (text : String) : String :=
  "(" ++ text ++ ") + (" ++ text ++ ")"

theorem tokenize_repeated {text : String} {settings : Settings} {tokens : Tokens}
    (h : tokenize text settings = .ok tokens) :
    ∃ tokens', tokenize (repeated text) settings = .ok tokens' ∧
      values tokens' = .symbol .opening :: (values tokens ++ .symbol .closing :: .symbol .plus ::
        .symbol .opening :: (values tokens ++ [.symbol .closing])) := by
  have hspace : Gap [' '] := by decide
  have hopening {gap tail : List Char} (hgap : Gap gap) :
      ReadsTo settings.ambientTemperature (gap ++ '(' :: tail) [.symbol .opening] tail :=
    readsTo_symbol hgap rfl
  have hplus {tail : List Char} :
      ReadsTo settings.ambientTemperature ([' '] ++ '+' :: tail) [.symbol .plus] tail :=
    readsTo_symbol hspace rfl
  have htext (tail : List Char) : ReadsTo settings.ambientTemperature (text.toList ++ ')' :: tail)
      (values tokens ++ [.symbol .closing]) tail := readsTo_enclosed (tokenize_eq_ok.1 h)
  have hrest : (Cursor.ofString (repeated text)).rest = [] ++ '(' :: (text.toList ++ ')' ::
      ([' '] ++ '+' :: ([' '] ++ '(' :: (text.toList ++ ')' :: [])))) := by
    simp [repeated, Cursor.ofString]
  have hreads := (hopening gap_nil).trans ((htext _).trans
    (hplus.trans ((hopening hspace).trans (htext []))))
  obtain ⟨tokens', next, hread', hvalues, hnext⟩ := hreads _ hrest
  have hend : Scanner.read settings.ambientTemperature next = ([], none) :=
    read_gap (by rw [hnext]; exact gap_nil)
  rw [hend, List.append_nil] at hread'
  refine ⟨tokens', tokenize_eq_ok.2 hread', ?_⟩
  rw [hvalues]
  simp

/-! ### Items -/

/-- The same values in the same order, wherever they stand. -/
abbrev Moved {α : Type} : List (Spanned α) → List (Spanned α) → Prop :=
  List.Forall₂ fun x y => x.value = y.value

theorem moved_of_values (h : values ts = values us) : Moved ts us := by
  rw [values, values, ← List.forall₂_eq_eq_eq, List.forall₂_map_left_iff,
    List.forall₂_map_right_iff] at h
  exact h

theorem moved_negation {minus minus' : Option (Spanned Unit)}
    (h : minus.isSome = minus'.isSome) : Moved (negation minus) (negation minus') := by
  cases minus <;> cases minus' <;> simp_all [negation]

/-- Signs settle to the same items wherever the tokens stand. -/
theorem Moved.settle (h : Moved ts us) : ∀ {minus minus' : Option (Spanned Unit)},
    minus.isSome = minus'.isSome → Moved (settle true minus ts) (settle true minus' us) ∧
      Moved (settle false none ts) (settle false none us) := by
  induction h with
  | nil => exact fun hminus => ⟨moved_negation hminus, .nil⟩
  | @cons t u ts us hvalue _ ih =>
    intro minus minus' hminus
    obtain ⟨s, token, t⟩ := t
    obtain ⟨s', _, t'⟩ := u
    obtain rfl : token = _ := hvalue
    have hnext (leading : Bool) :
        Moved (Item.settle leading none ts) (Item.settle leading none us) := by
      cases leading with
      | false => exact (@ih none none rfl).2
      | true => exact (@ih none none rfl).1
    constructor
    · by_cases hsolid : Solid token
      · rw [settle_solid hsolid, settle_solid hsolid]
        exact List.rel_append (moved_negation hminus) (.cons rfl (hnext _))
      · by_cases hnumber : ∃ x, token = .number x
        · obtain ⟨x, rfl⟩ := hnumber
          rw [settle_number, settle_number, hminus]
          exact .cons rfl (hnext false)
        · have hsign : ∃ σ : Sign, token = .symbol σ.symbol := by
            by_contra hnone
            exact hsolid ⟨not_exists.1 hnone, not_exists.1 hnumber⟩
          obtain ⟨σ, rfl⟩ := hsign
          cases σ with
          | plus => exact (ih hminus).1
          | minus =>
            cases minus with
            | none =>
              cases minus' with
              | none => exact (@ih (some ⟨s, (), t⟩) (some ⟨s', (), t'⟩) rfl).1
              | some => cases hminus
            | some =>
              cases minus' with
              | none => cases hminus
              | some => exact (@ih none none rfl).1
    · rw [settle_follow, settle_follow]
      exact .cons rfl (hnext _)

/-- Reciprocals of literals are replaced by the same values wherever they stand. -/
theorem Moved.expandReciprocals (h : Moved xs ys) :
    Moved (expandReciprocals xs) (expandReciprocals ys) := by
  fun_induction Item.expandReciprocals xs generalizing ys with
  | case1 s f t s₁ t₁ s₂ x t₂ s₃ t₃ rest hf ih =>
    obtain _ | @⟨_, ⟨_, _, _⟩, _, _, rfl, _ | @⟨_, ⟨_, _, _⟩, _, _, rfl, _ |
      @⟨_, ⟨_, _, _⟩, _, _, rfl, _ | @⟨_, ⟨_, _, _⟩, _, _, rfl, h⟩⟩⟩⟩ := h
    rw [Item.expandReciprocals, if_pos hf]
    exact .cons rfl (ih h)
  | case2 s f t s₁ t₁ s₂ x t₂ s₃ t₃ rest hf ih =>
    obtain _ | @⟨_, ⟨_, _, _⟩, _, _, rfl, _ | @⟨_, ⟨_, _, _⟩, _, _, rfl, _ |
      @⟨_, ⟨_, _, _⟩, _, _, rfl, _ | @⟨_, ⟨_, _, _⟩, _, _, rfl, h⟩⟩⟩⟩ := h
    rw [Item.expandReciprocals, if_neg hf]
    exact .cons rfl (.cons rfl (.cons rfl (.cons rfl (ih h))))
  | case3 i rest hshape ih =>
    obtain _ | @⟨_, j, _, ys, hj, hys⟩ := h
    rw [Item.expandReciprocals]
    · exact .cons hj (ih hys)
    · rintro s f t s₁ t₁ s₂ x t₂ s₃ t₃ rest' rfl rfl
      obtain _ | @⟨⟨_, _, _⟩, _, _, _, rfl, _ | @⟨⟨_, _, _⟩, _, _, _, rfl,
        _ | @⟨⟨_, _, _⟩, _, _, _, rfl, h⟩⟩⟩ := hys
      obtain ⟨_, _, _⟩ := i
      cases hj
      exact hshape _ _ _ _ _ _ _ _ _ _ _ rfl rfl
  | case4 =>
    cases h
    exact .nil

/-- The items end in a call of a literal whose bracket is still open. -/
def Pending (xs : Items) : Prop :=
  ∃ s₁ f t₁ s₂ t₂ s₃ x t₃,
    [⟨s₁, .name f, t₁⟩, ⟨s₂, .opening, t₂⟩, ⟨s₃, .number x, t₃⟩] <:+ xs

theorem Pending.of_suffix (h : Pending xs) (hsuffix : xs <:+ ys) : Pending ys := by
  obtain ⟨s₁, f, t₁, s₂, t₂, s₃, x, t₃, h⟩ := h
  exact ⟨s₁, f, t₁, s₂, t₂, s₃, x, t₃, h.trans hsuffix⟩

theorem closes_pending {s₁ t₁ s₂ t₂ s₃ t₃ : Nat} {f : String} {x : Float} (depth : Nat)
    (before : Items) : closes depth (before ++
      [⟨s₁, .name f, t₁⟩, ⟨s₂, .opening, t₂⟩, ⟨s₃, .number x, t₃⟩]) = false := by
  induction before generalizing depth with
  | nil => rfl
  | cons first before ih =>
    obtain ⟨s, item, t⟩ := first
    cases item <;> cases depth <;> simp only [List.cons_append, closes, ih]

/-- No bracket is left open behind a tree. -/
theorem Derives.not_pending {k : Nat} (h : Derives k xs e) : ¬Pending xs := by
  rintro ⟨s₁, f, t₁, s₂, t₂, s₃, x, t₃, before, rfl⟩
  have hcloses := h.closes 0 []
  rw [List.append_nil, closes_pending] at hcloses
  cases hcloses

/-- What no closing bracket completes is expanded on its own in front of one. -/
theorem expandReciprocals_closing {s t : Nat} (h : ¬Pending xs) :
    expandReciprocals (xs ++ ⟨s, .closing, t⟩ :: ys) =
      expandReciprocals xs ++ ⟨s, .closing, t⟩ :: expandReciprocals ys := by
  fun_induction expandReciprocals xs with
  | case1 s f t s₁ t₁ s₂ x t₂ s₃ t₃ rest hf ih =>
    simp only [List.cons_append, expandReciprocals, if_pos hf]
    rw [ih fun hrest => h (hrest.of_suffix ⟨[_, _, _, _], rfl⟩)]
  | case2 s f t s₁ t₁ s₂ x t₂ s₃ t₃ rest hf ih =>
    simp only [List.cons_append, expandReciprocals, if_neg hf]
    rw [ih fun hrest => h (hrest.of_suffix ⟨[_, _, _, _], rfl⟩)]
  | case3 i rest hshape ih =>
    rw [List.cons_append, expandReciprocals, ih fun hrest => h (hrest.of_suffix ⟨[_], rfl⟩),
      List.cons_append]
    rintro s₁ f t₁ s₂ t₂ s₃ x t₃ s₄ t₄ after rfl hafter
    obtain _ | ⟨j, _ | ⟨k, _ | ⟨l, rest⟩⟩⟩ := rest
    · cases hafter
    · cases hafter
    · cases hafter
      exact h ⟨_, _, _, _, _, _, _, _, List.suffix_rfl⟩
    · cases hafter
      exact hshape _ _ _ _ _ _ _ _ _ _ _ rfl rfl
  | case4 =>
    rw [List.nil_append, expandReciprocals]
    · rfl
    · rintro _ _ _ _ _ _ _ _ _ _ _ hclosing
      cases hclosing

/-- Tokens in brackets settle on their own. -/
theorem settle_bracket {s t s' t' : Nat} (htree : Parses 7 tokens tree) (rest : Tokens) :
    settle true none (⟨s, .symbol .opening, t⟩ :: (tokens ++ ⟨s', .symbol .closing, t'⟩ :: rest)) =
      ⟨s, .opening, t⟩ :: (ofTokens tokens ++ ⟨s', .closing, t'⟩ :: settle false none rest) := by
  obtain ⟨xs, -, hsettle⟩ := settle_phrase htree none (.inr rfl)
  have hitems : ofTokens tokens = xs := by simpa [ofTokens, settle, negation] using hsettle []
  have hinner := hsettle (⟨s', .symbol .closing, t'⟩ :: rest)
  rw [hitems]
  exact congrArg _ hinner

/-- Items in brackets are expanded on their own. -/
theorem expandReciprocals_bracket {s t s' t' : Nat} (h : ¬Pending xs) :
    expandReciprocals (⟨s, .opening, t⟩ :: (xs ++ ⟨s', .closing, t'⟩ :: ys)) =
      ⟨s, .opening, t⟩ :: (expandReciprocals xs ++ ⟨s', .closing, t'⟩ :: expandReciprocals ys) := by
  rw [expandReciprocals, expandReciprocals_closing h]
  rintro _ _ _ _ _ _ _ _ _ _ _ hopening
  cases hopening

/-- Brackets match wherever the items stand. -/
theorem Moved.closes (h : Moved xs ys) (depth : Nat) :
    closes depth xs = Item.closes depth ys := by
  induction h generalizing depth with
  | nil => rfl
  | @cons x y xs ys hvalue _ ih =>
    obtain ⟨s, item, t⟩ := x
    obtain ⟨s', _, t'⟩ := y
    obtain rfl : item = _ := hvalue
    cases item <;> cases depth <;> simp only [Item.closes, ih]

/-- The items of the sum of what a text stands for and itself are those of the text in brackets,
twice. -/
theorem moved_prepare_repeated (htree : Parses 7 tokens tree)
    (hvalues : values tokens' = .symbol .opening :: (values tokens ++ .symbol .closing ::
      .symbol .plus :: .symbol .opening :: (values tokens ++ [.symbol .closing]))) :
    Moved (⟨0, .opening, 0⟩ :: (prepare tokens ++ ⟨0, .closing, 0⟩ :: ⟨0, .join .add, 0⟩ ::
      ⟨0, .opening, 0⟩ :: (prepare tokens ++ [⟨0, .closing, 0⟩]))) (prepare tokens') ∧
      checkBrackets (prepare tokens') = .ok () := by
  have hderives := derives_ofTokens.2 ⟨tree, htree, rfl⟩
  have hmoved : Moved (⟨0, .symbol .opening, 0⟩ :: (tokens ++ ⟨0, .symbol .closing, 0⟩ ::
      ⟨0, .symbol .plus, 0⟩ :: ⟨0, .symbol .opening, 0⟩ :: (tokens ++ [⟨0, .symbol .closing, 0⟩])))
      tokens' := moved_of_values (by simpa [values] using hvalues.symm)
  have hitems := (@Moved.settle _ _ hmoved none none rfl).1
  have hplus (rest : Tokens) : settle false none (⟨0, .symbol .plus, 0⟩ :: rest) =
      ⟨0, .join .add, 0⟩ :: settle true none rest := rfl
  have hjoin (rest : Items) : expandReciprocals (⟨0, .join .add, 0⟩ :: rest) =
      ⟨0, .join .add, 0⟩ :: expandReciprocals rest := rfl
  rw [settle_bracket htree, hplus, settle_bracket htree] at hitems
  constructor
  · have hexpanded := hitems.expandReciprocals
    rwa [expandReciprocals_bracket hderives.not_pending, hjoin,
      expandReciprocals_bracket hderives.not_pending] at hexpanded
  · rw [prepare, checkBrackets, checkFrom_eq_ok, closes_expandReciprocals]
    refine (hitems.closes 0).symm.trans ?_
    simp only [Item.closes, hderives.closes]
    rfl

end Behavioral
