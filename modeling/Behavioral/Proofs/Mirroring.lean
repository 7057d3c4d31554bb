import Behavioral.Proofs.Assembling

/-!
# Tables with and without folding

Two tables grow from the same literals and names, one without folding and one with. They differ in
what operators carry, and where an exponent folds to two without being a literal: there the one has
a power and the other a square. `Follows` says which atom of the other an atom corresponds to.
There is one for every atom (`Paired.covered`) and never more (`Follows.unique`), so the table with
folding finds an atom wherever the one without does, and is never the larger, and it has no other
atoms (`Paired.reached`). What corresponds has the same value, or none (`Paired.value`), so every
atom of the one has a value just when every atom of the other has (`Paired.isSome_iff`).
-/

namespace Behavioral

def Atom.isInner : Atom → Bool
  | .apply _ _ _ _ _ => true
  | .element _ _ => true
  | _ => false

def Atom.isPower : Atom → Bool
  | .apply (.binary .pow) _ _ _ _ => true
  | _ => false

namespace AtomTable

variable {fold : Bool} {Leaf : ParseTree → Prop} {t t' t₀ off off' on on' : AtomTable} {n id : Nat}
  {a b : AtomId} {A B : Atom} {bindings : Bindings} {f g : AtomId → Option Float}

theorem Extends.get_eq (h : Extends t t') (hget : t.get id = A) (hA : A ≠ .sentinel) :
    t'.get id = A := by
  rw [h.get id (lt_size_of_get hget hA), hget]

theorem ne_sentinel_of_constant {x : Float} (h : A.constant? = some x) : A ≠ .sentinel := by
  rintro rfl
  cases h

/-- Nothing but literals and names behind the sentinel. -/
structure Leaves (t : AtomTable) : Prop where
  pos : 0 < t.size
  sentinel : t.get 0 = .sentinel
  leaf : ∀ id, Within t.size id → (∃ x, t.get id = .const x false) ∨ ∃ n, t.get id = .name n

theorem Leaves.sound (h : Leaves t) : Sound fold (fun _ => True) t := by
  refine ⟨h.pos, h.sentinel, fun id hid => ?_⟩
  rcases h.leaf id hid with ⟨x, hx⟩ | ⟨n, hn⟩
  · rw [hx]
    exact ⟨rfl, trivial⟩
  · rw [hn]
    trivial

theorem Leaves.isInner (h : Leaves t) (hid : id < t.size) : (t.get id).isInner = false := by
  rcases Nat.eq_zero_or_pos id with rfl | hpos
  · rw [h.sentinel]
    rfl
  · rcases h.leaf id ⟨hpos, hid⟩ with ⟨x, hx⟩ | ⟨n, hn⟩
    · rw [hx]
      rfl
    · rw [hn]
      rfl

/-- The second atom is what the first one corresponds to where folding is on. The first `n` atoms
are the literals and names, which are the same in both tables. -/
inductive Follows (n : Nat) (off on : AtomTable) : AtomId → AtomId → Prop
  | leaf {a : AtomId} : a < n → Follows n off on a a
  | one {a b x y : AtomId} {op : Op} {folded folded' : Option Float} {isBoolean : Bool} :
      off.get a = .apply op x none folded isBoolean →
      on.get b = .apply op y none folded' isBoolean → Follows n off on x y → Follows n off on a b
  | two {a b x y x' y' : AtomId} {op : Op} {folded folded' : Option Float} {isBoolean : Bool} :
      off.get a = .apply op x (some x') folded isBoolean →
      on.get b = .apply op y (some y') folded' isBoolean → y' < on.size →
      ¬(op = .binary .pow ∧ (on.get y').constant? = some 2) →
      Follows n off on x y → Follows n off on x' y' → Follows n off on a b
  | square {a b x y x' y' : AtomId} {folded folded' : Option Float} {isBoolean : Bool} :
      off.get a = .apply (.binary .pow) x (some x') folded isBoolean →
      on.get b = .apply (.unary .square) y none folded' isBoolean →
      (on.get y').constant? = some 2 →
      Follows n off on x y → Follows n off on x' y' → Follows n off on a b
  | element {a b x y x' y' : AtomId} :
      off.get a = .element x x' → on.get b = .element y y' →
      Follows n off on x y → Follows n off on x' y' → Follows n off on a b

theorem Follows.mono (hoff : Extends off off') (hon : Extends on on') (h : Follows n off on a b) :
    Follows n off' on' a b := by
  induction h with
  | leaf ha => exact .leaf ha
  | one ha hb _ ih => exact .one (hoff.get_eq ha nofun) (hon.get_eq hb nofun) ih
  | two ha hb hy hpow _ _ ih ih' =>
    refine .two (hoff.get_eq ha nofun) (hon.get_eq hb nofun) (hy.trans_le hon.size) ?_ ih ih'
    rwa [hon.get _ hy]
  | @square _ _ _ _ _ y' _ _ _ ha hb htwo _ _ ih ih' =>
    refine .square (hoff.get_eq ha nofun) (hon.get_eq hb nofun) ?_ ih ih'
    rw [hon.get_eq rfl (ne_sentinel_of_constant htwo), htwo]
  | element ha hb _ _ ih ih' => exact .element (hoff.get_eq ha nofun) (hon.get_eq hb nofun) ih ih'

/-- No two inner atoms have the same content. -/
def Canonical (t : AtomTable) : Prop :=
  ∀ i j, (t.get i).isInner = true → (t.get i).sameContent (t.get j) = true → i = j

theorem Canonical.grow (h : Canonical t) (hext : Extends t t') (hsize : t'.size = t.size + 1)
    (hget : t'.get t.size = A) (hnew : ∀ id < t.size, (t.get id).sameContent A = false) :
    Canonical t' := by
  have place (i : Nat) (hi : (t'.get i) ≠ .sentinel) : i < t.size ∨ i = t.size := by
    have hlt : i < t'.size := lt_size_of_get rfl hi
    omega
  intro i j hinner hsame
  have hi : t'.get i ≠ .sentinel := by
    intro hi
    rw [hi] at hinner
    cases hinner
  have hj : t'.get j ≠ .sentinel := by
    intro hj
    rw [hj] at hsame
    cases hget : t'.get i <;> rw [hget] at hsame <;> cases hsame
  rcases place i hi with hi | rfl <;> rcases place j hj with hj | rfl
  · rw [hext.get i hi] at hinner hsame
    rw [hext.get j hj] at hsame
    exact h i j hinner hsame
  · rw [hext.get i hi, hget, hnew i hi] at hsame
    cases hsame
  · rw [Atom.sameContent_comm, hext.get j hj, hget, hnew j hj] at hsame
    cases hsame
  · rfl

namespace Follows

variable {x x' : AtomId} {op : Op} {folded : Option Float} {isBoolean : Bool}

theorem one_inv (h : Follows n off on a b) (hget : off.get a = .apply op x none folded isBoolean)
    (ha : n ≤ a) : ∃ y folded', on.get b = .apply op y none folded' isBoolean ∧
      Follows n off on x y := by
  cases h with
  | leaf hlt => exact absurd hlt (Nat.not_lt.2 ha)
  | one hget' hb hx =>
    rw [hget] at hget'
    cases hget'
    exact ⟨_, _, hb, hx⟩
  | two hget' | square hget' | element hget' =>
    rw [hget] at hget'
    cases hget'

theorem two_inv (h : Follows n off on a b) (ha : n ≤ a)
    (hget : off.get a = .apply op x (some x') folded isBoolean) :
    ∃ y y' folded', Follows n off on x y ∧ Follows n off on x' y' ∧
      ((¬(op = .binary .pow ∧ (on.get y').constant? = some 2) ∧
          on.get b = .apply op y (some y') folded' isBoolean) ∨
        ((op = .binary .pow ∧ (on.get y').constant? = some 2) ∧
          on.get b = .apply (.unary .square) y none folded' isBoolean)) := by
  cases h with
  | leaf hlt => exact absurd hlt (Nat.not_lt.2 ha)
  | two hget' hb _ hpow hx hx' =>
    rw [hget] at hget'
    cases hget'
    exact ⟨_, _, _, hx, hx', .inl ⟨hpow, hb⟩⟩
  | square hget' hb htwo hx hx' =>
    rw [hget] at hget'
    cases hget'
    exact ⟨_, _, _, hx, hx', .inr ⟨⟨rfl, htwo⟩, hb⟩⟩
  | one hget' | element hget' =>
    rw [hget] at hget'
    cases hget'

theorem element_inv (h : Follows n off on a b) (ha : n ≤ a) (hget : off.get a = .element x x') :
    ∃ y y', on.get b = .element y y' ∧ Follows n off on x y ∧ Follows n off on x' y' := by
  cases h with
  | leaf hlt => exact absurd hlt (Nat.not_lt.2 ha)
  | element hget' hb hx hx' =>
    rw [hget] at hget'
    cases hget'
    exact ⟨_, _, hb, hx, hx'⟩
  | one hget' | two hget' | square hget' =>
    rw [hget] at hget'
    cases hget'

/-- An atom corresponds to one atom at most. -/
theorem unique (hleaf : ∀ a < n, (off.get a).isInner = false) (hcanonical : Canonical on)
    (h : Follows n off on a b) : ∀ {b'}, Follows n off on a b' → b = b' := by
  have behind {a : Nat} (hinner : (off.get a).isInner = true) : n ≤ a := by
    by_contra ha
    rw [hleaf a (Nat.lt_of_not_le ha)] at hinner
    cases hinner
  induction h with
  | leaf ha =>
    intro b' h'
    cases h' with
    | leaf => rfl
    | one hget | two hget | square hget | element hget =>
      exact absurd ha (Nat.not_lt.2 (behind (by rw [hget]; rfl)))
  | one hget hb _ ih =>
    intro b' h'
    obtain ⟨y, folded', hb', hx⟩ := h'.one_inv hget (behind (by rw [hget]; rfl))
    obtain rfl := ih hx
    exact hcanonical _ _ (by rw [hb]; rfl) (by simp [hb, hb', Atom.sameContent])
  | two hget hb _ hpow _ _ ih ih' =>
    intro b' h'
    obtain ⟨y, y', folded', hx, hx', hcase⟩ := h'.two_inv (behind (by rw [hget]; rfl)) hget
    obtain rfl := ih hx
    obtain rfl := ih' hx'
    obtain ⟨-, hb'⟩ := hcase.resolve_right fun h => hpow h.1
    exact hcanonical _ _ (by rw [hb]; rfl) (by simp [hb, hb', Atom.sameContent])
  | square hget hb htwo _ _ ih ih' =>
    intro b' h'
    obtain ⟨y, y', folded', hx, hx', hcase⟩ := h'.two_inv (behind (by rw [hget]; rfl)) hget
    obtain rfl := ih hx
    obtain rfl := ih' hx'
    obtain ⟨-, hb'⟩ := hcase.resolve_left fun h => h.1 ⟨rfl, htwo⟩
    exact hcanonical _ _ (by rw [hb]; rfl) (by simp [hb, hb', Atom.sameContent])
  | element hget hb _ _ ih ih' =>
    intro b' h'
    obtain ⟨y, y', hb', hx, hx'⟩ := h'.element_inv (behind (by rw [hget]; rfl)) hget
    obtain rfl := ih hx
    obtain rfl := ih' hx'
    exact hcanonical _ _ (by rw [hb]; rfl) (by simp [hb, hb', Atom.sameContent])

end Follows

/-- Raising to the power two squares, wherever one of the first `k` atoms does it. -/
def SquaresPowers (t : AtomTable) (k : Nat) (f : AtomId → Option Float) : Prop :=
  ∀ id < k, ∀ x x' folded isBoolean,
    t.get id = .apply (.binary .pow) x (some x') folded isBoolean →
      f x' = some 2 → ∀ v, f x = some v → v.pow 2 = v * v

/-- The tables that operators leave from the same literals and names, without folding and with
it. -/
structure Paired (t₀ off on : AtomTable) : Prop where
  leaves : Leaves t₀
  soundOff : Sound false (fun _ => True) off
  soundOn : Sound true (fun _ => True) on
  fromOff : Extends t₀ off
  fromOn : Extends t₀ on
  innerOff : Adds t₀ off (·.isInner = true)
  innerOn : Adds t₀ on (·.isInner = true)
  canonical : Canonical on
  covered : ∀ a < off.size, ∃ b < on.size, Follows t₀.size off on a b
  reached : ∀ b < on.size, ∃ a < off.size, Follows t₀.size off on a b
  size : on.size ≤ off.size

namespace Paired

theorem start (h : Leaves t) : Paired t t t where
  leaves := h
  soundOff := h.sound
  soundOn := h.sound
  fromOff := .refl t
  fromOn := .refl t
  innerOff := adds_refl
  innerOn := adds_refl
  canonical i j hinner _ := by
    by_cases hi : i < t.size
    · rw [h.isInner hi] at hinner
      cases hinner
    · rw [get_of_size_le (Nat.le_of_not_lt hi)] at hinner
      cases hinner
  covered a ha := ⟨a, ha, .leaf ha⟩
  reached a ha := ⟨a, ha, .leaf ha⟩
  size := le_rfl

variable (h : Paired t₀ off on)
include h

theorem isInner_leaf : ∀ a < t₀.size, (off.get a).isInner = false := by
  intro a ha
  rw [h.fromOff.get a ha]
  exact h.leaves.isInner ha

/-- New inner atoms keep the tables paired, as long as what is new in the one corresponds to an atom
of the other. -/
theorem grow (hoff : Extends off off') (hon : Extends on on')
    (hsoundOff : Sound false (fun _ => True) off') (hsoundOn : Sound true (fun _ => True) on')
    (hinnerOff : Adds off off' (·.isInner = true)) (hinnerOn : Adds on on' (·.isInner = true))
    (hcanonical : Canonical on')
    (hcovered : ∀ a, off.size ≤ a → a < off'.size → ∃ b < on'.size, Follows t₀.size off' on' a b)
    (hreached : ∀ b, on.size ≤ b → b < on'.size → ∃ a < off'.size, Follows t₀.size off' on' a b)
    (hsize : on'.size ≤ off'.size) : Paired t₀ off' on' where
  leaves := h.leaves
  soundOff := hsoundOff
  soundOn := hsoundOn
  fromOff := h.fromOff.trans hoff
  fromOn := h.fromOn.trans hon
  innerOff := h.innerOff.trans hinnerOff hoff
  innerOn := h.innerOn.trans hinnerOn hon
  canonical := hcanonical
  covered a ha := by
    by_cases hlt : a < off.size
    · obtain ⟨b, hb, hfollows⟩ := h.covered a hlt
      exact ⟨b, hb.trans_le hon.size, hfollows.mono hoff hon⟩
    · exact hcovered a (Nat.le_of_not_lt hlt) ha
  reached b hb := by
    by_cases hlt : b < on.size
    · obtain ⟨a, ha, hfollows⟩ := h.reached b hlt
      exact ⟨a, ha.trans_le hoff.size, hfollows.mono hoff hon⟩
    · exact hreached b (Nat.le_of_not_lt hlt) hb
  size := hsize

/-- Interning two atoms that correspond keeps the tables paired, unless the one without folding is
full. -/
theorem intern (hA : Formed false (fun _ => True) off off.size A)
    (hB : Formed true (fun _ => True) on on.size B) (hinnerA : A.isInner = true)
    (hinnerB : B.isInner = true)
    (hfollows : ∀ off' on' a b, Extends off off' → Extends on on' → off'.get a = A →
      on'.get b = B → Follows t₀.size off' on' a b) :
    (∃ a off' b on', off.intern A = .ok (a, off') ∧ on.intern B = .ok (b, on') ∧
      Extends off off' ∧ Extends on on' ∧ Paired t₀ off' on' ∧ Within off'.size a ∧
      Within on'.size b ∧ off'.get a = A ∧ on'.get b = B) ∨
    off.intern A = .error (.grammar (.tooManyAtoms limit)) := by
  have hconst {atom : Atom} (hinner : atom.isInner = true) (x : Float) (isBoolean : Bool)
      (hx : atom = .const x isBoolean) : Distinct fun _ => True := by
    rw [hx] at hinner
    cases hinner
  have hinnerEq {atom : Atom} {t t' : AtomTable} (hinner : atom.isInner = true)
      (hadds : Adds t t' (· = atom)) : Adds t t' (·.isInner = true) :=
    hadds.imp (by rintro _ rfl; exact hinner)
  rcases h.soundOff.intern_cases hA with ⟨a, hoff, ha, hsame⟩ |
    ⟨-, ⟨hroom, off', hoff, hextOff, hsoundOff, hsizeOff, hgetOff⟩ | ⟨-, hoff⟩⟩
  · -- the atom is there, so the one that it corresponds to is there as well
    have hget := (h.soundOff.formed a ha).eq_of_sameContent (hconst hinnerA) hA hsame
    rcases h.soundOn.intern_cases hB with ⟨b, hon, hb, hsame'⟩ | ⟨hnew, -⟩
    · have hget' := (h.soundOn.formed b hb).eq_of_sameContent (hconst hinnerB) hB hsame'
      exact .inl ⟨a, off, b, on, hoff, hon, .refl off, .refl on, h, ha, hb, hget, hget'⟩
    · obtain ⟨b, hb, hab⟩ := h.covered a ha.2
      have hext : Extends on { on with atoms := on.atoms.push B } := extends_push
      have hcanonical := h.canonical.grow hext size_push get_push_size hnew
      have hend := hfollows off _ a on.size (.refl off) hext hget get_push_size
      have hsame := (hab.mono (.refl off) hext).unique h.isInner_leaf hcanonical hend
      exact absurd hsame (Nat.ne_of_lt hb)
  · have haddsOff := hinnerEq hinnerA (adds_of_size hsizeOff hgetOff)
    have hnewOff (b : AtomId) (on' : AtomTable) (hext : Extends on on') (hb : b < on'.size)
        (hget : on'.get b = B) (a : Nat) (ha : off.size ≤ a) (ha' : a < off'.size) :
        ∃ b < on'.size, Follows t₀.size off' on' a b := by
      obtain rfl : a = off.size := by omega
      exact ⟨b, hb, hfollows off' on' _ b hextOff hext hgetOff hget⟩
    have hlast : Within off'.size off.size := ⟨h.soundOff.pos, by omega⟩
    have hnewOn (on' : AtomTable) (hext : Extends on on') (hsize : on'.size = on.size + 1)
        (hget : on'.get on.size = B) (b : Nat) (hb : on.size ≤ b) (hb' : b < on'.size) :
        ∃ a < off'.size, Follows t₀.size off' on' a b := by
      obtain rfl : b = on.size := by omega
      exact ⟨off.size, hlast.2, hfollows off' on' _ _ hextOff hext hgetOff hget⟩
    have hsize := h.size
    rcases h.soundOn.intern_cases hB with ⟨b, hon, hb, hsame⟩ |
      ⟨hnew, ⟨-, on', hon, hextOn, hsoundOn, hsizeOn, hgetOn⟩ | ⟨hfull, -⟩⟩
    · have hget := (h.soundOn.formed b hb).eq_of_sameContent (hconst hinnerB) hB hsame
      have hpaired := h.grow hextOff (.refl on) hsoundOff h.soundOn haddsOff adds_refl h.canonical
        (hnewOff b on (.refl on) hb.2 hget) (fun b hb hb' => absurd hb' (Nat.not_lt.2 hb)) (by omega)
      exact .inl ⟨_, off', b, on, hoff, hon, hextOff, .refl on, hpaired, hlast, hb, hgetOff, hget⟩
    · have hlast' : Within on'.size on.size := ⟨h.soundOn.pos, by omega⟩
      have hpaired := h.grow hextOff hextOn hsoundOff hsoundOn haddsOff
        (hinnerEq hinnerB (adds_of_size hsizeOn hgetOn))
        (h.canonical.grow hextOn hsizeOn hgetOn hnew)
        (hnewOff on.size on' hextOn hlast'.2 hgetOn) (hnewOn on' hextOn hsizeOn hgetOn) (by omega)
      exact .inl ⟨_, off', _, on', hoff, hon, hextOff, hextOn, hpaired, hlast, hlast', hgetOff,
        hgetOn⟩
    · omega
  · exact .inr hoff

/-- Without folding no operator carries a value, so what is constant is a literal. -/
theorem constant_eq {x : Float} (hab : Follows t₀.size off on a b)
    (hx : (off.get a).constant? = some x) : (on.get b).constant? = some x := by
  have hnone {op : Op} {a' : AtomId} {b' : Option AtomId} {folded : Option Float}
      {isBoolean : Bool} (hget : off.get a = .apply op a' b' folded isBoolean) : False := by
    have hformed := h.soundOff.formed a (h.soundOff.within_of_get hget nofun)
    rw [hget] at hformed hx
    obtain rfl : folded = none := by
      match op, b', hformed with
      | .unary _, none, ⟨_, _, _, hfolded⟩ => exact hfolded
      | .binary _, some _, ⟨_, _, _, hfolded⟩ => exact hfolded
      | .list _, some _, ⟨_, _, _, hfolded⟩ => exact hfolded
    cases hx
  cases hab with
  | leaf ha =>
    rw [h.fromOff.get a ha] at hx
    rw [h.fromOn.get a ha, hx]
  | one hget | two hget | square hget => exact (hnone hget).elim
  | element hget =>
    rw [hget] at hx
    cases hx

theorem isBoolean_eq (hab : Follows t₀.size off on a b) :
    (on.get b).isBoolean = (off.get a).isBoolean := by
  cases hab with
  | leaf ha => rw [h.fromOff.get a ha, h.fromOn.get a ha]
  | one hget hget' | two hget hget' | square hget hget' | element hget hget' =>
    rw [hget, hget']
    rfl

/-- What corresponds has the same value or none, where the squares of the bases are their powers. -/
theorem value {k : Nat} (hf : off.Valuation bindings f) (hg : on.Valuation bindings g)
    (hsquares : off.SquaresPowers k f) (hk : k ≤ off.size) (hab : Follows t₀.size off on a b) :
    a < k → b < on.size →
      f a = g b ∧ (off.chain off.size a).map f = (on.chain on.size b).map g := by
  have hoff := h.soundOff.backward
  have hon := h.soundOn.backward
  induction hab with
  | @leaf a ha =>
    intro hlt hlt'
    have hget := h.fromOff.get a ha
    have hget' := h.fromOn.get a ha
    have hleaf := h.leaves.isInner ha
    have hne (x y : AtomId) : t₀.get a ≠ .element x y := by
      intro hx
      rw [hx] at hleaf
      cases hleaf
    refine value_single (by rwa [hget]) (by rwa [hget']) ?_
    rw [hf a (hlt.trans_le hk), hg a hlt', hget, hget']
    cases hatom : t₀.get a with
    | sentinel | const | name => rfl
    | apply | element =>
      rw [hatom] at hleaf
      cases hleaf
  | @one a b x y op folded folded' isBoolean hget hget' _ ih =>
    intro hlt hlt'
    have hx : x < a := hoff a x (by simp [hget, Atom.operands])
    have hy : y < b := hon b y (by simp [hget', Atom.operands])
    obtain ⟨hvalue, -⟩ := ih (hx.trans hlt) (hy.trans hlt')
    refine value_single (by simp [hget]) (by simp [hget']) ?_
    rw [hf a (hlt.trans_le hk), hg b hlt', hget, hget']
    cases op <;> simp only [meaning, listArguments, List.map_cons, List.map_nil, hvalue]
  | @two a b x y x' y' op folded folded' isBoolean hget hget' _ _ _ _ ih ih' =>
    intro hlt hlt'
    have hx : x < a := hoff a x (by simp [hget, Atom.operands])
    have hx' : x' < a := hoff a x' (by simp [hget, Atom.operands])
    have hy : y < b := hon b y (by simp [hget', Atom.operands])
    have hy' : y' < b := hon b y' (by simp [hget', Atom.operands])
    obtain ⟨hvalue, -⟩ := ih (hx.trans hlt) (hy.trans hlt')
    obtain ⟨hvalue', hchain⟩ := ih' (hx'.trans hlt) (hy'.trans hlt')
    refine value_single (by simp [hget]) (by simp [hget']) ?_
    rw [hf a (hlt.trans_le hk), hg b hlt', hget, hget']
    cases op <;> simp only [meaning, listArguments, List.map_cons, hvalue, hvalue', hchain]
  | @square a b x y x' y' folded folded' isBoolean hget hget' htwo _ _ ih ih' =>
    intro hlt hlt'
    have hx : x < a := hoff a x (by simp [hget, Atom.operands])
    have hx' : x' < a := hoff a x' (by simp [hget, Atom.operands])
    have hy : y < b := hon b y (by simp [hget', Atom.operands])
    have hyWithin : Within on.size y' := h.soundOn.within_of_get rfl (ne_sentinel_of_constant htwo)
    obtain ⟨hvalue, -⟩ := ih (hx.trans hlt) (hy.trans hlt')
    obtain ⟨hvalue', -⟩ := ih' (hx'.trans hlt) hyWithin.2
    have hexponent : f x' = some 2 := hvalue'.trans (h.soundOn.constant_value hg hyWithin htwo)
    refine value_single (by simp [hget]) (by simp [hget']) ?_
    have hpow := hsquares a hlt x x' folded isBoolean hget hexponent
    rw [hf a (hlt.trans_le hk), hg b hlt', hget, hget', meaning_binary, meaning_unary, hexponent,
      ← hvalue]
    cases hv : f x with
    | none => rfl
    | some v => exact congrArg some (hpow v hv)
  | @element a b x y x' y' hget hget' _ _ ih ih' =>
    intro hlt hlt'
    have hx := hoff.element hget
    have hy := hon.element hget'
    obtain ⟨hvalue, -⟩ := ih (hx.1.trans hlt) (hy.1.trans hlt')
    obtain ⟨-, hchain⟩ := ih' (hx.2.trans hlt) (hy.2.trans hlt')
    constructor
    · rw [hf a (hlt.trans_le hk), hg b hlt', hget, hget']
      rfl
    · rw [chain_element hoff hget (hlt.trans_le hk), chain_element hon hget' hlt', List.map_cons,
        List.map_cons, hvalue, hchain]

/-- Every atom of the one table has a value just when every atom of the other has. -/
theorem isSome_iff (hf : off.Valuation bindings f) (hg : on.Valuation bindings g)
    (hsquares : off.SquaresPowers off.size f) :
    (∀ a < off.size, (f a).isSome) ↔ ∀ b < on.size, (g b).isSome := by
  constructor
  · intro hall b hb
    obtain ⟨a, ha, hab⟩ := h.reached b hb
    rw [← (h.value hf hg hsquares le_rfl hab ha hb).1]
    exact hall a ha
  · intro hall a ha
    obtain ⟨b, hb, hab⟩ := h.covered a ha
    rw [(h.value hf hg hsquares le_rfl hab ha hb).1]
    exact hall b hb

end Paired

end AtomTable

end Behavioral
