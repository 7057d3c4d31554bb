import Behavioral.Number.Breakpoints
import Behavioral.Proofs.Ordering

/-!
# Looking up a table

The bisection keeps a breakpoint left of the index in front of what it searches, and one that is not
left of it behind (`Brackets.bisect`). So where the index is not clamped it ends at a breakpoint of
the table, and a lookup that reads the flat row finds every number that it asks for, unless it asks
for the segment in front of the first breakpoint (`lookup?_eq`). That happens just when the first
abscissa is not a number and the index is sent there (`lookup_eq_none_iff`).

In a table of numbers the segment has a width (`Brackets.found`). If the abscissae do not decrease
then the breakpoint is the first one that is not left of the index, which looking at one after the
other finds as well (`lookup_eq_scan`).
-/

namespace Behavioral

namespace Breakpoints

variable {points : List Float} {t : Breakpoints} {index : Float} {low high i : Nat}

/-! ### The flat row -/

/-- The abscissa of breakpoint `i` in a row, if the row reaches so far. -/
def x? (points : List Float) (i : Nat) : Option Float :=
  points[2 * i]?

def y? (points : List Float) (i : Nat) : Option Float :=
  points[2 * i + 1]?

/-- Bisects as `bisect` does, and fails where the row does not reach. -/
def bisect? (points : List Float) (index : Float) (low high : Nat) : Option Nat :=
  if low < high then
    let mid := low + (high - low) / 2
    match x? points mid with
    | none => none
    | some x =>
      if x < index then bisect? points index (mid + 1) high else bisect? points index low mid
  else some low
termination_by high - low

/-- There is no segment in front of the first breakpoint. -/
def interpolate? (points : List Float) (index : Float) : Nat → Option Float
  | 0 => none
  | i + 1 => do
    let rise := (← y? points (i + 1)) - (← y? points i)
    let slope := rise / ((← x? points (i + 1)) - (← x? points i))
    return (index - (← x? points i)) * slope + (← y? points i)

/-- Looks up as `lookup` does, and fails where the row does not reach. -/
def lookup? (points : List Float) (index : Float) : Option Float := do
  let size := points.length / 2
  if size = 0 ∨ index.isNaN then return notANumber
  else if index < (← x? points 0) then y? points 0
  else if index > (← x? points (size - 1)) then y? points (size - 1)
  else
    let i ← bisect? points index 0 size
    if close (← x? points i) index then y? points i else interpolate? points index i

theorem length_pairs (points : List Float) : (pairs points).length = points.length / 2 := by
  fun_induction pairs points with
  | case1 x y rest ih => simp only [List.length_cons, ih]; omega
  | case2 points hshort =>
    rcases points with _ | ⟨x, _ | ⟨y, rest⟩⟩
    · rfl
    · simp
    · exact absurd rfl (hshort x y rest)

theorem size_ofFlat (points : List Float) : (ofFlat points).size = points.length / 2 := by
  simp [ofFlat, length_pairs]

theorem getElem?_flat (points : List Float) (hi : i < (pairs points).length) :
    points[2 * i]? = some (pairs points)[i].1 ∧ points[2 * i + 1]? = some (pairs points)[i].2 := by
  fun_induction pairs points generalizing i with
  | case1 x y rest ih =>
    rcases i with _ | i
    · exact ⟨rfl, rfl⟩
    · exact ih (Nat.lt_of_succ_lt_succ hi)
  | case2 points hshort => cases hi

theorem x_eq (hi : i < t.size) : t.x i = t[i].1 := by
  simp [x, hi]

theorem x?_eq (hi : i < (ofFlat points).size) : x? points i = some ((ofFlat points).x i) := by
  have hi : i < (pairs points).length := by simpa [ofFlat] using hi
  simp [x?, (getElem?_flat points hi).1, Breakpoints.x, ofFlat, hi]

theorem y?_eq (hi : i < (ofFlat points).size) : y? points i = some ((ofFlat points).y i) := by
  have hi : i < (pairs points).length := by simpa [ofFlat] using hi
  simp [y?, (getElem?_flat points hi).2, Breakpoints.y, ofFlat, hi]

theorem interpolate?_eq (hi : i < (ofFlat points).size) :
    interpolate? points index i = (ofFlat points).interpolate index i := by
  rcases i with _ | i
  · rfl
  · have hprev : i < (ofFlat points).size := by omega
    simp only [interpolate?, x?_eq hi, y?_eq hi, x?_eq hprev, y?_eq hprev]
    rfl

/-! ### Bisecting -/

/-- What is searched lies between a breakpoint left of the index, or the start of the table, and one
that is not left of it, or the end. -/
structure Brackets (t : Breakpoints) (index : Float) (low high : Nat) : Prop where
  ordered : low ≤ high
  within : high ≤ t.size
  below : low = 0 ∨ t.x (low - 1) < index
  above : high = t.size ∨ ¬t.x high < index

namespace Brackets

theorem whole (t : Breakpoints) (index : Float) : Brackets t index 0 t.size :=
  ⟨Nat.zero_le _, le_rfl, .inl rfl, .inl rfl⟩

/-- A breakpoint left of the index moves the search behind it. -/
theorem behind (h : Brackets t index low high) (hi : i < high) (hx : t.x i < index) :
    Brackets t index (i + 1) high :=
  ⟨hi, h.within, .inr hx, h.above⟩

/-- A breakpoint that is not left of the index moves the search in front of it. -/
theorem front (h : Brackets t index low high) (hi : i < high) (hlow : low ≤ i)
    (hx : ¬t.x i < index) : Brackets t index low i :=
  ⟨hlow, hi.le.trans h.within, h.below, .inr hx⟩

theorem bisect (h : Brackets t index low high) :
    Brackets t index (t.bisect index low high) (t.bisect index low high) := by
  fun_induction Breakpoints.bisect t index low high with
  | case1 low high hlt mid hx ih => exact ih (h.behind (by omega) hx)
  | case2 low high hlt mid hx ih => exact ih (h.front (by omega) (by omega) hx)
  | case3 low high hlt =>
    obtain rfl : low = high := by have := h.ordered; omega
    exact h

end Brackets

theorem bisect?_eq (hhigh : high ≤ (ofFlat points).size) :
    bisect? points index low high = some ((ofFlat points).bisect index low high) := by
  fun_induction Breakpoints.bisect (ofFlat points) index low high with
  | case1 low high hlt mid hx ih =>
    have hread := @x?_eq points (low + (high - low) / 2) (by omega)
    rw [bisect?, if_pos hlt]
    simp only [hread]
    rw [if_pos hx]
    exact ih hhigh
  | case2 low high hlt mid hx ih =>
    have hread := @x?_eq points (low + (high - low) / 2) (by omega)
    rw [bisect?, if_pos hlt]
    simp only [hread]
    rw [if_neg hx]
    exact ih (by omega)
  | case3 low high hlt => rw [bisect?, if_neg hlt]

/-! ### Where the bisection ends -/

/-- The index lies in front of the table or behind it. -/
def Clamps (t : Breakpoints) (index : Float) : Prop :=
  index < t.x 0 ∨ t.x (t.size - 1) < index

/-- The breakpoint at which bisecting the whole table ends. -/
def landing (t : Breakpoints) (index : Float) : Nat :=
  t.bisect index 0 t.size

/-- The abscissae do not decrease. -/
def Nondecreasing (t : Breakpoints) : Prop :=
  ∀ i < t.size - 1, t.x i ≤ t.x (i + 1)

instance : Decidable (t.Clamps index) :=
  inferInstanceAs (Decidable (_ ∨ _))

instance : Decidable t.Nondecreasing :=
  inferInstanceAs (Decidable (∀ i < t.size - 1, t.x i ≤ t.x (i + 1)))

/-- Looks at the breakpoints one after the other, for the first that is not left of the index. -/
def scan (t : Breakpoints) (index : Float) : Option Float :=
  if index < t.x 0 then some (t.y 0)
  else if index > t.x (t.size - 1) then some (t.y (t.size - 1))
  else
    let i := t.findIdx fun p => index ≤ p.1
    if close (t.x i) index then some (t.y i) else t.interpolate index i

/-- An index that is sent to the first breakpoint, where no segment ends, because the abscissa there
is not a number. -/
structure Strays (t : Breakpoints) (index : Float) : Prop where
  size : 0 < t.size
  position : index.isNaN = false
  first : (t.x 0).isNaN = true
  apart : close (t.x 0) index = false
  last : ¬t.x (t.size - 1) < index
  lands : t.landing index = 0

/-- The bisection ends behind the table only for an index that is clamped. -/
theorem Brackets.lt_size (h : Brackets t index i i) (hsize : 0 < t.size)
    (hlast : ¬t.x (t.size - 1) < index) : i < t.size := by
  refine lt_of_le_of_ne h.within fun heq => hlast ?_
  subst heq
  exact h.below.resolve_left hsize.ne'

theorem lookup_of_not_clamps (hsize : t.size ≠ 0) (hindex : index.isNaN = false)
    (hclamps : ¬t.Clamps index) : t.lookup index =
      if close (t.x (t.landing index)) index then some (t.y (t.landing index))
      else t.interpolate index (t.landing index) := by
  obtain ⟨hfront, hbehind⟩ := not_or.1 hclamps
  have hnumber : ¬(t.size = 0 ∨ index.isNaN = true) :=
    not_or.2 ⟨hsize, Bool.eq_false_iff.1 hindex⟩
  rw [lookup, if_neg hnumber, if_neg hfront, if_neg hbehind, landing]

theorem isSome_lookup_of_clamps (hclamps : t.Clamps index) : (t.lookup index).isSome = true := by
  rw [lookup]
  split
  · rfl
  · split
    · rfl
    · rw [if_pos (hclamps.resolve_left ‹_›)]
      rfl

/-- A lookup has no value just when the index strays. -/
theorem lookup_eq_none_iff : t.lookup index = none ↔ t.Strays index := by
  constructor
  · intro hnone
    have hclamps : ¬t.Clamps index := fun hclamps => by
      simpa [hnone] using isSome_lookup_of_clamps hclamps
    by_cases hnumber : t.size = 0 ∨ index.isNaN = true
    · rw [lookup, if_pos hnumber] at hnone
      cases hnone
    obtain ⟨hsize, hindex⟩ := not_or.1 hnumber
    have hsize : 0 < t.size := Nat.pos_of_ne_zero hsize
    have hindex : index.isNaN = false := Bool.eq_false_iff.2 hindex
    rw [lookup_of_not_clamps hsize.ne' hindex hclamps] at hnone
    obtain ⟨hfront, hbehind⟩ := not_or.1 hclamps
    split at hnone
    · cases hnone
    · rename_i hclose
      have hends : Brackets t index (t.landing index) (t.landing index) :=
        (Brackets.whole t index).bisect
      have hlands : t.landing index = 0 := by
        rcases hi : t.landing index with _ | i
        · rfl
        · rw [hi] at hnone
          cases hnone
      rw [hlands] at hclose hends
      have hapart : ¬t.x 0 < index := hends.above.resolve_left hsize.ne
      refine ⟨hsize, hindex, ?_, Bool.eq_false_iff.2 hclose, hbehind, hlands⟩
      -- two numbers neither of which is left of the other are equal, and so close
      by_contra hfirst
      have hfirst : (t.x 0).isNaN = false := Bool.eq_false_iff.2 hfirst
      have hat := Double.beq_of_le hfirst hindex ((Double.not_lt_iff hindex hfirst).1 hfront)
        ((Double.not_lt_iff hfirst hindex).1 hapart)
      simp [close, hat] at hclose
  · intro h
    have hclamps : ¬t.Clamps index := not_or.2 ⟨Double.not_lt_of_isNaN h.first, h.last⟩
    rw [lookup_of_not_clamps h.size.ne' h.position hclamps, h.lands, h.apart]
    rfl

instance : Decidable (t.Strays index) :=
  decidable_of_iff _ lookup_eq_none_iff

section Numbers

variable (hx : ∀ i < t.size, (t.x i).isNaN = false) (hindex : index.isNaN = false)
include hx hindex

/-- An index that is not clamped is at the breakpoint that is found, or on the segment that ends
there. -/
theorem Brackets.found (h : Brackets t index i i) (hsize : 0 < t.size) (hclamps : ¬t.Clamps index) :
    i < t.size ∧ index ≤ t.x i ∧ ((t.x i == index) = true ∨ 1 ≤ i ∧ t.x (i - 1) < index) := by
  have hi : i < t.size := h.lt_size hsize fun hlast => hclamps (.inr hlast)
  have hle : index ≤ t.x i := (Double.not_lt_iff (hx i hi) hindex).1 (h.above.resolve_left hi.ne)
  refine ⟨hi, hle, ?_⟩
  rcases Nat.eq_zero_or_pos i with rfl | hpos
  · have hge := (Double.not_lt_iff hindex (hx 0 hi)).1 fun hlt => hclamps (.inl hlt)
    exact .inl (Double.beq_of_le (hx 0 hi) hindex hge hle)
  · exact .inr ⟨hpos, h.below.resolve_left hpos.ne'⟩

/-- A segment on which an index is interpolated has a width. -/
theorem Brackets.width_pos (h : Brackets t index i i) (hsize : 0 < t.size)
    (hclamps : ¬t.Clamps index) (hclose : close (t.x i) index = false) :
    1 ≤ i ∧ t.x (i - 1) < index ∧ 0 < t.x i - t.x (i - 1) := by
  obtain ⟨hi, hle, hat | ⟨hpos, hlt⟩⟩ := h.found hx hindex hsize hclamps
  · simp [close, hat] at hclose
  · have hprev : i - 1 < t.size := by omega
    exact ⟨hpos, hlt, Double.sub_pos_of_lt
      (Double.trans_lt_le (hx _ hprev) hindex (hx i hi) hlt hle)⟩

omit hindex in
theorem Nondecreasing.le (h : t.Nondecreasing) {j : Nat} (hij : i ≤ j) (hj : j < t.size) :
    t.x i ≤ t.x j := by
  induction j, hij using Nat.le_induction with
  | base => exact (Double.le_iff (hx i hj) (hx i hj)).2 le_rfl
  | succ j hij ih =>
    exact Double.trans_le (hx i (by omega)) (hx j (by omega)) (hx _ hj) (ih (by omega))
      (h j (by omega))

/-- In a table that does not decrease, the breakpoint that is found is the first one that is not
left of the index. -/
theorem Brackets.isLeast (h : Brackets t index i i) (hsize : 0 < t.size)
    (hclamps : ¬t.Clamps index) (hsorted : t.Nondecreasing) :
    IsLeast {j | j < t.size ∧ index ≤ t.x j} i := by
  obtain ⟨hi, hle, -⟩ := h.found hx hindex hsize hclamps
  refine ⟨⟨hi, hle⟩, fun j ⟨hj, hjle⟩ => ?_⟩
  by_contra hlt
  have hprev : t.x (i - 1) < index := h.below.resolve_left (by omega)
  have hj' := hsorted.le hx (i := j) (j := i - 1) (by omega) (by omega)
  have hbefore := Double.trans_le_lt (hx j hj) (hx _ (by omega)) hindex hj' hprev
  exact (Double.not_lt_iff (hx j hj) hindex).2 hjle hbefore

theorem scan_eq (h : Brackets t index i i) (hsize : 0 < t.size) (hclamps : ¬t.Clamps index)
    (hsorted : t.Nondecreasing) : t.findIdx (fun p => index ≤ p.1) = i := by
  obtain ⟨⟨hi, hle⟩, hfirst⟩ := h.isLeast hx hindex hsize hclamps hsorted
  rw [Array.findIdx_eq hi, ← x_eq hi, decide_eq_true_iff]
  refine ⟨hle, fun j hj => ?_⟩
  rw [← x_eq (hj.trans hi), decide_eq_false_iff_not]
  exact fun hjle => hj.not_ge (hfirst ⟨hj.trans hi, hjle⟩)

/-- Looking at one breakpoint after the other finds what bisecting does. -/
theorem lookup_eq_scan (hsize : 0 < t.size) (hsorted : t.Nondecreasing) :
    t.lookup index = t.scan index := by
  have hnumber : ¬(t.size = 0 ∨ index.isNaN = true) :=
    not_or.2 ⟨hsize.ne', Bool.eq_false_iff.1 hindex⟩
  rw [lookup, if_neg hnumber, scan]
  split
  · rfl
  · split
    · rfl
    · rw [scan_eq hx hindex (Brackets.whole t index).bisect hsize (not_or.2 ⟨‹_›, ‹_›⟩) hsorted]

end Numbers

/-- Nothing is read from outside the row, unless the index strays. -/
theorem lookup?_eq (points : List Float) (index : Float) :
    lookup? points index = (ofFlat points).lookup index := by
  have hsize := size_ofFlat points
  rw [lookup?, lookup]
  simp only [← hsize]
  by_cases hnumber : (ofFlat points).size = 0 ∨ index.isNaN = true
  · rw [if_pos hnumber, if_pos hnumber]
    rfl
  · have hpos : 0 < (ofFlat points).size := by omega
    rw [if_neg hnumber, if_neg hnumber, x?_eq hpos, y?_eq hpos, x?_eq (i := _ - 1) (by omega)]
    simp only [Option.bind_eq_bind, Option.bind_some]
    split
    · rfl
    · split
      · exact y?_eq (by omega)
      · rename_i hbehind
        have hi := (Brackets.whole (ofFlat points) index).bisect.lt_size hpos hbehind
        rw [bisect?_eq le_rfl, Option.bind_some, x?_eq hi, Option.bind_some]
        split
        · exact y?_eq hi
        · exact interpolate?_eq hi

/-- In a table of numbers no index strays. -/
theorem exists_lookup (index : Float) (hx : ∀ i < t.size, (t.x i).isNaN = false) :
    ∃ y, t.lookup index = some y := by
  refine Option.ne_none_iff_exists'.1 fun hnone => ?_
  have hstrays := lookup_eq_none_iff.1 hnone
  exact Bool.false_ne_true ((hx 0 hstrays.size).symm.trans hstrays.first)

/-- An index in a table of numbers is looked up without reading past the table. Unless it is clamped
it is at the breakpoint that the bisection finds, or interpolated on the segment that ends there,
which has a width. In a table that does not decrease, that is the first breakpoint not left of the
index. -/
theorem lookup_breakpoints (hne : points ≠ []) (heven : points.length % 2 = 0)
    (hx : ∀ p ∈ pairs points, p.1.isNaN = false) (hindex : index.isNaN = false) :
    let t := ofFlat points
    let i := t.bisect index 0 t.size
    (∃ y, lookup? points index = some y ∧ t.lookup index = some y) ∧
      (¬t.Clamps index →
        (i < t.size ∧ index ≤ t.x i ∧ ((t.x i == index) = true ∨ 1 ≤ i ∧ t.x (i - 1) < index)) ∧
        (close (t.x i) index = false →
          1 ≤ i ∧ t.x (i - 1) < index ∧ 0 < t.x i - t.x (i - 1))) ∧
      (t.Nondecreasing →
        (¬t.Clamps index → IsLeast {j | j < t.size ∧ index ≤ t.x j} i) ∧
        t.lookup index = t.scan index) := by
  intro t i
  have hsize : 0 < t.size := by
    have := List.length_pos_iff.2 hne
    rw [size_ofFlat]
    omega
  have hx : ∀ i < t.size, (t.x i).isNaN = false := fun i hi => by
    rw [x_eq hi]
    exact hx _ (List.mem_toArray.1 (Array.getElem_mem hi))
  have hends : Brackets t index i i := (Brackets.whole t index).bisect
  obtain ⟨y, hy⟩ := exists_lookup index hx
  exact ⟨⟨y, (lookup?_eq points index).trans hy, hy⟩, fun hclamps =>
    ⟨hends.found hx hindex hsize hclamps, hends.width_pos hx hindex hsize hclamps⟩, fun hsorted =>
    ⟨fun hclamps => hends.isLeast hx hindex hsize hclamps hsorted,
    lookup_eq_scan hx hindex hsize hsorted⟩⟩

/-- A ramp with a step from 10 to 12 at 1. -/
def steppedRamp : List Float :=
  [0, 0, 1, 10, 1, 12, 3, 20]

theorem lookup_breakpoints_steppedRamp :
    steppedRamp ≠ [] ∧ steppedRamp.length % 2 = 0 ∧
      (∀ p ∈ pairs steppedRamp, p.1.isNaN = false) ∧ (2 : Float).isNaN = false ∧
      (ofFlat steppedRamp).Nondecreasing ∧ ¬(ofFlat steppedRamp).Clamps 2 ∧
      IsLeast {j | j < 4 ∧ 2 ≤ (ofFlat steppedRamp).x j} ((ofFlat steppedRamp).bisect 2 0 4) ∧
      lookup? steppedRamp 2 = some 16 := by
  have hne : steppedRamp ≠ [] := by decide
  have heven : steppedRamp.length % 2 = 0 := by decide
  have hx : ∀ p ∈ pairs steppedRamp, p.1.isNaN = false := by decide +kernel
  have hindex : (2 : Float).isNaN = false := by decide +kernel
  have hsorted : (ofFlat steppedRamp).Nondecreasing := by decide +kernel
  have hclamps : ¬(ofFlat steppedRamp).Clamps 2 := by decide +kernel
  have hscan : (ofFlat steppedRamp).scan 2 = some 16 := by decide +kernel
  obtain ⟨⟨y, hread, hlookup⟩, -, hleast⟩ := lookup_breakpoints hne heven hx hindex
  refine ⟨hne, heven, hx, hindex, hsorted, hclamps, (hleast hsorted).1 hclamps, ?_⟩
  rw [hread, ← hlookup, (hleast hsorted).2, hscan]

end Breakpoints

end Behavioral
