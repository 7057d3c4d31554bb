import Behavioral.Proofs.Lookup
import Behavioral.Proofs.Scaling

/-!
# Tables in another unit

Scaling the abscissae of a table and the index by a power of two changes neither which of them is
left of which, nor the line through two breakpoints at the index, as long as nothing gets too large
or too small for a double. So the same index is clamped, the bisection lands at the same breakpoint
(`landing_scale`) and interpolation gives the same number (`interpolate_scale`). What may change is
whether the index is taken to be at that breakpoint: a difference of `2 ^ -52` counts as none in
every unit. The lookups agree exactly where that does not matter (`lookup_scale_iff`), and do not
where the abscissae are that small (`lookup_scale_thin`).
-/

namespace Behavioral.Breakpoints

open Double

variable {t : Breakpoints} {s index : Float} {k : ℤ} {i low high : Nat}

/-- The table with its abscissae in another unit. -/
def scale (t : Breakpoints) (s : Float) : Breakpoints :=
  t.map fun p => (p.1 * s, p.2)

/-- The index is on a segment and not taken to be at the end of it. -/
def Interpolates (t : Breakpoints) (index : Float) : Prop :=
  ¬t.Clamps index ∧ close (t.x (t.landing index)) index = false

/-- The run to the index, the width of the segment that ends at breakpoint `i` and its slope are
neither too large nor too small for a double. -/
structure SegmentFits (t : Breakpoints) (index : Float) (i : Nat) : Prop where
  run : Fits (toRat index - toRat (t.x (i - 1))) (index - t.x (i - 1))
  width : Fits (toRat (t.x i) - toRat (t.x (i - 1))) (t.x i - t.x (i - 1))
  /-- Ordinates may be infinite, and differ by more than the largest double. -/
  slope : (t.y i - t.y (i - 1)).isFinite = true →
    Fits (toRat (t.y i - t.y (i - 1)) / toRat (t.x i - t.x (i - 1)))
      ((t.y i - t.y (i - 1)) / (t.x i - t.x (i - 1)))

/-- Nothing gets too large or too small for a double, neither in scaling the abscissae and the index
nor in interpolating before and after. -/
structure Scales (t : Breakpoints) (s index : Float) : Prop where
  abscissa : ∀ i < t.size, Fits (toRat (t.x i) * toRat s) (t.x i * s)
  position : Fits (toRat index * toRat s) (index * s)
  segment : t.Interpolates index → (t.scale s).Interpolates (index * s) →
    t.SegmentFits index (t.landing index) ∧
      (t.scale s).SegmentFits (index * s) (t.landing index)

instance : Decidable (t.Interpolates index) :=
  inferInstanceAs (Decidable (_ ∧ _))

instance : Decidable (t.SegmentFits index i) :=
  decidable_of_iff (_ ∧ _ ∧ _)
    ⟨fun ⟨run, width, slope⟩ => ⟨run, width, slope⟩, fun h => ⟨h.run, h.width, h.slope⟩⟩

instance : Decidable (t.Scales s index) :=
  decidable_of_iff (_ ∧ _ ∧ _)
    ⟨fun ⟨abscissa, position, segment⟩ => ⟨abscissa, position, segment⟩,
      fun h => ⟨h.abscissa, h.position, h.segment⟩⟩

theorem size_scale : (t.scale s).size = t.size :=
  Array.size_map

theorem x_scale (hi : i < t.size) : (t.scale s).x i = t.x i * s := by
  simp [x, scale, hi]

theorem y_scale (i : Nat) : (t.scale s).y i = t.y i := by
  by_cases hi : i < t.size
  · simp [y, scale, hi]
  · simp [y, scale, hi]

theorem lookup_of_clamps (hsize : t.size ≠ 0) (hindex : index.isNaN = false)
    (hclamps : t.Clamps index) :
    t.lookup index = some (if index < t.x 0 then t.y 0 else t.y (t.size - 1)) := by
  have hnumber : ¬(t.size = 0 ∨ index.isNaN = true) :=
    not_or.2 ⟨hsize, Bool.eq_false_iff.1 hindex⟩
  rw [lookup, if_neg hnumber]
  split
  · rfl
  · exact if_pos (hclamps.resolve_left ‹_›)

theorem bisect_scale (hlt : ∀ i < t.size, ((t.scale s).x i < index * s ↔ t.x i < index))
    (hhigh : high ≤ t.size) :
    (t.scale s).bisect (index * s) low high = t.bisect index low high := by
  fun_induction Breakpoints.bisect t index low high with
  | case1 low high hlow mid hx ih =>
    have hmid : low + (high - low) / 2 < t.size := by omega
    rw [Breakpoints.bisect, if_pos hlow]
    simp only
    rw [if_pos ((hlt _ hmid).2 hx)]
    exact ih hhigh
  | case2 low high hlow mid hx ih =>
    have hmid : low + (high - low) / 2 < t.size := by omega
    rw [Breakpoints.bisect, if_pos hlow]
    simp only
    rw [if_neg fun h => hx ((hlt _ hmid).1 h)]
    exact ih hmid.le
  | case3 low high hlow => rw [Breakpoints.bisect, if_neg hlow]

section

variable (hs : toRat s = 2 ^ k) (hx : ∀ i < t.size, (t.x i).isFinite = true)
  (hindex : index.isFinite = true) (hscales : t.Scales s index)
include hs hx hindex hscales

omit hindex in
theorem Scales.rescaled (hi : i < t.size) : Rescaled k (t.x i) (t.x i * s) := by
  have hfits := hscales.abscissa i hi
  rw [hs] at hfits
  exact mul_rescaled (hx i hi) hs hfits

omit hx in
theorem Scales.rescaled_index : Rescaled k index (index * s) := by
  have hfits := hscales.position
  rw [hs] at hfits
  exact mul_rescaled hindex hs hfits

theorem index_lt_scale (hi : i < t.size) : index * s < (t.scale s).x i ↔ index < t.x i := by
  rw [x_scale hi]
  exact (hscales.rescaled_index hs hindex).lt_iff (hscales.rescaled hs hx hi) hindex (hx i hi)

theorem lt_index_scale (hi : i < t.size) : (t.scale s).x i < index * s ↔ t.x i < index := by
  rw [x_scale hi]
  exact (hscales.rescaled hs hx hi).lt_iff (hscales.rescaled_index hs hindex) (hx i hi) hindex

theorem landing_scale : (t.scale s).landing (index * s) = t.landing index := by
  rw [landing, size_scale]
  exact bisect_scale (fun i hi => lt_index_scale hs hx hindex hscales hi) le_rfl

theorem clamps_scale (hsize : t.size ≠ 0) : (t.scale s).Clamps (index * s) ↔ t.Clamps index := by
  rw [Clamps, Clamps, size_scale, index_lt_scale hs hx hindex hscales (by omega),
    lt_index_scale hs hx hindex hscales (by omega)]

theorem lookup_scale_of_clamps (hsize : t.size ≠ 0) (hclamps : t.Clamps index) :
    (t.scale s).lookup (index * s) = t.lookup index := by
  have hclamps' := (clamps_scale hs hx hindex hscales hsize).2 hclamps
  have hsize' : (t.scale s).size ≠ 0 := size_scale.symm ▸ hsize
  have hfirst := index_lt_scale hs hx hindex hscales (i := 0) (by omega)
  rw [lookup_of_clamps hsize (isNaN_of_isFinite hindex) hclamps,
    lookup_of_clamps hsize' (isNaN_of_isFinite hscales.position.1) hclamps', size_scale, y_scale,
    y_scale]
  simp only [hfirst]

/-- On a segment with a width, the line through its breakpoints is the same in both units. -/
theorem interpolate_scale (hi : i < t.size) (hpos : 1 ≤ i) (hrun : t.x (i - 1) < index)
    (hwidth : t.x (i - 1) < t.x i) (hfits : t.SegmentFits index i)
    (hfits' : (t.scale s).SegmentFits (index * s) i) :
    (t.scale s).interpolate (index * s) i = t.interpolate index i := by
  obtain ⟨i, rfl⟩ : ∃ k, i = k + 1 := ⟨i - 1, by omega⟩
  rw [Nat.add_sub_cancel] at hrun hwidth
  have hprev : i < t.size := by omega
  have hfront := hscales.rescaled hs hx hprev
  have hend := hscales.rescaled hs hx hi
  obtain ⟨hrunFits, hwidthFits, hslopeFits⟩ := hfits
  obtain ⟨hrun', hwidth', hslope'⟩ := hfits'
  simp only [Nat.add_sub_cancel] at hrunFits hwidthFits hslopeFits
  simp only [Nat.add_sub_cancel, x_scale hi, x_scale hprev, y_scale] at hrun' hwidth' hslope'
  have hwide := toRat_pos_of_pos hwidthFits.1 (Double.sub_pos_of_lt hwidth)
  have hruns := sub_rescaled (hscales.rescaled_index hs hindex) hfront hindex (hx _ hprev) hrun
    hrunFits hrun'
  have hwidths := sub_rescaled hend hfront (hx _ hi) (hx _ hprev) hwidth hwidthFits hwidth'
  have hslopes := div_rescaled hwidths hwide hslopeFits hslope'
  simp only [interpolate, line, x_scale hi, x_scale hprev, y_scale]
  rw [← mul_eq_of_rescaled hruns hslopes]

end

/-- In a table of finite abscissae, a finite index is looked up alike in all units in which nothing
gets too large or too small, if it is clamped, or if it is taken in both units to be at the
breakpoint where the bisection lands, or in neither. Otherwise the one lookup gives the ordinate of
the breakpoint and the other interpolates. -/
theorem lookup_scale_iff (hs : toRat s = 2 ^ k) (hx : ∀ i < t.size, (t.x i).isFinite = true)
    (hindex : index.isFinite = true) (hscales : t.Scales s index) :
    let i := t.landing index
    (t.scale s).lookup (index * s) = t.lookup index ↔
      t.size = 0 ∨ t.Clamps index ∨ close (t.x i * s) (index * s) = close (t.x i) index ∨
        some (t.y i) = if close (t.x i) index then (t.scale s).interpolate (index * s) i
          else t.interpolate index i := by
  intro i
  have hnumber := isNaN_of_isFinite hindex
  by_cases hsize : t.size = 0
  · refine iff_of_true ?_ (.inl hsize)
    rw [lookup, lookup, size_scale, if_pos (.inl hsize), if_pos (.inl hsize)]
  by_cases hclamps : t.Clamps index
  · exact iff_of_true (lookup_scale_of_clamps hs hx hindex hscales hsize hclamps)
      (.inr (.inl hclamps))
  have hsize' : (t.scale s).size ≠ 0 := size_scale.symm ▸ hsize
  have hclamps' : ¬(t.scale s).Clamps (index * s) := fun h =>
    hclamps ((clamps_scale hs hx hindex hscales hsize).1 h)
  have hlanding := landing_scale hs hx hindex hscales
  have hends : Brackets t index i i := (Brackets.whole t index).bisect
  have hx' : ∀ j < t.size, (t.x j).isNaN = false := fun j hj => isNaN_of_isFinite (hx j hj)
  obtain ⟨hi, hle, -⟩ := hends.found hx' hnumber (Nat.pos_of_ne_zero hsize) hclamps
  rw [lookup_of_not_clamps hsize hnumber hclamps, lookup_of_not_clamps hsize'
    (isNaN_of_isFinite hscales.position.1) hclamps', hlanding, x_scale hi, y_scale]
  have hplace : t.landing index = i := rfl
  rw [hplace]
  cases hclose : close (t.x i) index <;> cases hclose' : close (t.x i * s) (index * s)
  · obtain ⟨hpos, hrun, -⟩ :=
      hends.width_pos hx' hnumber (Nat.pos_of_ne_zero hsize) hclamps hclose
    have hwidth := trans_lt_le (hx' _ (by omega)) hnumber (hx' i hi) hrun hle
    have hinterpolates : (t.scale s).Interpolates (index * s) := by
      refine ⟨hclamps', ?_⟩
      rwa [hlanding, hplace, x_scale hi]
    obtain ⟨hfits, hfits'⟩ := hscales.segment ⟨hclamps, hclose⟩ hinterpolates
    have hline := interpolate_scale hs hx hindex hscales hi hpos hrun hwidth hfits hfits'
    simpa using hline
  · simp [hsize, hclamps]
  · simp [hsize, hclamps, eq_comm]
  · simp

/-- The middle of a segment is interpolated in a unit 1024 times smaller, too. -/
theorem lookup_scale_iff_ramp :
    let t := ofFlat [0, 0, 1, 10, 3, 20]
    toRat 1024 = 2 ^ (10 : ℤ) ∧ (∀ i < t.size, (t.x i).isFinite = true) ∧
      (2 : Float).isFinite = true ∧ t.Scales 1024 2 ∧ t.Interpolates 2 ∧
      (t.scale 1024).lookup (2 * 1024) = t.lookup 2 ∧ t.lookup 2 = some 15 := by
  intro t
  have hs : toRat 1024 = 2 ^ (10 : ℤ) := by decide +kernel
  have hx : ∀ i < t.size, (t.x i).isFinite = true := by decide +kernel
  have hindex : (2 : Float).isFinite = true := by decide +kernel
  have hscales : t.Scales 1024 2 := by decide +kernel
  have hclose : close (t.x (t.landing 2) * 1024) (2 * 1024) = close (t.x (t.landing 2)) 2 := by
    decide +kernel
  exact ⟨hs, hx, hindex, hscales, by decide +kernel,
    (lookup_scale_iff hs hx hindex hscales).2 (.inr (.inr (.inl hclose))), by decide +kernel⟩

/-- Half way to an abscissa of `2 ^ -60` the lookup gives the ordinate there, and in a unit in which
that abscissa is 1 it gives the half of it. -/
theorem lookup_scale_thin :
    let t := ofFlat [0, 0, 8.673617379884035e-19, 10]
    let s : Float := 1152921504606846976
    let index : Float := 4.336808689942018e-19
    toRat s = 2 ^ (60 : ℤ) ∧ (∀ i < t.size - 1, t.x i < t.x (i + 1)) ∧
      (∀ i < t.size, (t.x i).isFinite = true) ∧ index.isFinite = true ∧ t.Scales s index ∧
      t.lookup index = some 10 ∧ (t.scale s).lookup (index * s) = some 5 ∧
      (t.scale s).lookup (index * s) ≠ t.lookup index := by
  decide +kernel

end Behavioral.Breakpoints
