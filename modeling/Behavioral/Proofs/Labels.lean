import Behavioral.Proofs.Composed

/-!
# Labels

A label stands for a place in the body: the number of instruction lines before the line that it is
in front of (`Places`). While the lines are taken, the draft has the place of every label so far,
once (`Labelled.takeLabels`), so a label has one place (`Labelled.unique`), and that is what a jump
is settled with (`Labelled.lookup`).
-/

namespace Behavioral

namespace Line

def isLabel (word : String) : Bool :=
  (Draft.label? word).isSome

/-- The labels in front of a line. -/
def labels (line : Line) : List String :=
  (line.words.takeWhile isLabel).filterMap Draft.label?

/-- Whether a line is more than labels. -/
def isInstruction (line : Line) : Bool :=
  !(line.words.dropWhile isLabel).isEmpty

end Line

variable {lines : List Line} {line : Line} {label : String} {target target' : Nat}

/-- One of the lines has the label, given in capitals, and `target` instruction lines stand before
it. -/
def Places (lines : List Line) (label : String) (target : Nat) : Prop :=
  ∃ before line after, lines = before ++ line :: after ∧ label ∈ line.labels.map capitals ∧
    target = before.countP Line.isInstruction

theorem Places.le (h : Places lines label target) : target ≤ lines.countP Line.isInstruction := by
  obtain ⟨before, line, after, rfl, -, rfl⟩ := h
  rw [List.countP_append]
  exact Nat.le_add_right ..

theorem places_concat : Places (lines ++ [line]) label target ↔ Places lines label target ∨
    (label ∈ line.labels.map capitals ∧ target = lines.countP Line.isInstruction) := by
  constructor
  · rintro ⟨before, line', after, hsplit, hlabel, htarget⟩
    rcases List.eq_nil_or_concat after with rfl | ⟨after, last, rfl⟩
    · obtain ⟨rfl, hlast⟩ := List.append_inj' hsplit rfl
      cases hlast
      exact .inr ⟨hlabel, htarget⟩
    · rw [List.concat_eq_append, ← List.cons_append, ← List.append_assoc] at hsplit
      obtain ⟨rfl, -⟩ := List.append_inj' hsplit rfl
      exact .inl ⟨before, line', after, rfl, hlabel, htarget⟩
  · rintro (⟨before, line', after, rfl, hlabel, htarget⟩ | ⟨hlabel, htarget⟩)
    · exact ⟨before, line', after ++ [line], by simp, hlabel, htarget⟩
    · exact ⟨lines, line, [], rfl, hlabel, htarget⟩

namespace Draft

variable {d d' : Draft}

/-- The draft has the place of every label of the lines, once. -/
structure Labelled (d : Draft) (lines : List Line) : Prop where
  distinct : (d.labels.map Prod.fst).Nodup
  places : ∀ label target, (label, target) ∈ d.labels ↔ Places lines label target

theorem Labelled.unique (h : d.Labelled lines) (hplace : Places lines label target)
    (hplace' : Places lines label target') : target = target' := by
  have hmem := (h.places label target).2 hplace
  have hmem' := (h.places label target').2 hplace'
  exact (Prod.mk.inj (List.inj_on_of_nodup_map h.distinct hmem hmem' rfl)).2

theorem Labelled.lookup (h : d.Labelled lines) (hlookup : d.labels.lookup label = some target) :
    Places lines label target := by
  obtain ⟨before, after, hsplit, -⟩ := List.lookup_eq_some_iff.1 hlookup
  exact (h.places label target).1 (by simp [hsplit])

/-- The labels in front of the words are new, and stand for the number of lines so far. -/
theorem labels_takeLabels {number : Nat} : ∀ {words rest : List String} {d d' : Draft},
    takeLabels number d words = .ok (d', rest) → (d.labels.map Prod.fst).Nodup →
      (d'.labels.map Prod.fst).Nodup ∧ ∀ label target, (label, target) ∈ d'.labels ↔
        (label, target) ∈ d.labels ∨
          (label ∈ ((words.takeWhile Line.isLabel).filterMap label?).map capitals ∧
            target = d.lines.length)
  | [], _, _, _, h, hdistinct => by
    cases h
    exact ⟨hdistinct, by simp⟩
  | word :: words, rest, d, d', h, hdistinct => by
    rw [takeLabels] at h
    split at h
    · rename_i hlabel
      cases h
      exact ⟨hdistinct, by simp [Line.isLabel, hlabel]⟩
    · rename_i defined hlabel
      split at h
      · cases h
      · rename_i hnew
        have hnew : capitals defined ∉ d.labels.map Prod.fst := by
          intro hmem
          obtain ⟨p, hp, hname⟩ := List.mem_map.1 hmem
          have hnone := List.lookup_eq_none_iff.1 (Option.not_isSome_iff_eq_none.1 hnew) p hp
          simp [hname] at hnone
        obtain ⟨hdistinct', hlater⟩ := labels_takeLabels h (List.nodup_cons.2 ⟨hnew, hdistinct⟩)
        refine ⟨hdistinct', fun label target => ?_⟩
        rw [hlater]
        simp only [List.takeWhile_cons, Line.isLabel, hlabel, Option.isSome_some, List.mem_cons,
          Prod.mk.injEq, if_true, List.filterMap_cons, List.map_cons]
        tauto

theorem Labelled.takeLabels (hd : d.Labelled lines)
    (hcount : d.lines.length = lines.countP Line.isInstruction) {rest : List String}
    (h : takeLabels line.number d line.words = .ok (d', rest)) : d'.Labelled (lines ++ [line]) := by
  obtain ⟨hdistinct, hlabels⟩ := labels_takeLabels h hd.distinct
  refine ⟨hdistinct, fun label target => ?_⟩
  rw [hlabels, hd.places, places_concat, hcount]
  rfl

end Draft

end Behavioral
