import Behavioral.Proofs.Repetition

/-!
# Interned tables

Interning adds an atom only where none has its content, so a table that has grown by nothing else
holds every content once (`Unique.intern`), and what has a content that is there is found at the one
place of it (`Unique.intern_eq`). No call changes an atom, one that is refused included.
-/

namespace Behavioral.AtomTable

variable {t t' : AtomTable} {a id : AtomId} {atom : Atom}

/-- No two atoms have the same content, constants included. -/
def Unique (t : AtomTable) : Prop :=
  ∀ i j, i ≠ j → (t.get i).sameContent (t.get j) = false

theorem Unique.eq (ht : t.Unique) {i j : AtomId} (h : (t.get i).sameContent (t.get j) = true) :
    i = j := by
  by_contra hne
  rw [ht i j hne] at h
  cases h

theorem unique_empty : Unique empty := by
  intro i j hne
  rw [← Bool.not_eq_true]
  intro hsame
  obtain ⟨hi, hj⟩ := lt_sizes_of_sameContent hsame
  exact hne ((Nat.lt_one_iff.1 hi).trans (Nat.lt_one_iff.1 hj).symm)

theorem Unique.intern (ht : t.Unique) (h : t.intern atom = .ok (a, t')) : t'.Unique := by
  intro i j hne
  rw [← Bool.not_eq_true]
  intro hsame
  obtain ⟨hi, hj⟩ := get_eq_of_sameContent h hne hsame
  rw [hi, hj] at hsame
  exact hne (ht.eq hsame)

/-- What has the content of an atom that is there is found at that atom. -/
theorem Unique.intern_eq (ht : t.Unique) (hsame : (t.get id).sameContent atom = true) :
    t.intern atom = .ok (id, t) := by
  refine intern_of_first (lt_size_of_sameContent hsame) hsame fun j hj => ?_
  rw [← Bool.not_eq_true]
  intro hsame'
  rw [Atom.sameContent_comm] at hsame
  exact hj.ne (ht.eq (Atom.sameContent_trans hsame' hsame))

/-- The atom at the place that interning answers has the content of the one interned. -/
theorem sameContent_of_intern (hatom : atom ≠ .sentinel) (h : t.intern atom = .ok (a, t')) :
    (t'.get a).sameContent atom = true := by
  obtain ⟨rfl, hsame⟩ | ⟨-, rfl, rfl⟩ := of_intern h
  · exact hsame
  · rw [get_push_size]
    exact Atom.sameContent_self hatom

theorem extends_of_intern (h : t.intern atom = .ok (a, t')) : Extends t t' := by
  obtain ⟨rfl, -⟩ | ⟨-, -, rfl⟩ := of_intern h
  · exact .refl _
  · exact extends_push

/-- Only a table that is full refuses an atom. -/
theorem intern_of_lt (hsize : t.size < limit) (atom : Atom) :
    ∃ id t', t.intern atom = .ok (id, t') := by
  unfold AtomTable.intern
  split
  · exact ⟨_, _, rfl⟩
  · rw [if_pos hsize]
    exact ⟨_, _, rfl⟩

/-! ### Calls -/

/-- The table after a call, whether it found the atom, added it or was refused. -/
def call (t : AtomTable) (atom : Atom) : AtomTable :=
  match t.intern atom with
  | .ok (_, t') => t'
  | .error _ => t

/-- What calls in turn make of an empty table. -/
def interned (atoms : List Atom) : AtomTable :=
  atoms.foldl call empty

theorem call_of_ok (h : t.intern atom = .ok (a, t')) : t.call atom = t' := by
  rw [call, h]

theorem extends_call : Extends t (t.call atom) := by
  unfold call
  split
  · exact extends_of_intern ‹_›
  · exact .refl _

theorem Unique.call (ht : t.Unique) : (t.call atom).Unique := by
  unfold AtomTable.call
  split
  · exact ht.intern ‹_›
  · exact ht

theorem interned_concat (atoms : List Atom) (atom : Atom) :
    interned (atoms ++ [atom]) = (interned atoms).call atom := by
  rw [interned, List.foldl_concat, interned]

theorem unique_interned (atoms : List Atom) : (interned atoms).Unique := by
  induction atoms using List.reverseRecOn with
  | nil => exact unique_empty
  | append_singleton atoms atom ih =>
    rw [interned_concat]
    exact ih.call

theorem extends_interned (before after : List Atom) :
    Extends (interned before) (interned (before ++ after)) := by
  induction after using List.reverseRecOn with
  | nil =>
    rw [List.append_nil]
    exact .refl _
  | append_singleton after atom ih =>
    rw [← List.append_assoc, interned_concat]
    exact ih.trans extends_call

/-- A call that answers has made the next table. -/
theorem intern_interned {before : List Atom}
    (h : ((interned before).intern atom).toOption.map Prod.fst = some id) :
    (interned before).intern atom = .ok (id, interned (before ++ [atom])) := by
  cases hintern : (interned before).intern atom with
  | error fault =>
    rw [hintern] at h
    cases h
  | ok answer =>
    rw [hintern] at h
    cases h
    rw [interned_concat, call_of_ok hintern]

/-- Whatever was interned before, no further call changes or moves an atom, no two atoms have the
same content, and only a full table refuses an atom. One that is accepted has the content of the
atom it is answered with, and is answered so again, under any spelling of its content and after any
further calls, which leaves the table as it is. -/
theorem interned_unique (before : List Atom) :
    (∀ after, Extends (interned before) (interned (before ++ after))) ∧
    (interned before).Unique ∧
    ((interned before).size < limit → ∀ atom, ∃ id t, (interned before).intern atom = .ok (id, t)) ∧
    ∀ atom id t, atom ≠ .sentinel → (interned before).intern atom = .ok (id, t) →
      t = interned (before ++ [atom]) ∧ (t.get id).sameContent atom = true ∧
      ∀ after again, atom.sameContent again = true →
        (interned (before ++ atom :: after)).intern again =
          .ok (id, interned (before ++ atom :: after)) := by
  refine ⟨extends_interned before, unique_interned before, fun h => intern_of_lt h, ?_⟩
  intro atom id t hatom h
  have hsame := sameContent_of_intern hatom h
  have ht : interned (before ++ [atom]) = t := by
    rw [interned_concat, call_of_ok h]
  refine ⟨ht.symm, hsame, fun after again hagain => ?_⟩
  have hext := extends_interned (before ++ [atom]) after
  rw [List.append_assoc, List.singleton_append, ht] at hext
  refine (unique_interned _).intern_eq ?_
  rw [hext.get id (lt_size_of_sameContent hsame)]
  exact Atom.sameContent_trans hsame hagain

/-- The negative zero is found where the other zero was put, behind what is not a number. -/
theorem interned_unique_zeros :
    let nan : Atom := .const (0 / 0) false
    let zero : Atom := .const 0 false
    let table := interned [nan, .name "x", zero, nan, .const 1 true]
    (interned [nan, .name "x"]).size = 3 ∧ table.size = 5 ∧
      (interned [nan, .name "x"]).intern zero = .ok (3, interned [nan, .name "x", zero]) ∧
      table.intern (.const (-0) false) = .ok (3, table) ∧
      table.intern (.const (0 / 0) false) = .ok (1, table) := by
  intro nan zero table
  have hsize : (interned [nan, .name "x"]).size = 3 := by decide +kernel
  have hzero : (interned [nan, .name "x"]).intern zero =
      .ok (3, interned [nan, .name "x", zero]) := intern_interned (by decide +kernel)
  have hnan : (interned []).intern nan = .ok (1, interned [nan]) :=
    intern_interned (by decide +kernel)
  have hafter := (interned_unique [nan, .name "x"]).2.2.2 zero 3 _ nofun hzero
  have hafter' := (interned_unique []).2.2.2 nan 1 _ nofun hnan
  exact ⟨hsize, by decide +kernel, hzero,
    hafter.2.2 [nan, .const 1 true] (.const (-0) false) (by decide +kernel),
    hafter'.2.2 [.name "x", zero, nan, .const 1 true] nan (by decide +kernel)⟩

end Behavioral.AtomTable
