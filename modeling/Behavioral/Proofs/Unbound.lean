import Behavioral.Proofs.Optimizing
import Behavioral.Proofs.Straying

/-!
# Names without a value

Where the names come before the functions of lists (`NamesFirst`), an evaluation ends at the first
name of the table that has no value (`evaluate_unbound`). In any table it has a value just when all
names are bound and it does not stray (`evaluate_ok_iff`). Optimizing keeps the names, in their
order (`names_optimize`), and so does adding operators (`names_of_adds`).
-/

namespace Behavioral

/-- The text of a name. -/
def Atom.text? : Atom → Option String
  | .name text => some text
  | _ => none

namespace AtomTable

variable {t t' u : AtomTable} {bindings : Bindings} {n : String} {id : Nat}

theorem names_eq (t : AtomTable) :
    t.names = (List.range t.size).filterMap fun id => (t.get id).text? := by
  have hatoms : t.atoms.toList = (List.range t.size).map t.get := by
    refine List.ext_getElem (by simp [size]) fun i hi _ => ?_
    rw [Array.length_toList] at hi
    simp [get, hi]
  rw [names, hatoms, List.filterMap_map]
  rfl

theorem mem_names_iff : n ∈ t.names ↔ ∃ id, t.get id = .name n := by
  rw [names_eq, List.mem_filterMap]
  constructor
  · rintro ⟨id, -, htext⟩
    refine ⟨id, ?_⟩
    cases hget : t.get id <;> rw [hget] at htext <;> cases htext
    rfl
  · rintro ⟨id, hget⟩
    exact ⟨id, List.mem_range.2 (lt_size_of_get hget nofun), by rw [hget]; rfl⟩

theorem names_bound_iff : t.names.find? (fun n => (bindings n).isNone) = none ↔
    ∀ n ∈ t.names, (bindings n).isSome := by
  simp [List.find?_eq_none, Option.isSome_iff_ne_none]

/-- No name stands behind a function of a list. -/
def NamesFirst (t : AtomTable) : Prop :=
  ∀ id i n, (t.get id).appliesList = true → t.get i = .name n → i < id

/-- What a table adds behind its names leaves them first. -/
theorem NamesFirst.grow (h : t.NamesFirst) (hext : Extends t t')
    (hadds : Adds t t' fun atom => atom.text? = none) : t'.NamesFirst := by
  intro id i n hlist hget
  have hi : i < t.size := by
    by_contra hge
    have htext := hadds i (Nat.le_of_not_lt hge) (lt_size_of_get hget nofun)
    rw [hget] at htext
    cases htext
  rcases Nat.lt_or_ge id t.size with hid | hid
  · exact h id i n (hext.get id hid ▸ hlist) (hext.get i hi ▸ hget)
  · exact hi.trans_le hid

/-- Where the names come first, an evaluation ends at the first one that has no value. -/
theorem evaluate_unbound (hback : t.Backward) (hroot : t.root < t.size) (hfirst : t.NamesFirst)
    (h : t.names.find? (fun n => (bindings n).isNone) = some n) :
    t.evaluate bindings = .error (.evaluation (.unbound n)) := by
  rw [names_eq, List.find?_filterMap] at h
  obtain ⟨id, hfind, htext⟩ := Option.bind_eq_some_iff.1 h
  obtain ⟨hunbound, hid, hbefore⟩ := List.find?_range_eq_some.1 hfind
  have hid := List.mem_range.1 hid
  have hget : t.get id = .name n := by
    cases hget : t.get id <;> rw [hget] at htext <;> cases htext
    rfl
  have hn : bindings n = none := by simpa [hget, Atom.text?] using hunbound
  obtain ⟨f, hf⟩ := exists_valuation hback bindings
  have hnone : f id = none := by rw [hf id hid, hget, meaning, hn]
  have hall : ∀ x < id, (f x).isSome := by
    refine hf.isSome hback (Nat.le_of_lt hid) (fun x hx m hm => ?_) fun x hx hlist => ?_
    · have hbound := hbefore x hx
      rw [hm] at hbound
      simpa [Atom.text?, Option.isSome_iff_ne_none] using hbound
    · exact absurd (hfirst x id n hlist hget) (Nat.lt_asymm hx)
  rw [hf.evaluate_error hback hroot hid hnone hall, hget]
  rfl

/-- Once every name is bound, an evaluation has a value unless it strays. -/
theorem evaluate_of_names (hback : t.Backward) (hroot : t.root < t.size)
    (h : t.names.find? (fun n => (bindings n).isNone) = none) :
    (∃ x, t.evaluate bindings = .ok x) ∨
      t.evaluate bindings = .error (.breakdown .noSegment) := by
  rcases evaluate_cases hback hroot bindings with hok | ⟨id, m, hget, hm, -⟩ | hstrays
  · exact .inl hok
  · have hbound := names_bound_iff.1 h m (mem_names_iff.2 ⟨id, hget⟩)
    rw [hm] at hbound
    cases hbound
  · exact .inr hstrays

/-- An evaluation has a value just when every name is bound and it does not stray. -/
theorem evaluate_ok_iff (hback : t.Backward) (hroot : t.root < t.size) :
    (∃ x, t.evaluate bindings = .ok x) ↔
      (∀ n ∈ t.names, (bindings n).isSome) ∧ ¬t.Strays bindings := by
  rw [← evaluate_eq_breakdown_iff hback hroot]
  constructor
  · rintro ⟨x, hx⟩
    obtain ⟨f, hf⟩ := exists_valuation hback bindings
    refine ⟨fun n hn => ?_, by simp [hx]⟩
    obtain ⟨id, hget⟩ := mem_names_iff.1 hn
    have hid : id < t.size := lt_size_of_get hget nofun
    have hsome := (hf.of_evaluate hback hroot hx).2 id hid
    rwa [hf id hid, hget] at hsome
  · rintro ⟨hbound, hstrays⟩
    exact (evaluate_of_names hback hroot (names_bound_iff.2 hbound)).resolve_right hstrays

/-- Tables with the same names, which come first in both, evaluate alike if they do once the names
are bound. -/
theorem evaluate_congr (hback : t.Backward) (hback' : u.Backward) (hroot : t.root < t.size)
    (hroot' : u.root < u.size) (hfirst : t.NamesFirst) (hfirst' : u.NamesFirst)
    (hnames : t.names = u.names)
    (hbound : t.names.find? (fun n => (bindings n).isNone) = none →
      t.evaluate bindings = u.evaluate bindings) :
    t.evaluate bindings = u.evaluate bindings := by
  cases h : t.names.find? fun n => (bindings n).isNone with
  | some n =>
    rw [evaluate_unbound hback hroot hfirst h, evaluate_unbound hback' hroot' hfirst' (hnames ▸ h)]
  | none => exact hbound h

theorem names_fold : t.fold.names = t.names := by
  rw [names_eq, names_eq, size_fold]
  refine List.filterMap_congr fun id _ => ?_
  rw [get_fold]
  unfold Atom.fold
  split
  · rename_i hget
    rw [hget]
    rfl
  · rfl

/-- What pruning drops is no name. -/
theorem names_prune : t.prune.names = t.names := by
  have hprune : t.prune.names = t.kept.filterMap fun id => (t.get id).text? := by
    rw [names, prune, List.filterMap_map]
    refine List.filterMap_congr fun id _ => ?_
    simp only [Function.comp_apply]
    cases t.get id <;> rfl
  rw [hprune, names_eq, kept, List.filterMap_filter]
  refine List.filterMap_congr fun id _ => ?_
  split
  · rfl
  · rename_i hkeeps
    rw [keeps, Bool.or_eq_true, not_or] at hkeeps
    cases hget : t.get id with
    | const => rfl
    | sentinel | apply | element | name => simp [hget, Atom.isConst] at hkeeps

theorem names_optimize (settings : Settings) : (t.optimize settings).names = t.names := by
  unfold optimize
  split <;> split <;> simp only [names_prune, names_fold]

/-- Atoms that are no names add none. -/
theorem names_of_adds (hext : Extends t t') (hadds : Adds t t' fun atom => atom.text? = none) :
    t'.names = t.names := by
  obtain ⟨d, hd⟩ := Nat.exists_eq_add_of_le hext.size
  have hnew : ((List.range d).map (t.size + ·)).filterMap (fun id => (t'.get id).text?) = [] := by
    rw [List.filterMap_eq_nil_iff]
    intro id hid
    obtain ⟨k, hk, rfl⟩ := List.mem_map.1 hid
    have hlt := List.mem_range.1 hk
    exact hadds _ (Nat.le_add_right _ _) (by omega)
  rw [names_eq, names_eq, hd, List.range_add, List.filterMap_append, hnew, List.append_nil]
  refine List.filterMap_congr fun id hid => ?_
  rw [hext.get id (List.mem_range.1 hid)]

end AtomTable

end Behavioral
