import Mathlib.Data.List.Forall2
import Behavioral.Proofs.Capacity
import Behavioral.Proofs.Lexemes

/-!
# The spans of a text's tokens

The spans of the tokens cover a text up to its blanks, and the text between two of them may be any
other blanks (`tokenize_spans`). A text that is read is cut into the slices of one lexeme after the
other (`spells_read`), and these slices are read as the same tokens wherever they follow each other
with a gap between them (`read_of_spells`). The same tokens are handed out if they are asked for one
at a time (`items_read`).
-/

namespace Behavioral

variable {ambient : Float} {c next : Cursor} {found : Lexeme} {d : Char}
  {cs ds gap before after slice : List Char} {slices gaps : List (List Char)}
  {t : Spanned Token} {ts : List (Spanned Token)} {vs : List Token}
  {text : String} {settings : Settings} {tokens : List (Spanned Token)} {start stop : Nat}

/-! ### One lexeme after the other -/

/-- The slices of lexemes in order and all the tokens that they stand for. -/
inductive SpellsText (ambient : Float) : List (List Char) → List Token → Prop
  | nil : SpellsText ambient [] []
  | append {slices slices' : List (List Char)} {vs vs' : List Token} :
      Scan.Spells ambient slices vs → SpellsText ambient slices' vs' →
      SpellsText ambient (slices ++ slices') (vs ++ vs')

theorem gap_of_skipRun (h : (c.skipRun isBlank).rest = []) : Gap c.rest := by
  have hsplit := List.takeWhile_append_dropWhile (p := isBlank) (l := c.rest)
  have hdrop : c.rest.dropWhile isBlank = [] := h
  rw [hdrop, List.append_nil] at hsplit
  exact fun d hd => List.mem_takeWhile_imp (hsplit ▸ hd)

/-- The blanks in front of the first token belong to its gap. -/
theorem Tiles.of_skipRun (hne : ts ≠ []) (h : Tiles next (c.skipRun isBlank) ts slices) :
    Tiles next c ts slices := by
  generalize hskip : c.skipRun isBlank = c' at h
  cases h with
  | nil => exact absurd rfl hne
  | @cons _ t gap slice rest ts slices hgap hslice hrest hstart hstop hlater =>
    have hsplit := List.takeWhile_append_dropWhile (p := isBlank) (l := c.rest)
    have hdrop : c.rest.dropWhile isBlank = c'.rest := congrArg Cursor.rest hskip
    have hoffset : c.offset + Cursor.bytes (c.rest.takeWhile isBlank) = c'.offset :=
      congrArg Cursor.offset hskip
    have hfront : Gap (c.rest.takeWhile isBlank ++ gap) := fun d hd =>
      (List.mem_append.1 hd).elim List.mem_takeWhile_imp (hgap d)
    refine .cons hfront hslice ?_ ?_ hstop hlater
    · rw [hdrop, hrest] at hsplit
      rw [List.append_assoc, hsplit]
    · rw [bytes_append, hstart]
      omega

theorem read_lexeme (hc : (c.skipRun isBlank).rest = d :: ds)
    (h : Scan.lexeme ambient (c.skipRun isBlank) d = .ok found) :
    Scanner.read ambient c = (found.tokens ++ (Scanner.read ambient found.next).1,
      (Scanner.read ambient found.next).2) := by
  rw [Scanner.read]
  split
  · next hnil => rw [hnil] at hc; cases hc
  · next e es hcons =>
    obtain ⟨rfl, rfl⟩ := List.cons.inj (hc.symm.trans hcons)
    split
    · next herror => rw [h] at herror; cases herror
    · next found' hok =>
      obtain rfl := Except.ok.inj (h.symm.trans hok)
      rfl

theorem read_gap (h : Gap c.rest) : Scanner.read ambient c = ([], none) := by
  have hnil : (c.skipRun isBlank).rest = [] :=
    List.dropWhile_eq_nil_iff.2 h
  rw [Scanner.read]
  split
  · rfl
  · next hcons => rw [hnil] at hcons; cases hcons

/-- The tokens of a lexeme that wait are handed out before the text is read further. -/
theorem items_waiting (ambient : Float) (c : Cursor) (waiting : List (Spanned Token))
    (count : Nat) : Scanner.items (waiting.length + count) ⟨ambient, c, waiting⟩ =
      waiting.map .ok ++ Scanner.items count ⟨ambient, c, []⟩ := by
  induction waiting with
  | nil => rw [List.length_nil, Nat.zero_add, List.map_nil, List.nil_append]
  | cons t waiting ih =>
    rw [List.length_cons, Nat.add_right_comm, List.map_cons, List.cons_append, ← ih]
    rfl

theorem items_succ (ambient : Float) (c : Cursor) (count : Nat)
    (hc : (c.skipRun isBlank).rest = d :: ds) :
    Scanner.items (count + 1) ⟨ambient, c, []⟩ =
      match Scan.lexeme ambient (c.skipRun isBlank) d with
      | .ok found => .ok found.first :: Scanner.items count ⟨ambient, found.next, found.others⟩
      | .error (fault, after) =>
        .error (.lexical fault) :: Scanner.items count ⟨ambient, after, []⟩ := by
  rw [Scanner.items, Scanner.next]
  simp only [hc]
  rcases Scan.lexeme ambient (c.skipRun isBlank) d with ⟨fault, after⟩ | found <;> rfl

/-- Handed out one at a time, the tokens of a text up to its first fault are those that are read at
once. -/
theorem items_read (ambient : Float) (c : Cursor) (extra : Nat) :
    Scanner.items ((Scanner.read ambient c).1.length + (extra + 1)) ⟨ambient, c, []⟩ =
      Scanner.itemsPastFault ⟨ambient, c, []⟩ extra := by
  unfold Scanner.itemsPastFault
  fun_induction Scanner.read ambient c with
  | case1 c hnil =>
    rw [List.length_nil, Nat.zero_add, Scanner.items, Scanner.next]
    simp only [hnil]
    rfl
  | case2 c d ds hc fault hl =>
    rw [List.length_nil, Nat.zero_add, items_succ ambient c extra hc, hl]
    rfl
  | case3 c d ds hc found hl tokens fault hread ih =>
    rw [hread] at ih
    simp only [List.length_cons, List.length_append, List.cons_append] at ih ⊢
    rw [Nat.add_right_comm, items_succ ambient c _ hc, hl]
    simp only
    rw [Nat.add_assoc, items_waiting, ih]
    cases fault <;> simp

/-- A text that is read is cut into the slices of its lexemes, with blanks between them. -/
theorem spells_read (h : Scanner.read ambient c = (ts, none)) :
    ∃ slices next, SpellsText ambient slices (values ts) ∧ Tiles next c ts slices ∧
      Gap next.rest := by
  fun_induction Scanner.read ambient c generalizing ts with
  | case1 c hnil =>
    cases h
    exact ⟨[], c, .nil, .nil, gap_of_skipRun hnil⟩
  | case2 => cases h
  | case3 c d ds hc found hl tokens fault hread ih =>
    cases h
    obtain ⟨slices, hspells, htiles⟩ := Scan.spells_lexeme hc hl
    obtain ⟨slices', next, hspells', htiles', hgap⟩ := ih hread
    refine ⟨slices ++ slices', next, ?_, ?_, hgap⟩
    · have := SpellsText.append hspells hspells'
      rwa [values, values, ← List.map_append] at this
    · exact Tiles.of_skipRun (by simp) (htiles.append htiles')

/-- The slices of lexemes are read from any text that spaces them. -/
theorem read_of_spells (h : SpellsText ambient slices vs) (hs : Spaced after slices c.rest)
    (hafter : Gap after) : ∃ ts, Scanner.read ambient c = (ts, none) ∧ values ts = vs := by
  induction h generalizing c with
  | nil =>
    generalize hrest : c.rest = rest at hs
    cases hs
    exact ⟨[], read_gap (hrest ▸ hafter), rfl⟩
  | append hfirst _ ih =>
    obtain ⟨mid, hspaced, hlater⟩ := hs.of_append
    obtain ⟨d, ds, found, hc, hl, hvalues, hnext⟩ := Scan.starts_of_spells hfirst hspaced
    obtain ⟨ts, hread, hvs⟩ := ih (c := found.next) (hnext ▸ hlater)
    refine ⟨found.tokens ++ ts, by rw [read_lexeme hc hl, hread], ?_⟩
    rw [values, List.map_append, ← hvs, ← hvalues, values, values]

/-! ### Slices and spans -/

/-- `s` is what stands in a text from the byte `start` to the byte `stop`, which are both between
characters. -/
def IsSlice (cs : List Char) (start stop : Nat) (s : List Char) : Prop :=
  ∃ before after, cs = before ++ (s ++ after) ∧ Cursor.bytes before = start ∧
    stop = start + Cursor.bytes s

theorem append_inj_bytes {xs xs' ys ys' : List Char} (h : xs ++ ys = xs' ++ ys')
    (hbytes : Cursor.bytes xs = Cursor.bytes xs') : xs = xs' ∧ ys = ys' := by
  induction xs generalizing xs' with
  | nil =>
    cases xs' with
    | nil => exact ⟨rfl, h⟩
    | cons x xs' => exact absurd hbytes (bytes_pos (List.cons_ne_nil x xs')).ne
  | cons x xs ih =>
    cases xs' with
    | nil => exact absurd hbytes (bytes_pos (List.cons_ne_nil x xs)).ne'
    | cons x' xs' =>
      obtain ⟨rfl, hlater⟩ := List.cons.inj h
      rw [bytes_cons, bytes_cons] at hbytes
      obtain ⟨rfl, hys⟩ := ih hlater (Nat.add_left_cancel hbytes)
      exact ⟨rfl, hys⟩

/-- A span has one slice. -/
theorem IsSlice.unique {s s' : List Char} (h : IsSlice cs start stop s)
    (h' : IsSlice cs start stop s') : s = s' := by
  obtain ⟨before, after, rfl, hbefore, hstop⟩ := h
  obtain ⟨before', after', hcs, hbefore', hstop'⟩ := h'
  obtain ⟨-, hrest⟩ := append_inj_bytes hcs (hbefore.trans hbefore'.symm)
  exact (append_inj_bytes hrest (Nat.add_left_cancel (hstop.symm.trans hstop'))).1

/-- A character of two texts in a row is in the one or in the other. -/
theorem cons_of_append {xs ys : List Char} (h : xs ++ ys = before ++ d :: after) :
    d ∈ xs ∧ (∃ xs', xs = before ++ d :: xs') ∨
      ∃ before', before = xs ++ before' ∧ ys = before' ++ d :: after := by
  rcases List.append_eq_append_iff.1 h with ⟨before', rfl, hys⟩ | ⟨xs', rfl, hcons⟩
  · exact .inr ⟨before', rfl, hys⟩
  · cases xs' with
    | nil => exact .inr ⟨[], by simp, hcons.symm⟩
    | cons e xs' =>
      obtain ⟨rfl, -⟩ := List.cons.inj hcons
      exact .inl ⟨by simp, xs', rfl⟩

theorem Tiles.isSlice (h : Tiles next c ts slices) (hbefore : Cursor.bytes before = c.offset) :
    List.Forall₂ (fun t s => IsSlice (before ++ c.rest) t.start t.stop s) ts slices := by
  induction h generalizing before with
  | nil => exact .nil
  | @cons c t gap slice rest ts slices hgap hne hrest hstart hstop _ ih =>
    refine .cons ⟨before ++ gap, rest, ?_, ?_, hstop⟩ ?_
    · rw [hrest, List.append_assoc]
    · rw [bytes_append, hbefore, hstart]
    · have := @ih (before ++ gap ++ slice) (by
        rw [bytes_append, bytes_append, hbefore, hstop, hstart])
      rwa [List.append_assoc, List.append_assoc, ← hrest] at this

theorem Tiles.start_lt_stop (h : Tiles next c ts slices) : ∀ t ∈ ts, t.start < t.stop := by
  induction h with
  | nil => exact nofun
  | cons _ hne _ _ hstop _ ih =>
    rintro t (_ | ⟨_, ht⟩)
    · have := bytes_pos hne
      omega
    · exact ih t ht

theorem Tiles.offset_le (h : Tiles next c ts slices) : ∀ t ∈ ts, c.offset ≤ t.start := by
  induction h with
  | nil => exact nofun
  | cons _ _ _ hstart hstop _ ih =>
    rintro t (_ | ⟨_, ht⟩)
    · omega
    · have := ih t ht
      simp only at this
      omega

theorem Tiles.pairwise (h : Tiles next c ts slices) : ts.Pairwise (·.stop ≤ ·.start) := by
  induction h with
  | nil => exact .nil
  | cons _ _ _ _ _ hlater ih => exact .cons hlater.offset_le ih

/-- What is in no span is blank. -/
theorem Tiles.covers (h : Tiles next c ts slices) (hnext : Gap next.rest)
    (hc : c.rest = before ++ d :: after) :
    isBlank d = true ∨
      ∃ t ∈ ts, t.start ≤ c.offset + Cursor.bytes before ∧
        c.offset + Cursor.bytes before < t.stop := by
  induction h generalizing before with
  | nil => exact .inl (hnext d (by rw [hc]; simp))
  | @cons c t gap slice rest ts slices hgap hne hrest hstart hstop _ ih =>
    -- the character is in the gap, in the slice or behind it
    rcases cons_of_append (hrest.symm.trans hc) with ⟨hd, -⟩ | ⟨within, rfl, htoken⟩
    · exact .inl (hgap d hd)
    rcases cons_of_append htoken with ⟨-, xs, rfl⟩ | ⟨behind, rfl, hlater⟩
    · refine .inr ⟨t, List.mem_cons_self, ?_⟩
      have := d.utf8Size_pos
      simp only [bytes_append, bytes_cons] at hstop ⊢
      omega
    · refine (ih hlater).imp_right ?_
      rintro ⟨u, hu, hle, hlt⟩
      refine ⟨u, List.mem_cons_of_mem _ hu, ?_⟩
      simp only [bytes_append] at hle hlt ⊢
      omega

/-- Slices with gaps behind them are spaced, if only the last gap may be empty. -/
theorem spaced_of_gaps (hgap : Gap gap) (hgaps : ∀ g ∈ gaps, Gap g)
    (hinner : ∀ g ∈ gaps.dropLast, g ≠ []) (hlength : gaps.length = slices.length) :
    ∃ after, Gap after ∧
      Spaced after slices (gap ++ (List.zipWith (· ++ ·) slices gaps).flatten) := by
  induction slices generalizing gap gaps with
  | nil => exact ⟨gap, hgap, by simpa using .nil⟩
  | cons slice slices ih =>
    obtain ⟨g, gaps, rfl⟩ := List.exists_cons_of_length_eq_add_one hlength
    have hg : Gap g := hgaps g List.mem_cons_self
    -- an empty gap is the last one, so the text ends behind it
    have hlast : g = [] → gaps = [] := by
      intro hnil
      by_contra hmore
      rw [List.dropLast_cons_of_ne_nil hmore] at hinner
      exact hinner g List.mem_cons_self hnil
    obtain ⟨after, hafter, hspaced⟩ := ih hg (fun h hh => hgaps h (List.mem_cons_of_mem _ hh))
      (fun h hh => hinner h (by
        cases gaps with
        | nil => cases hh
        | cons => exact List.mem_cons_of_mem _ hh))
      (Nat.succ.inj hlength)
    refine ⟨after, hafter, ?_⟩
    rw [List.zipWith_cons_cons, List.flatten_cons, List.append_assoc]
    refine .cons hgap (closed_append hg fun hnil => ?_) hspaced
    rw [hlast hnil, List.zipWith_nil_right, List.flatten_nil]

theorem tokenize_eq_ok : tokenize text settings = .ok tokens ↔
    Scanner.read settings.ambientTemperature (Cursor.ofString text) = (tokens, none) := by
  unfold tokenize
  split
  · next hread => simp [hread]
  · next hread => simp [hread]

/-- The spans of a text's tokens are not empty, start and stop between characters and follow each
other; what is outside all of them is blank. Their slices are read as the same tokens from any text
that has them in order with blanks between them. -/
theorem tokenize_spans (h : tokenize text settings = .ok tokens) :
    (∀ t ∈ tokens, t.start < t.stop) ∧
    (∃ slices, List.Forall₂ (fun t s => IsSlice text.toList t.start t.stop s) tokens slices) ∧
    tokens.Pairwise (·.stop ≤ ·.start) ∧
    (∀ before d after, text.toList = before ++ d :: after → isBlank d = true ∨
      ∃ t ∈ tokens, t.start ≤ Cursor.bytes before ∧ Cursor.bytes before < t.stop) ∧
    ∀ slices, List.Forall₂ (fun t s => IsSlice text.toList t.start t.stop s) tokens slices →
      ∀ lead gaps, Gap lead → (∀ g ∈ gaps, Gap g) → (∀ g ∈ gaps.dropLast, g ≠ []) →
        gaps.length = slices.length →
        ∃ tokens', tokenize (String.ofList
            (lead ++ (List.zipWith (· ++ ·) slices gaps).flatten)) settings = .ok tokens' ∧
          tokens'.map (·.value) = tokens.map (·.value) := by
  have hread := tokenize_eq_ok.1 h
  obtain ⟨cut, next, hspells, htiles, hend⟩ := spells_read hread
  have hcut : List.Forall₂ (fun t s => IsSlice text.toList t.start t.stop s) tokens cut :=
    htiles.isSlice bytes_nil
  refine ⟨htiles.start_lt_stop, ⟨cut, hcut⟩, htiles.pairwise, ?_, ?_⟩
  · intro before d after htext
    have hcovers := htiles.covers hend htext
    simp only [Cursor.ofString, Nat.zero_add] at hcovers
    exact hcovers
  · intro slices hslices lead gaps hlead hgaps hinner hlength
    have hunique : Relator.RightUnique fun (t : Spanned Token) s =>
        IsSlice text.toList t.start t.stop s := fun _ _ _ => IsSlice.unique
    obtain rfl : cut = slices := hunique.forall₂ hcut hslices
    obtain ⟨after, hafter, hspaced⟩ := spaced_of_gaps hlead hgaps hinner hlength
    rw [tokenize, Cursor.ofString, String.toList_ofList]
    obtain ⟨tokens', hread', hvalues⟩ := read_of_spells (c := ⟨0, _⟩) hspells hspaced hafter
    rw [hread']
    exact ⟨tokens', rfl, hvalues⟩

theorem tokenize_spans_difference : ∃ tokens tokens', tokenize "V( a,é)**2k" {} = .ok tokens ∧
    tokens.map (fun t => (t.start, t.stop)) =
      [(0, 2), (3, 4), (4, 5), (5, 7), (7, 8), (8, 10), (10, 12)] ∧
    tokenize " V(\ta , é )  ** 2k" {} = .ok tokens' ∧
      tokens'.map (·.value) = tokens.map (·.value) := by
  have hspans : (tokenize "V( a,é)**2k" {}).toOption.map
      (fun tokens => tokens.map fun t => (t.start, t.stop)) =
        some [(0, 2), (3, 4), (4, 5), (5, 7), (7, 8), (8, 10), (10, 12)] := by
    decide +kernel
  cases htokens : tokenize "V( a,é)**2k" {} with
  | error f =>
    rw [htokens] at hspans
    cases hspans
  | ok tokens =>
    rw [htokens] at hspans
    have hspans : tokens.map (fun t => (t.start, t.stop)) =
        [(0, 2), (3, 4), (4, 5), (5, 7), (7, 8), (8, 10), (10, 12)] := Option.some.inj hspans
    have htext : "V( a,é)**2k".toList =
        ['V', '(', ' ', 'a', ',', 'é', ')', '*', '*', '2', 'k'] := by
      decide +kernel
    have hslices : List.Forall₂ (fun p s => IsSlice "V( a,é)**2k".toList p.1 p.2 s)
        (tokens.map fun t => (t.start, t.stop))
        [['V', '('], ['a'], [','], ['é'], [')'], ['*', '*'], ['2', 'k']] := by
      rw [hspans, htext]
      exact .cons ⟨[], _, rfl, rfl, rfl⟩ (.cons ⟨['V', '(', ' '], _, rfl, rfl, rfl⟩
        (.cons ⟨['V', '(', ' ', 'a'], _, rfl, rfl, rfl⟩
        (.cons ⟨['V', '(', ' ', 'a', ','], _, rfl, rfl, rfl⟩
        (.cons ⟨['V', '(', ' ', 'a', ',', 'é'], _, rfl, rfl, rfl⟩
        (.cons ⟨['V', '(', ' ', 'a', ',', 'é', ')'], _, rfl, rfl, rfl⟩
        (.cons ⟨['V', '(', ' ', 'a', ',', 'é', ')', '*', '*'], _, rfl, rfl, rfl⟩ .nil))))))
    rw [List.forall₂_map_left_iff] at hslices
    obtain ⟨tokens', hread, hvalues⟩ := (tokenize_spans htokens).2.2.2.2 _ hslices [' ']
      [['\t'], [' '], [' '], [' '], [' ', ' '], [' '], []] (by decide +kernel)
      (by decide +kernel) (by decide) rfl
    exact ⟨tokens, tokens', rfl, hspans, hread, hvalues⟩

end Behavioral
