import Mathlib.Logic.Relation
import Behavioral.Proofs.Positions
import Behavioral.Proofs.Respelling
import Behavioral.Proofs.Statements

/-!
# Definitions in other styles

A definition says the same in any letter case, with more blank lines and comment lines between its
lines, and with comments behind them: it is accepted or breaks the same rule, and the function is
the same, but for the case of letters in its name (`parse_restyled`). What the lines say does not
change but for the case of letters (`sameLines_of_restyled`), and every stage of reading such lines
concurs on them: the opening line, the labels, the operands and the literals, the jumps and the
checks of the body.
-/

namespace Behavioral

variable {f : Char → Char} {text text' w w' : String}

/-! ### Changes of style -/

namespace Line

variable {line blanks comment : List Char}

/-- The lines that say something, without their numbers. -/
def texts (lines : List (List Char)) : List (List Char) :=
  (lines.map content).filter (!isSkipped ·)

theorem map_text_keep (number : Nat) (lines : List (List Char)) :
    (keep number lines).map (·.text) = texts lines := by
  induction lines generalizing number with
  | nil => rfl
  | cons line lines ih =>
    rw [keep, texts, List.map_cons]
    split
    · next hskipped => rw [ih, List.filter_cons_of_neg (by simp [hskipped]), texts]
    · next hkept => rw [List.map_cons, ih, List.filter_cons_of_pos (by simp [hkept]), texts]

theorem texts_recase (hf : Recases f) (lines : List (List Char)) :
    texts (lines.map (List.map f)) = (texts lines).map (List.map f) := by
  have hcontent : content ∘ List.map f = List.map f ∘ content := funext (content_recase hf)
  have hskipped : (fun cs => !isSkipped cs) ∘ List.map f = fun cs => !isSkipped cs :=
    funext fun cs => congrArg (!·) (isSkipped_recase hf cs)
  rw [texts, List.map_map, hcontent, ← List.map_map, List.filter_map, hskipped, texts]

/-- What a text says, in capitals. -/
def said (text : String) : List (List Char) :=
  texts (splitLines (text.toList.map capital))

theorem said_eq (text : String) : said text = (ofText text).map (·.text.map capital) := by
  rw [said, splitLines_recase recases_capital, texts_recase recases_capital, ofText,
    ← map_text_keep 1, List.map_map]
  rfl

theorem isSkipped_content (h : Gap line ∨ (line.dropWhile isBlank).head? = some '*') :
    isSkipped (content line) = true := by
  rcases h with hgap | hstar
  · have hcomment : ∀ c ∈ line, (c != ';') = true := fun c hc => by
      simpa using @not_of_isBlank (· == ';') c (by decide) (hgap c hc)
    have htrim : line.dropWhile isBlank = [] := List.dropWhile_eq_nil_iff.2 hgap
    rw [content, List.takeWhile_eq_self_iff.2 hcomment, trimBlanks, htrim]
    rfl
  · obtain ⟨rest, hrest⟩ := List.head?_eq_some_iff.1 hstar
    have hsplit := List.takeWhile_append_dropWhile (p := isBlank) (l := line)
    have hindent : Gap (line.takeWhile isBlank) := fun c hc => List.mem_takeWhile_imp hc
    have hword : IsWord ['*'] := ⟨List.cons_ne_nil _ _, List.forall_mem_singleton.2 (by decide)⟩
    rw [hrest] at hsplit
    rw [← hsplit, ← List.singleton_append, ← List.append_assoc, content_line hindent hword]
    rfl

theorem trimBlanks_append (hblanks : Gap blanks) (cs : List Char) :
    trimBlanks (cs ++ blanks) = trimBlanks cs := by
  have hlast : ∀ c ∈ blanks.reverse, isBlank c = true := fun c hc =>
    hblanks c (List.mem_reverse.1 hc)
  rw [trimBlanks, List.dropWhile_append]
  split
  · next hnone =>
    rw [List.dropWhile_eq_nil_iff.2 hblanks, trimBlanks, List.isEmpty_iff.1 hnone]
  · rw [List.reverse_append, List.dropWhile_append_of_pos hlast, trimBlanks]

theorem content_append (hblanks : Gap blanks) (line : List Char) :
    content (line ++ blanks) = content line := by
  have hcomment : ∀ c ∈ blanks, (c != ';') = true := fun c hc => by
    simpa using @not_of_isBlank (· == ';') c (by decide) (hblanks c hc)
  rw [content, List.takeWhile_append, content]
  split
  · next hwhole =>
    rw [List.takeWhile_eq_self_iff.2 hcomment, trimBlanks_append hblanks,
      List.IsPrefix.eq_of_length (List.takeWhile_prefix _) hwhole]
  · rfl

theorem content_comment (line comment : List Char) :
    content (line ++ ';' :: comment) = content line := by
  rw [content, takeWhile_append_stops (stops_cons.2 (by decide)), content]

end Line

/-- One change of style: letters change their case, a line that says nothing comes in, or a line
gets a comment behind it, with other blanks before the comment than were at the end of the line. -/
inductive Restyled : String → String → Prop
  | recased {text text' : String} : sameLetters text text' = true → Restyled text text'
  | inserted {text text' : String} {before after : List (List Char)} {line : List Char} :
      Line.splitLines text.toList = before ++ after →
      Line.splitLines text'.toList = before ++ line :: after →
      Gap line ∨ (line.dropWhile isBlank).head? = some '*' → Restyled text text'
  | annotated {text text' : String} {before after : List (List Char)}
      {line blanks blanks' comment : List Char} :
      Line.splitLines text.toList = before ++ (line ++ blanks) :: after →
      Line.splitLines text'.toList = before ++ (line ++ blanks' ++ ';' :: comment) :: after →
      Gap blanks → Gap blanks' → Restyled text text'

theorem map_capital_of_capitals (h : capitals w = capitals w') :
    w.toList.map capital = w'.toList.map capital :=
  String.ofList_injective h

theorem Line.said_restyled (h : Restyled text text') : said text' = said text := by
  cases h with
  | recased hsame =>
    have hletters := map_capital_of_capitals (beq_iff_eq.1 hsame)
    rw [said, ← hletters, said]
  | inserted htext htext' hline =>
    simp only [said, splitLines_recase recases_capital, texts_recase recases_capital, htext,
      htext']
    simp [texts, isSkipped_content hline]
  | annotated htext htext' hblanks hblanks' =>
    simp only [said, splitLines_recase recases_capital, texts_recase recases_capital, htext,
      htext']
    simp only [texts, List.map_append, List.map_cons, content_comment, content_append hblanks,
      content_append hblanks']

/-! ### What stays the same -/

/-- Lines that say the same, but for the case of letters. -/
def SameLine (x y : Line) : Prop :=
  x.text.map capital = y.text.map capital

/-- Words that are the same, but for the case of letters. -/
def SameWord (w w' : String) : Prop :=
  capitals w = capitals w'

theorem SameWord.sameLetters (h : SameWord w w') (t : String) :
    sameLetters w t = sameLetters w' t := by
  have hcapitals : capitals w = capitals w' := h
  rw [Behavioral.sameLetters, hcapitals, Behavioral.sameLetters]

theorem sameWords_iff {ws ws' : List String} :
    List.Forall₂ SameWord ws ws' ↔ ws.map capitals = ws'.map capitals := by
  rw [← List.forall₂_eq_eq_eq, List.forall₂_map_left_iff, List.forall₂_map_right_iff]
  rfl

theorem sameLines_of_restyled (h : Relation.ReflTransGen Restyled text text') :
    List.Forall₂ SameLine (Line.ofText text) (Line.ofText text') := by
  have hsaid : Line.said text = Line.said text' := by
    induction h with
    | refl => rfl
    | tail _ hlast ih => rw [ih, Line.said_restyled hlast]
  rw [Line.said_eq, Line.said_eq, ← List.forall₂_eq_eq_eq, List.forall₂_map_left_iff,
    List.forall₂_map_right_iff] at hsaid
  exact hsaid

theorem SameLine.words {x y : Line} (h : SameLine x y) : List.Forall₂ SameWord x.words y.words := by
  have hcapitals (z : Line) : z.words.map capitals =
      (splitWords Line.isSeparator (z.text.map capital)).map String.ofList := by
    have hseparator (c : Char) : Line.isSeparator (capital c) = Line.isSeparator c := by
      rw [Line.isSeparator, recases_capital.isBlank, recases_capital.beq (by decide),
        Line.isSeparator]
    rw [splitWords_recase hseparator, Line.words, List.map_map, List.map_map]
    exact List.map_congr_left fun word _ => by
      simp [capitals]
  rw [sameWords_iff, hcapitals, hcapitals, h]

/-! ### Two runs -/

/-- Two runs have yielded what `R` relates, or broken the same rule. -/
inductive Concur {α β : Type} (R : α → β → Prop) : Except Fault α → Except Fault β → Prop
  | ok {a : α} {b : β} : R a b → Concur R (.ok a) (.ok b)
  | fault {f g : Fault} : f.rule = g.rule → Concur R (.error f) (.error g)

theorem none_or_some_of_map_eq {α β : Type} {g : α → β} {o o' : Option α}
    (h : o.map g = o'.map g) :
    (o = none ∧ o' = none) ∨ ∃ a b, o = some a ∧ o' = some b ∧ g a = g b := by
  cases o <;> cases o' <;> simp_all

namespace Concur

variable {α β γ δ : Type} {R : α → β → Prop} {S : γ → δ → Prop} {x : Except Fault α}
  {y : Except Fault β}

theorem bind {f : α → Except Fault γ} {g : β → Except Fault δ} (h : Concur R x y)
    (hf : ∀ a b, R a b → Concur S (f a) (g b)) : Concur S (x >>= f) (y >>= g) := by
  cases h with
  | ok hab => exact hf _ _ hab
  | fault hrule => exact .fault hrule

theorem foldlM {f : α → γ → Except Fault α} {g : β → δ → Except Fault β} {cs : List γ}
    {ds : List δ} (h : List.Forall₂ S cs ds)
    (hf : ∀ a b c d, R a b → S c d → Concur R (f a c) (g b d)) {a : α} {b : β} (hab : R a b) :
    Concur R (cs.foldlM f a) (ds.foldlM g b) := by
  induction h generalizing a b with
  | nil => exact .ok hab
  | cons hcd _ ih => exact (hf a b _ _ hab hcd).bind fun _ _ hab' => ih hab'

end Concur

/-! ### The opening line -/

theorem count_concur {number number' : Nat} {key key' : String} (h : SameWord w w') :
    Concur Eq (Opening.count number key w) (Opening.count number' key' w') := by
  rw [Opening.count_eq, Opening.count_eq, eq_of_capitals (counted?_recase recases_capital) h]
  cases Opening.counted? w' with
  | none => exact .fault rfl
  | some n => exact .ok rfl

structure SameOpening (x y : Opening) : Prop where
  name : capitals x.name = capitals y.name
  params : x.params = y.params
  locals : x.locals = y.locals

theorem takeWord_concur {number number' : Nat} {x y : Opening} (h : SameOpening x y)
    (hw : SameWord w w') :
    Concur SameOpening (Opening.takeWord number x w) (Opening.takeWord number' y w') := by
  have hparts : (Opening.assignment? w).map (Prod.map capitals capitals) =
      (Opening.assignment? w').map (Prod.map capitals capitals) :=
    (assignment?_recase recases_capital w).symm.trans
      ((congrArg Opening.assignment? hw).trans (assignment?_recase recases_capital w'))
  unfold Opening.takeWord
  rcases none_or_some_of_map_eq hparts with
    ⟨hw, hw'⟩ | ⟨⟨key, value⟩, ⟨key', value'⟩, hw, hw', hsame⟩
  · rw [hw, hw']
    exact .fault rfl
  · have hkey : SameWord key key' := congrArg Prod.fst hsame
    have hvalue : SameWord value value' := congrArg Prod.snd hsame
    simp only [hw, hw', hkey.sameLetters]
    split
    · refine (count_concur hvalue).bind fun n _ hn => ?_
      subst hn
      exact .ok ⟨h.name, rfl, h.locals⟩
    · split
      · refine (count_concur hvalue).bind fun n _ hn => ?_
        subst hn
        exact .ok ⟨h.name, h.params, rfl⟩
      · exact .fault rfl

theorem ofLine_concur {x y : Line} (h : SameLine x y) :
    Concur SameOpening (Opening.ofLine x) (Opening.ofLine y) := by
  have hwords := h.words
  unfold Opening.ofLine
  generalize x.words = ws at hwords ⊢
  generalize y.words = ws' at hwords ⊢
  rcases hwords with _ | ⟨hdirective, _ | ⟨hname, hrest⟩⟩
  · exact .fault rfl
  · exact .fault rfl
  · simp only
    rw [hdirective.sameLetters]
    split
    · exact Concur.foldlM hrest (fun _ _ _ _ => takeWord_concur) ⟨hname, rfl, rfl⟩
    · exact .fault rfl

/-! ### Instructions -/

theorem resolve_concur (l : Library) {number number' : Nat} (h : SameWord w w') :
    Concur Eq (l.resolve number w) (l.resolve number' w') := by
  have hcapitals : capitals w = capitals w' := h
  have hhead : (w.toList.head? == some '_') = (w'.toList.head? == some '_') :=
    eq_of_capitals (g := fun w => w.toList.head? == some '_')
      (head?_recase recases_capital (by decide)) h
  unfold Library.resolve Builtin.ofMnemonic? Library.get?
  simp only [hhead, hcapitals]
  split
  · exact .ok rfl
  · exact .fault rfl

/-- Instructions that are the same, but for the case of letters in the label that they jump to. -/
structure SameRead (x y : DraftLine) : Prop where
  instruction : x.instruction = y.instruction
  label : x.label.map capitals = y.label.map capitals

structure SameDraft (d e : Draft) : Prop where
  labels : d.labels = e.labels
  lines : List.Forall₂ SameRead d.lines e.lines
  literals : d.literals = e.literals

namespace Draft

variable {number number' firstLocal : Nat} {form : Form} {d e : Draft} {ws ws' : List String}

theorem takeOperand_concur {r r' : Reading} (hr : r = r') (h : capitals w = capitals w') :
    Concur Eq (takeOperand number firstLocal form r w)
      (takeOperand number' firstLocal form r' w') := by
  subst hr
  unfold takeOperand
  rw [eq_of_capitals (ofWord?_recase recases_capital) h,
    eq_of_capitals (literal?_recase recases_capital) h]
  split
  · split
    · exact .fault rfl
    · split
      · exact .ok rfl
      · exact .fault rfl
  · split
    · split
      · exact .ok rfl
      · split
        · exact .fault rfl
        · exact .ok rfl
    · exact .fault rfl

theorem splitLabel_concur (h : List.Forall₂ SameWord ws ws') :
    Concur (fun x y => List.Forall₂ SameWord x.1 y.1 ∧ x.2.map capitals = y.2.map capitals)
      (splitLabel number form ws) (splitLabel number' form ws') := by
  have hmap := sameWords_iff.1 h
  have hlast : ws.getLast?.map capitals = ws'.getLast?.map capitals := by
    rw [← List.getLast?_map, hmap, List.getLast?_map]
  have hfront : List.Forall₂ SameWord ws.dropLast ws'.dropLast :=
    sameWords_iff.2 (by rw [List.map_dropLast, hmap, List.map_dropLast])
  unfold splitLabel
  split
  · rcases none_or_some_of_map_eq hlast with ⟨hw, hw'⟩ | ⟨label, label', hw, hw', hsame⟩
    · rw [hw, hw']
      exact .fault rfl
    · rw [hw, hw']
      exact .ok ⟨hfront, congrArg some hsame⟩
  · exact .ok ⟨h, rfl⟩

theorem readInstruction_concur (literals : List Float) (callee : Function)
    (h : List.Forall₂ SameWord ws ws') :
    Concur (fun x y => SameRead x.1 y.1 ∧ x.2 = y.2)
      (readInstruction firstLocal literals number callee ws)
      (readInstruction firstLocal literals number' callee ws') := by
  refine (splitLabel_concur h).bind fun x y ⟨hwords, hlabel⟩ => ?_
  obtain ⟨operands, label⟩ := x
  obtain ⟨operands', label'⟩ := y
  refine (Concur.foldlM hwords (fun _ _ _ _ => takeOperand_concur) rfl).bind fun r r' hr => ?_
  subst hr
  exact .ok ⟨⟨rfl, hlabel⟩, rfl⟩

theorem takeLabels_concur (hd : SameDraft d e) (h : List.Forall₂ SameWord ws ws') :
    Concur (fun x y => SameDraft x.1 y.1 ∧ List.Forall₂ SameWord x.2 y.2) (takeLabels number d ws)
      (takeLabels number' e ws') := by
  induction h generalizing d e with
  | nil => exact .ok ⟨hd, .nil⟩
  | @cons word word' rest rest' hword hrest ih =>
    have hlabel : (label? word).map capitals = (label? word').map capitals :=
      (label?_recase recases_capital word).symm.trans
        ((congrArg label? hword).trans (label?_recase recases_capital word'))
    unfold takeLabels
    rcases none_or_some_of_map_eq hlabel with ⟨hw, hw'⟩ | ⟨label, label', hw, hw', hsame⟩
    · rw [hw, hw']
      exact .ok ⟨hd, .cons hword hrest⟩
    · simp only [hw, hw', hsame, hd.labels, hd.lines.length_eq]
      split
      · exact .fault rfl
      · exact ih ⟨rfl, hd.lines, hd.literals⟩

theorem takeLine_concur (l : Library) {x y : Line} (hd : SameDraft d e) (h : SameLine x y) :
    Concur SameDraft (takeLine l.resolve firstLocal d x) (takeLine l.resolve firstLocal e y) := by
  refine (takeLabels_concur hd h.words).bind fun p q ⟨hd', hwords⟩ => ?_
  obtain ⟨d', ws⟩ := p
  obtain ⟨e', ws'⟩ := q
  cases hwords with
  | nil => exact .ok hd'
  | cons hname hoperands =>
    refine (resolve_concur l hname).bind fun callee _ hcallee => ?_
    subst hcallee
    simp only at hd' ⊢
    rw [hd'.literals]
    refine (readInstruction_concur e'.literals callee hoperands).bind
      fun p q ⟨hread, hliterals⟩ => ?_
    obtain ⟨read, literals⟩ := p
    obtain ⟨read', literals'⟩ := q
    exact .ok ⟨hd'.labels, List.rel_append hd'.lines (.cons hread .nil), hliterals⟩

theorem takeLines_concur (l : Library) {opening opening' : Opening} {xs ys : List Line}
    (ho : opening.locals = opening'.locals) (hd : SameDraft d e) (h : List.Forall₂ SameLine xs ys) :
    Concur SameDraft (takeLines l.resolve opening d xs) (takeLines l.resolve opening' e ys) := by
  induction h generalizing d e with
  | nil => exact .fault rfl
  | @cons x y xs ys hline hrest ih =>
    have hend : isEnd x = isEnd y := by
      have htext : x.text.map capital = y.text.map capital := hline
      simp only [isEnd, sameLetters, capitals, String.toList_ofList, htext]
    unfold takeLines
    rw [hend, ho]
    split
    · cases hrest with
      | nil => exact .ok hd
      | cons => exact .fault rfl
    · exact (takeLine_concur l hd hline).bind fun _ _ hd' => ih hd'

theorem settleJump_concur (labels : List (String × Nat)) {x y : DraftLine} (h : SameRead x y)
    (pc : Nat) : Concur Eq (settleJump labels pc x) (settleJump labels pc y) := by
  obtain ⟨_, i, label⟩ := x
  obtain ⟨_, j, label'⟩ := y
  obtain ⟨hi, hlabel⟩ := h
  subst hi
  unfold settleJump
  rcases label with _ | label <;> rcases label' with _ | label'
  · exact .ok rfl
  · cases hlabel
  · cases hlabel
  · have hsame : capitals label = capitals label' := Option.some.inj hlabel
    simp only [hsame]
    split
    · unfold displacement
      split
      · exact .ok rfl
      · exact .fault rfl
    · exact .fault rfl

theorem settleJumps_concur (labels : List (String × Nat)) {xs ys : List DraftLine}
    (h : List.Forall₂ SameRead xs ys) (pc : Nat) :
    Concur Eq (settleJumps labels pc xs) (settleJumps labels pc ys) := by
  induction h generalizing pc with
  | nil => exact .ok rfl
  | @cons x y xs ys hread _ ih =>
    rw [settleJumps_eq, settleJumps_eq]
    refine (settleJump_concur labels hread pc).bind fun i _ hi => ?_
    refine (ih (pc + 1)).bind fun rest _ hrest => ?_
    subst hi hrest
    exact .ok rfl

theorem instructions_concur {opening opening' : Opening} (ho : opening.locals = opening'.locals)
    (hd : SameDraft d e) : Concur Eq (d.instructions opening) (e.instructions opening') := by
  have hlead : d.leadsWithPrevious = e.leadsWithPrevious := by
    have hlines := hd.lines
    unfold leadsWithPrevious
    generalize d.lines = xs at hlines ⊢
    generalize e.lines = ys at hlines ⊢
    cases hlines with
    | nil => rfl
    | cons hread => simp only [hread.instruction]
  unfold instructions
  rw [hlead, hd.literals, hd.labels, ho]
  split
  · exact .fault rfl
  · refine (settleJumps_concur e.labels hd.lines 0).bind fun body _ hbody => ?_
    subst hbody
    exact .ok rfl

end Draft

/-! ### The function -/

/-- Functions that are the same, but for the case of letters in the name. -/
structure SameFunction (f g : Composed) : Prop where
  name : capitals f.name = capitals g.name
  paramCount : f.paramCount = g.paramCount
  localCount : f.localCount = g.localCount
  fieldSize : f.fieldSize = g.fieldSize
  storageSize : f.storageSize = g.storageSize
  body : f.body = g.body

section Faults

variable (name name' : String) (paramCount localCount length pc : Nat) (previous : Option Nat)

theorem operandFault?_code (o : Operand) :
    (o.fault? name paramCount localCount pc previous).map CompositionFault.code =
      (o.fault? name' paramCount localCount pc previous).map CompositionFault.code := by
  cases o with
  | caller slot =>
    simp only [Operand.fault?]
    split <;> rfl
  | localCell index =>
    simp only [Operand.fault?]
    split <;> rfl
  | previous slot =>
    cases previous with
    | none => rfl
    | some size =>
      simp only [Operand.fault?]
      split <;> rfl

theorem jumpFault?_code (i : Instruction Function) :
    (i.jumpFault? name length pc).map CompositionFault.code =
      (i.jumpFault? name' length pc).map CompositionFault.code := by
  unfold Instruction.jumpFault?
  split
  · simp only
    split <;> rfl
  · rfl
  · rfl
  · rfl

theorem instructionFault?_code (i : Instruction Function) :
    (i.fault? name paramCount localCount length pc previous).map CompositionFault.code =
      (i.fault? name' paramCount localCount length pc previous).map CompositionFault.code := by
  have hoperands : (i.operands.findSome?
        (Operand.fault? name paramCount localCount pc previous)).map CompositionFault.code =
      (i.operands.findSome?
        (Operand.fault? name' paramCount localCount pc previous)).map CompositionFault.code := by
    rw [List.map_findSome?, List.map_findSome?]
    congr 1
    funext o
    exact operandFault?_code name name' paramCount localCount pc previous o
  unfold Instruction.fault?
  simp only
  split
  · rfl
  · rcases none_or_some_of_map_eq hoperands with ⟨hn, hn'⟩ | ⟨fault, fault', hn, hn', hsame⟩
    · simp only [hn, hn']
      rcases none_or_some_of_map_eq (jumpFault?_code name name' length pc i) with
        ⟨hj, hj'⟩ | ⟨fault, fault', hj, hj', hsame⟩
      · simp only [hj, hj']
        split <;> rfl
      · simp only [hj, hj', Option.map_some, hsame]
    · simp only [hn, hn', Option.map_some, hsame]

theorem bodyFault?_code (body : List (Instruction Function)) :
    (Composition.bodyFault? name paramCount localCount length pc previous body).map
        CompositionFault.code =
      (Composition.bodyFault? name' paramCount localCount length pc previous body).map
        CompositionFault.code := by
  induction body generalizing pc previous with
  | nil => rfl
  | cons i rest ih =>
    unfold Composition.bodyFault?
    rcases none_or_some_of_map_eq
        (instructionFault?_code name name' paramCount localCount length pc previous i) with
      ⟨hn, hn'⟩ | ⟨fault, fault', hn, hn', hsame⟩
    · simp only [hn, hn', ih]
    · simp only [hn, hn', Option.map_some, hsame]

end Faults

theorem compose_concur (h : capitals w = capitals w') (localCount paramCount : Nat)
    (body : List (Instruction Function)) :
    Concur SameFunction (Composition.compose w localCount paramCount body)
      (Composition.compose w' localCount paramCount body) := by
  have hfault := bodyFault?_code w w' paramCount localCount body.length 0 none body
  unfold Composition.compose
  rcases none_or_some_of_map_eq hfault with ⟨hn, hn'⟩ | ⟨fault, fault', hn, hn', hsame⟩
  · rw [hn, hn']
    simp only
    split
    · exact .ok ⟨h, rfl, rfl, rfl, rfl, rfl⟩
    · exact .fault rfl
  · rw [hn, hn']
    exact .fault (congrArg (Prod.mk "Function") hsame)

namespace Library

/-- A definition and the same definition in another style are both accepted or both rejected with
the same code. The functions are the same, but for the case of letters in the name. -/
theorem parse_restyled (l : Library) (h : Relation.ReflTransGen Restyled text text') :
    Concur SameFunction (l.parse text) (l.parse text') := by
  have hlines := sameLines_of_restyled h
  unfold parse
  generalize Line.ofText text = xs at hlines ⊢
  generalize Line.ofText text' = ys at hlines ⊢
  rcases hlines with _ | ⟨hfirst, hrest⟩
  · exact .fault rfl
  · refine (ofLine_concur hfirst).bind fun o o' ho => ?_
    have hempty : SameDraft {} {} := ⟨rfl, .nil, rfl⟩
    refine (Draft.takeLines_concur l ho.locals hempty hrest).bind fun d e hd => ?_
    refine (Draft.instructions_concur ho.locals hd).bind fun body _ hbody => ?_
    subst hbody
    rw [ho.locals, ho.params, hd.literals]
    exact compose_concur ho.name _ _ body

def half : String :=
  ".FUNC half PARAMS=1\n_JMP on\non: _MUL RET P0 500m\n.ENDF"

def halfRestyled : String :=
  ".func Half params=1\n * a gain\n_jmp ON ; at once\nOn: _mul ret p0 500M\n.endf"

theorem half_restyled : Relation.ReflTransGen Restyled half halfRestyled := by
  let recased := ".func Half params=1\n_jmp ON\nOn: _mul ret p0 500M\n.endf"
  let inserted := ".func Half params=1\n * a gain\n_jmp ON\nOn: _mul ret p0 500M\n.endf"
  have hrecased : Restyled half recased := .recased (by decide +kernel)
  have hinserted : Restyled recased inserted :=
    @Restyled.inserted _ _ [".func Half params=1".toList]
      ["_jmp ON".toList, "On: _mul ret p0 500M".toList, ".endf".toList] " * a gain".toList
      (by decide +kernel) (by decide +kernel) (by decide +kernel)
  have hannotated : Restyled inserted halfRestyled :=
    @Restyled.annotated _ _ [".func Half params=1".toList, " * a gain".toList]
      ["On: _mul ret p0 500M".toList, ".endf".toList] "_jmp ON".toList [] [' '] " at once".toList
      (by decide +kernel) (by decide +kernel) (by decide) (by decide)
  exact ((Relation.ReflTransGen.single hrecased).tail hinserted).tail hannotated

theorem parse_restyled_half : Relation.ReflTransGen Restyled half halfRestyled ∧
    ∃ f g, parse {} half = .ok f ∧ parse {} halfRestyled = .ok g ∧ SameFunction f g := by
  refine ⟨half_restyled, ?_⟩
  have hname : (parse {} half).toOption.map (·.name) = some "half" := by decide +kernel
  obtain ⟨f, hf, -⟩ := exists_ok_of_map hname
  have hconcur := parse_restyled {} half_restyled
  rw [hf] at hconcur
  generalize parse {} halfRestyled = r at hconcur ⊢
  cases hconcur with
  | ok hfg => exact ⟨f, _, hf, rfl, hfg⟩

end Library

end Behavioral
