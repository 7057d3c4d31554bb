import Behavioral.Proofs.Labels

/-!
# What a definition says

Each line of a definition is a statement, behind its labels: a function, and the words of its result
and its operands (`Statement`). The body of an accepted definition has an instruction for each
statement, in turn (`Library.accepts_of_parse`). A word that names an operand is that operand, and a
literal is the hidden local of its value. The hidden locals stand behind the declared ones, one for
each value, and in front of the body each is loaded.

The range of locals is checked for all of them together. So a local that is named is a declared one
or a hidden one, and without literals it is declared (`Library.local_declared_or_hidden`); but a
hidden local can be named as well (`Library.names_undeclared`).
-/

namespace Behavioral

/-- What stands at a place of a list is related to what stands there in the other. -/
theorem exists_getElem?_of_forall₂ {α β : Type} {R : α → β → Prop} {as : List α} {bs : List β}
    (h : List.Forall₂ R as bs) {k : Nat} {a : α} (ha : as[k]? = some a) :
    ∃ b, bs[k]? = some b ∧ R a b := by
  induction h generalizing k with
  | nil => simp at ha
  | @cons a' b as bs hab _ ih =>
    rcases k with _ | k
    · cases ha
      exact ⟨b, rfl, hab⟩
    · exact ih ha

theorem exists_ok_of_map {ε α β : Type} {x : Except ε α} {f : α → β} {b : β}
    (h : x.toOption.map f = some b) : ∃ a, x = .ok a ∧ f a = b := by
  rcases x with e | a
  · cases h
  · exact ⟨a, rfl, Option.some_injective _ h⟩

namespace Draft

/-- Finds room for the value among the hidden locals. -/
def withLiteral (literals : List Float) (value : Float) : List Float :=
  (literalIndex literals value).2

/-- A literal is the value at its index, and the literals before it keep theirs. -/
theorem literalIndex_spec (literals : List Float) (value : Float) :
    literals <+: withLiteral literals value ∧
      (withLiteral literals value)[(literalIndex literals value).1]? = some value := by
  unfold withLiteral literalIndex
  split
  · rename_i k hk
    obtain ⟨hlt, heq, -⟩ := List.findIdx?_eq_some_iff_getElem.1 hk
    refine ⟨List.prefix_rfl, ?_⟩
    rw [List.getElem?_eq_getElem hlt, Float.toBits_inj.1 (beq_iff_eq.1 heq)]
  · exact ⟨List.prefix_append _ _, List.getElem?_concat_length⟩

theorem prefix_foldl_withLiteral (literals values : List Float) :
    literals <+: values.foldl withLiteral literals := by
  induction values generalizing literals with
  | nil => exact List.prefix_rfl
  | cons value rest ih => exact (literalIndex_spec literals value).1.trans (ih _)

namespace Form

variable {form : Form} {firstLocal : Nat} {hidden more : List Float} {word : String} {o : Operand}

/-- The value of an operand that stands for a hidden local. -/
def literal? (form : Form) (word : String) : Option Float :=
  if form.takesConstants || (Operand.ofWord? word).isSome then none else Behavioral.literal? word

/-- Whether a word behind the function is one of the constants of its instruction. -/
def isConstant (form : Form) (word : String) : Bool :=
  form.takesConstants && (Operand.ofWord? word).isNone

/-- The value of a constant. -/
def constant? (form : Form) (word : String) : Option Float :=
  if form.isConstant word then Behavioral.literal? word else none

/-- What a word is read as, where the hidden locals of the given values stand behind the first
`firstLocal` locals. -/
inductive Means (form : Form) (firstLocal : Nat) (hidden : List Float) : String → Operand → Prop
  | named {word : String} {o : Operand} : Operand.ofWord? word = some o →
      Means form firstLocal hidden word o
  | literal {word : String} {value : Float} {k : Nat} : form.literal? word = some value →
      hidden[k]? = some value → Means form firstLocal hidden word (.localCell (firstLocal + k))

theorem Means.mono (h : form.Means firstLocal hidden word o) (hmore : hidden <+: more) :
    form.Means firstLocal more word o := by
  rcases h with h | ⟨hvalue, hk⟩
  · exact .named h
  · obtain ⟨tail, rfl⟩ := hmore
    have hthere := (List.getElem?_eq_some_iff.1 hk).1
    exact .literal hvalue (by rw [List.getElem?_append_left hthere, hk])

/-- A name stands for itself. -/
theorem Means.eq_of_named {o' : Operand} (h : form.Means firstLocal hidden word o')
    (ho : Operand.ofWord? word = some o) : o' = o := by
  rcases h with ho' | ⟨hvalue, -⟩
  · exact Option.some_injective _ (ho'.symm.trans ho)
  · simp [literal?, ho] at hvalue

/-- A literal stands for the local of its value. -/
theorem Means.eq_of_literal {value : Float} (h : form.Means firstLocal hidden word o)
    (hvalue : form.literal? word = some value) :
    ∃ k, hidden[k]? = some value ∧ o = .localCell (firstLocal + k) := by
  rcases h with ho | ⟨hvalue', hk⟩
  · simp [literal?, ho] at hvalue
  · rename_i value' k
    obtain rfl : value' = value := Option.some_injective _ (hvalue'.symm.trans hvalue)
    exact ⟨k, hk, rfl⟩

end Form

variable {form : Form} {line firstLocal : Nat} {word : String} {words : List String}
  {r r' : Reading}

theorem takeOperand_cases (h : takeOperand line firstLocal form r word = .ok r') :
    (∃ o, Operand.ofWord? word = some o ∧ r' = { r with operands := r.operands ++ [o] }) ∨
      (form.isConstant word = true ∧ ∃ value, Behavioral.literal? word = some value ∧
        r' = { r with constants := r.constants ++ [value] }) ∨
      ∃ value, form.literal? word = some value ∧
        r' = ⟨r.operands ++ [.localCell (firstLocal + (literalIndex r.literals value).1)],
          r.constants, withLiteral r.literals value⟩ := by
  unfold takeOperand at h
  split at h
  · rename_i o ho
    split at h
    · cases h
    · split at h
      · cases h
        exact .inl ⟨o, ho, rfl⟩
      · cases h
  · rename_i hnone
    split at h
    · rename_i value hvalue
      split at h
      · rename_i htakes
        cases h
        exact .inr (.inl ⟨by simp [Form.isConstant, htakes, hnone], value, hvalue, rfl⟩)
      · rename_i htakes
        split at h
        · cases h
        · cases h
          exact .inr (.inr ⟨value, by simp [Form.literal?, htakes, hnone, hvalue], rfl⟩)
    · cases h

/-- The operands of an instruction are what the words that are not constants mean, and its literals
have their places among the hidden locals. -/
theorem foldlM_takeOperand (h : words.foldlM (takeOperand line firstLocal form) r = .ok r') :
    r'.literals = (words.filterMap form.literal?).foldl withLiteral r.literals ∧
      r'.constants = r.constants ++ words.filterMap form.constant? ∧
      ∃ written, r'.operands = r.operands ++ written ∧
        List.Forall₂ (form.Means firstLocal r'.literals)
          (words.filter (!form.isConstant ·)) written := by
  induction words generalizing r with
  | nil =>
    cases h
    exact ⟨rfl, by simp, [], by simp, .nil⟩
  | cons word rest ih =>
    obtain ⟨r₁, hword, hrest⟩ := bind_eq_ok.1 (by rwa [List.foldlM_cons] at h)
    obtain ⟨hliterals, hconstants, written, hwritten, hmeans⟩ := ih hrest
    rcases takeOperand_cases hword with
      ⟨o, ho, rfl⟩ | ⟨hconstant, value, hvalue, rfl⟩ | ⟨value, hvalue, rfl⟩
    · have hliteral : form.literal? word = none := by simp [Form.literal?, ho]
      have hkept : form.isConstant word = false := by simp [Form.isConstant, ho]
      refine ⟨by simpa [hliteral] using hliterals,
        by simpa [Form.constant?, hkept] using hconstants, o :: written, by simpa using hwritten, ?_⟩
      simp only [List.filter_cons, hkept]
      exact .cons (.named ho) hmeans
    · have hliteral : form.literal? word = none := by
        simp_all [Form.literal?, Form.isConstant]
      refine ⟨by simpa [hliteral] using hliterals,
        by simpa [Form.constant?, hconstant, hvalue] using hconstants, written, hwritten, ?_⟩
      simpa [hconstant] using hmeans
    · have hkept : form.isConstant word = false := by
        simp_all [Form.literal?, Form.isConstant]
      have hplace := (literalIndex_spec r.literals value).2
      have hlater : withLiteral r.literals value <+: r'.literals :=
        hliterals ▸ prefix_foldl_withLiteral _ _
      refine ⟨by simpa [hvalue] using hliterals,
        by simpa [Form.constant?, hkept] using hconstants, _ :: written, by simpa using hwritten, ?_⟩
      simp only [List.filter_cons, hkept]
      exact .cons ((Form.Means.literal hvalue hplace).mono hlater) hmeans

end Draft

/-- An instruction as the text writes it: the function that it calls, and the words of its result
and its operands. -/
structure Statement where
  callee : Function
  words : List String

namespace Statement

variable {s : Statement} {i : Instruction Function} {firstLocal : Nat} {hidden more : List Float}

def form (s : Statement) : Draft.Form :=
  .of s.callee

/-- The values of its literals, in turn. -/
def literals (s : Statement) : List Float :=
  s.words.filterMap s.form.literal?

/-- The instruction that a statement is read as. A function that writes no result has a word for its
operands only. -/
structure ReadAs (firstLocal : Nat) (hidden : List Float) (s : Statement)
    (i : Instruction Function) : Prop where
  callee : i.callee = s.callee
  constants : i.constants = s.words.filterMap s.form.constant?
  operands : ∃ written, i.operands = (if s.form.writesResult then [] else [.caller 0]) ++ written ∧
    List.Forall₂ (s.form.Means firstLocal hidden) (s.words.filter (!s.form.isConstant ·)) written

theorem ReadAs.mono (h : s.ReadAs firstLocal hidden i) (hmore : hidden <+: more) :
    s.ReadAs firstLocal more i := by
  obtain ⟨written, hoperands, hmeans⟩ := h.operands
  exact ⟨h.callee, h.constants, written, hoperands, hmeans.imp fun _ _ hword => hword.mono hmore⟩

end Statement

namespace Library

variable {l : Library} {text : String}

/-- The statement of a line, behind its labels. The label that a jump ends with is no operand. -/
def statement? (l : Library) (line : Line) : Option Statement :=
  match line.words.dropWhile fun word => (Draft.label? word).isSome with
  | [] => none
  | name :: words =>
    match l.resolve line.number name with
    | .ok callee =>
      some ⟨callee, if (Draft.Form.of callee).jumps then words.dropLast else words⟩
    | .error _ => none

/-- The label that a line jumps to. -/
def jumpLabel? (l : Library) (line : Line) : Option String :=
  match line.words.dropWhile Line.isLabel with
  | [] => none
  | name :: words =>
    match l.resolve line.number name with
    | .ok callee => if (Draft.Form.of callee).jumps then words.getLast? else none
    | .error _ => none

/-- The lines of a definition between its opening line and its end. -/
def bodyLines (text : String) : List Line :=
  (Line.ofText text).tail.takeWhile (!Draft.isEnd ·)

/-- The lines of the body that are more than labels. -/
def instructionLines (text : String) : List Line :=
  (bodyLines text).filter Line.isInstruction

/-- The statements of a definition, between its opening line and its end. -/
def statements (l : Library) (text : String) : List Statement :=
  ((Line.ofText text).tail.takeWhile (!Draft.isEnd ·)).filterMap l.statement?

/-- The values of the hidden locals of a definition: those of its literals, each once. -/
def hidden (l : Library) (text : String) : List Float :=
  ((l.statements text).flatMap Statement.literals).foldl Draft.withLiteral []

/-- What a line is read as: the instruction of its statement, and the label that it jumps to. -/
structure Reads (l : Library) (firstLocal : Nat) (hidden : List Float) (line : Line)
    (read : DraftLine) : Prop where
  statement : ∃ s, l.statement? line = some s ∧ s.ReadAs firstLocal hidden read.instruction
  label : read.label = l.jumpLabel? line
  labelled : read.label.isSome = read.instruction.callee.jumps
  jump : read.instruction.jump = none

/-- What a line of the body is at `pc`: it jumps to the place of its label, if its function jumps. -/
def Jumps (l : Library) (lines : List Line) (pc : Nat) (line : Line) (i : Instruction Function) :
    Prop :=
  (i.callee.jumps = false ∧ l.jumpLabel? line = none ∧ i.jump = none) ∨
    i.callee.jumps = true ∧ ∃ label target, l.jumpLabel? line = some label ∧
      Places lines (capitals label) target ∧ i.jump = some ((target : Int) - pc)

theorem statement?_eq_none {l : Library} {line : Line} (h : line.isInstruction = false) :
    l.statement? line = none := by
  have hnil : line.words.dropWhile Line.isLabel = [] := by simpa [Line.isInstruction] using h
  rw [statement?, show line.words.dropWhile (fun word => (Draft.label? word).isSome) = [] from hnil]

/-- What holds of the statement of every instruction line holds of the statements. -/
theorem forall₂_statements {l : Library} {β : Type} {R : Statement → β → Prop} {lines : List Line}
    {bs : List β} (h : List.Forall₂ (fun line b => ∃ s, l.statement? line = some s ∧ R s b)
      (lines.filter Line.isInstruction) bs) : List.Forall₂ R (lines.filterMap l.statement?) bs := by
  induction lines generalizing bs with
  | nil =>
    cases h
    exact .nil
  | cons line lines ih =>
    rw [List.filter_cons] at h
    split at h
    · obtain _ | ⟨⟨s, hs, hr⟩, hrest⟩ := h
      rw [List.filterMap_cons_some hs]
      exact .cons hr (ih hrest)
    · rename_i hinstruction
      rw [List.filterMap_cons_none (statement?_eq_none (Bool.eq_false_iff.2 hinstruction))]
      exact ih h

end Library

namespace Draft

/-- What has been read of a body are the statements of the lines, and the places of their labels. -/
structure Says (l : Library) (firstLocal : Nat) (d : Draft) (taken : List Line) : Prop where
  literals : d.literals =
    ((taken.filterMap l.statement?).flatMap Statement.literals).foldl withLiteral []
  lines : List.Forall₂ (l.Reads firstLocal d.literals) (taken.filter Line.isInstruction) d.lines
  labelled : d.Labelled taken

variable {l : Library} {firstLocal : Nat} {hidden : List Float} {d d' : Draft} {lines : List Line}

theorem says_empty : Says l firstLocal {} [] :=
  ⟨rfl, .nil, List.nodup_nil, fun _ _ => by simp [Places]⟩

theorem readInstruction_eq_ok {line : Nat} {literals literals' : List Float} {callee : Function}
    {words : List String} {read : DraftLine}
    (h : readInstruction firstLocal literals line callee words = .ok (read, literals')) :
    let s : Statement := ⟨callee, if (Form.of callee).jumps then words.dropLast else words⟩
    literals' = s.literals.foldl withLiteral literals ∧
      s.ReadAs firstLocal literals' read.instruction ∧ read.instruction.jump = none ∧
      (read.label = if (Form.of callee).jumps then words.getLast? else none) ∧
      read.label.isSome = callee.jumps := by
  obtain ⟨⟨given, label⟩, hsplit, h⟩ := bind_eq_ok.1 h
  obtain ⟨r, hr, h⟩ := bind_eq_ok.1 h
  cases h
  have hjumps : callee.jumps = (Form.of callee).jumps := by cases callee <;> rfl
  have hgiven : given = (if (Form.of callee).jumps then words.dropLast else words) ∧
      (label = if (Form.of callee).jumps then words.getLast? else none) ∧
      label.isSome = callee.jumps := by
    rw [hjumps]
    unfold splitLabel at hsplit
    split at hsplit
    · rename_i hjumps
      rw [if_pos hjumps, if_pos hjumps, hjumps]
      split at hsplit
      · rename_i last hlast
        cases hsplit
        exact ⟨rfl, hlast.symm, rfl⟩
      · cases hsplit
    · rename_i hjumps
      cases hsplit
      rw [if_neg hjumps, if_neg hjumps, Bool.eq_false_iff.2 hjumps]
      exact ⟨rfl, rfl, rfl⟩
  obtain ⟨hliterals, hconstants, hoperands⟩ := foldlM_takeOperand hr
  rw [← hgiven.1]
  exact ⟨hliterals, ⟨rfl, hconstants, hoperands⟩, rfl, hgiven.2⟩

theorem Says.count (hd : d.Says l firstLocal lines) :
    d.lines.length = lines.countP Line.isInstruction := by
  rw [List.countP_eq_length_filter]
  exact hd.lines.length_eq.symm

/-- A line adds its statement, if it has one, and its labels. -/
theorem Says.takeLine {line : Line} (hd : d.Says l firstLocal lines)
    (h : takeLine l.resolve firstLocal d line = .ok d') :
    d'.Says l firstLocal (lines ++ [line]) := by
  obtain ⟨⟨d₁, words⟩, hlabels, h⟩ := bind_eq_ok.1 h
  obtain ⟨hwords, hlines, hliterals⟩ := takeLabels_eq_ok hlabels
  have hlabelled := hd.labelled.takeLabels hd.count hlabels
  have hwords : line.words.dropWhile Line.isLabel = words := hwords.symm
  rcases words with _ | ⟨name, words⟩
  · have hplain : line.isInstruction = false := by simp [Line.isInstruction, hwords]
    cases h
    refine ⟨?_, ?_, hlabelled⟩
    · rw [List.filterMap_append, List.filterMap_cons_none (Library.statement?_eq_none hplain)]
      simpa using hliterals.trans hd.literals
    · rw [List.filter_append, List.filter_singleton, hplain, hlines, hliterals]
      simpa using hd.lines
  · obtain ⟨callee, hcallee, h⟩ := bind_eq_ok.1 h
    obtain ⟨⟨read, literals⟩, hread, h⟩ := bind_eq_ok.1 h
    cases h
    obtain ⟨hadded, hreadAs, hjump, hlabel, hisSome⟩ := readInstruction_eq_ok hread
    rw [hliterals] at hadded
    have hinstruction : line.isInstruction = true := by simp [Line.isInstruction, hwords]
    have hstatement : l.statement? line =
        some ⟨callee, if (Form.of callee).jumps then words.dropLast else words⟩ := by
      rw [Library.statement?, show line.words.dropWhile (fun word => (label? word).isSome) = _
        from hwords]
      simp only [hcallee]
    have hlabel' : l.jumpLabel? line =
        if (Form.of callee).jumps then words.getLast? else none := by
      rw [Library.jumpLabel?, hwords]
      simp only [hcallee]
    have hprefix : d.literals <+: literals := hadded ▸ prefix_foldl_withLiteral _ _
    refine ⟨?_, ?_, ⟨hlabelled.distinct, hlabelled.places⟩⟩
    · rw [List.filterMap_append, List.filterMap_cons_some hstatement, List.flatMap_append,
        List.foldl_append, ← hd.literals]
      simpa using hadded
    · rw [List.filter_append, List.filter_singleton, hinstruction]
      simp only [hlines]
      refine List.rel_append (hd.lines.imp fun _ _ hline => ?_)
        (.cons ⟨⟨_, hstatement, hreadAs⟩, hlabel.trans hlabel'.symm, ?_, hjump⟩ .nil)
      · obtain ⟨s, hs, hreads⟩ := hline.statement
        exact ⟨⟨s, hs, hreads.mono hprefix⟩, hline.label, hline.labelled, hline.jump⟩
      · rw [hisSome, hreadAs.callee]

/-- The instructions of the lines are those of their statements, with the jumps to their labels. -/
theorem settleJumps_eq_ok {labels : List (String × Nat)} {pc : Nat} {reads : List DraftLine}
    {body : List (Instruction Function)}
    (hlines : List.Forall₂ (l.Reads firstLocal hidden) lines reads)
    (h : settleJumps labels pc reads = .ok body) :
    List.Forall₂ (fun line i => ∃ s, l.statement? line = some s ∧ s.ReadAs firstLocal hidden i)
      lines body ∧
    ∀ (k : Nat) line i, lines[k]? = some line → body[k]? = some i →
      (i.callee.jumps = false ∧ l.jumpLabel? line = none ∧ i.jump = none) ∨
        i.callee.jumps = true ∧ ∃ label target, l.jumpLabel? line = some label ∧
          labels.lookup (capitals label) = some target ∧
          i.jump = some ((target : Int) - (pc + k : Nat)) := by
  induction hlines generalizing pc body with
  | nil =>
    cases h
    exact ⟨.nil, by simp⟩
  | @cons line read lines reads hline _ ih =>
    obtain ⟨i, after, rfl, hafter, hi⟩ := settleJumps_cons h
    obtain ⟨hreads, hjumps⟩ := ih hafter
    obtain ⟨hcallee, hoperands, hconstants⟩ := hi.unchanged
    obtain ⟨s, hs, hreadAs⟩ := hline.statement
    refine ⟨.cons ⟨s, hs, ?_⟩ hreads, fun k line' j hline' hj => ?_⟩
    · exact ⟨hcallee.trans hreadAs.callee, hconstants.trans hreadAs.constants,
        hoperands ▸ hreadAs.operands⟩
    · rcases k with _ | k
      · cases hline'
        cases hj
        rw [← hline.label, hcallee, ← hline.labelled]
        rcases hi with ⟨hnone, rfl⟩ | ⟨label, target, hlabel, htarget, rfl⟩
        · exact .inl ⟨by rw [hnone]; rfl, hnone, hline.jump⟩
        · exact .inr ⟨by rw [hlabel]; rfl, label, target, hlabel, htarget, rfl⟩
      · have hlater := hjumps k line' j hline' hj
        rwa [show pc + 1 + k = pc + (k + 1) by omega] at hlater

theorem settleJumps_head {labels : List (String × Nat)} {pc : Nat} {reads : List DraftLine}
    {body : List (Instruction Function)} {i : Instruction Function}
    (h : settleJumps labels pc reads = .ok body) (hi : body[0]? = some i) :
    ∃ read rest, reads = read :: rest ∧ i.operands = read.instruction.operands := by
  rcases reads with _ | ⟨read, rest⟩
  · cases h
    cases hi
  · obtain ⟨j, after, rfl, -, hj⟩ := settleJumps_cons h
    cases hi
    exact ⟨read, rest, rfl, hj.unchanged.2.1⟩

end Draft

namespace Opening

/-- The opening line of a definition. -/
def ofText? (text : String) : Option Opening :=
  match Line.ofText text with
  | [] => none
  | first :: _ => (ofLine first).toOption

end Opening

namespace Library

variable {l : Library} {text : String} {c : Composed}

/-- The body of an accepted definition: the loads of its hidden locals, which stand behind the
declared ones, and then an instruction for each instruction line. -/
structure Accepts (l : Library) (text : String) (opening : Opening) (c : Composed)
    (instructions : List (Instruction Function)) : Prop where
  opened : Opening.ofText? text = some opening
  paramCount : c.paramCount = opening.params
  localCount : c.localCount = opening.locals + (l.hidden text).length
  checks : Composition.Checks c.paramCount c.localCount c.body.length 0 none c.body
  body : c.body = Draft.loads opening.locals (l.hidden text) ++ instructions
  lines : List.Forall₂ (fun line i => ∃ s, l.statement? line = some s ∧
    s.ReadAs opening.locals (l.hidden text) i) (instructionLines text) instructions
  settled : ∀ (q : Nat) line i, (instructionLines text)[q]? = some line →
    instructions[q]? = some i → l.Jumps (bodyLines text) q line i
  unique : ∀ label target target', Places (bodyLines text) label target →
    Places (bodyLines text) label target' → target = target'
  leading : l.hidden text ≠ [] → ∀ i, instructions[0]? = some i → ∀ o ∈ i.operands,
    o.isPrevious = false

/-- Whatever a library accepts is read line by line. -/
theorem accepts_of_parse (h : l.parse text = .ok c) :
    ∃ opening instructions, l.Accepts text opening c instructions := by
  unfold parse at h
  split at h
  · cases h
  · rename_i first rest hlines
    obtain ⟨opening, hopening, h⟩ := Draft.bind_eq_ok.1 h
    obtain ⟨draft, hdraft, h⟩ := Draft.bind_eq_ok.1 h
    obtain ⟨body, hbody, h⟩ := Draft.bind_eq_ok.1 h
    have hlinesBody : bodyLines text = rest.takeWhile (!Draft.isEnd ·) := by
      rw [bodyLines, hlines, List.tail_cons]
    have hsays : draft.Says l opening.locals (bodyLines text) := by
      rw [hlinesBody]
      exact Draft.takeLines_induction (P := Draft.Says l opening.locals)
        (fun hd hline => hd.takeLine hline) [] Draft.says_empty hdraft
    have hhidden : draft.literals = l.hidden text := hsays.literals
    unfold Draft.instructions at hbody
    split at hbody
    · cases hbody
    · rename_i hleading
      obtain ⟨instructions, hsettled, hbody⟩ := Draft.bind_eq_ok.1 hbody
      cases hbody
      obtain ⟨hchecks, hc⟩ := Composition.compose_eq_ok h
      obtain ⟨hreads, hjumps⟩ := Draft.settleJumps_eq_ok hsays.lines hsettled
      rw [hhidden] at hc hreads hchecks hleading
      subst hc
      refine ⟨opening, instructions, ?_, rfl, rfl, hchecks, rfl, hreads, fun q line i hline hi => ?_,
        fun _ _ _ => hsays.labelled.unique, fun hliterals i hi o ho => ?_⟩
      · simp only [Opening.ofText?, hlines, hopening]
        rfl
      · rcases hjumps q line i hline hi with hnone |
          ⟨hcallee, label, target, hlabel, htarget, hd⟩
        · exact .inl hnone
        · rw [Nat.zero_add] at hd
          exact .inr ⟨hcallee, label, target, hlabel, hsays.labelled.lookup htarget, hd⟩
      · obtain ⟨read, reads, hdrafted, hoperands⟩ := Draft.settleJumps_head hsettled hi
        rw [hoperands] at ho
        by_contra hprevious
        have hany : read.instruction.operands.any Operand.isPrevious = true :=
          List.any_eq_true.2 ⟨o, ho, Bool.not_eq_false _ ▸ hprevious⟩
        exact hleading (by simp [Draft.leadsWithPrevious, hdrafted, hany, hliterals])

namespace Accepts

variable {opening : Opening} {instructions : List (Instruction Function)}

/-- The instructions are those of the statements. -/
theorem reads (h : l.Accepts text opening c instructions) :
    List.Forall₂ (Statement.ReadAs opening.locals (l.hidden text)) (l.statements text)
      instructions :=
  forall₂_statements h.lines

/-- A jump goes to a place in the body. -/
theorem jumps (h : l.Accepts text opening c instructions) (q : Nat) (i : Instruction Function)
    (hi : instructions[q]? = some i) (d : Int) (hd : i.jump = some d) : 0 ≤ (q : Int) + d := by
  have hq : q < (instructionLines text).length := by
    rw [h.lines.length_eq]
    exact (List.getElem?_eq_some_iff.1 hi).1
  rcases h.settled q _ i (List.getElem?_eq_getElem hq) hi with ⟨-, -, hnone⟩ |
    ⟨-, label, target, -, -, hjump⟩
  · rw [hd] at hnone
    cases hnone
  · rw [hd] at hjump
    cases hjump
    omega

theorem getElem?_loads {literals : List Float} {firstLocal k : Nat} :
    (Draft.loads firstLocal literals)[k]? = literals[k]?.map fun value =>
      ⟨.builtin .constant, [.localCell (firstLocal + k)], [value], none⟩ := by
  simp [Draft.loads, Function.comp_def]

/-- The loads stand in front of the body, one for each hidden local. -/
theorem load (h : l.Accepts text opening c instructions) {k : Nat} {value : Float}
    (hk : (l.hidden text)[k]? = some value) :
    c.body[k]? = some ⟨.builtin .constant, [.localCell (opening.locals + k)], [value], none⟩ := by
  have hload := @getElem?_loads (l.hidden text) opening.locals k
  rw [hk, Option.map_some] at hload
  rw [h.body, List.getElem?_append_left (List.getElem?_eq_some_iff.1 hload).1, hload]

/-- The instructions of the statements stand behind the loads. -/
theorem getElem?_body (h : l.Accepts text opening c instructions) (q : Nat) :
    c.body[(l.hidden text).length + q]? = instructions[q]? := by
  rw [h.body, List.getElem?_append_right (by simp [Draft.loads])]
  simp [Draft.loads]

/-- What a word means is an operand of an instruction of the body. -/
theorem operand (h : l.Accepts text opening c instructions) {s : Statement}
    (hs : s ∈ l.statements text) {word : String} (hword : word ∈ s.words) {o : Operand}
    (ho : Operand.ofWord? word = some o) : ∃ i ∈ c.body, o ∈ i.operands := by
  obtain ⟨q, hq⟩ := List.getElem?_of_mem hs
  obtain ⟨i, hi, hreads⟩ := exists_getElem?_of_forall₂ h.reads hq
  obtain ⟨written, hoperands, hmeans⟩ := hreads.operands
  have hkept : word ∈ s.words.filter (!s.form.isConstant ·) :=
    List.mem_filter.2 ⟨hword, by simp [Draft.Form.isConstant, ho]⟩
  obtain ⟨j, hj⟩ := List.getElem?_of_mem hkept
  obtain ⟨o', ho', hmean⟩ := exists_getElem?_of_forall₂ hmeans hj
  have hsame : o' = o := hmean.eq_of_named ho
  refine ⟨i, ?_, ?_⟩
  · rw [h.body]
    exact List.mem_append_right _ (List.mem_of_getElem? hi)
  · rw [hoperands, ← hsame]
    exact List.mem_append_right _ (List.mem_of_getElem? ho')

end Accepts

/-- A local that an accepted definition names is a declared one, or it is the hidden local of a
literal. -/
theorem local_declared_or_hidden (h : l.parse text = .ok c) :
    ∃ opening, Opening.ofText? text = some opening ∧ ∀ s ∈ l.statements text, ∀ word ∈ s.words,
      ∀ i, Operand.ofWord? word = some (.localCell i) →
        (i < opening.locals ∨ ∃ k value, i = opening.locals + k ∧
          (l.hidden text)[k]? = some value ∧
          c.body[k]? = some ⟨.builtin .constant, [.localCell i], [value], none⟩) ∧
        ((∀ s ∈ l.statements text, s.literals = []) → i < opening.locals) := by
  obtain ⟨opening, instructions, haccepts⟩ := accepts_of_parse h
  refine ⟨opening, haccepts.opened, fun s hs word hword i hi => ?_⟩
  obtain ⟨j, hj, hoperand⟩ := haccepts.operand hs hword hi
  have hlt : i < opening.locals + (l.hidden text).length := by
    obtain ⟨pc, hpc⟩ := List.getElem?_of_mem hj
    obtain ⟨before, hchecked⟩ := haccepts.checks.get hpc
    rw [← haccepts.localCount]
    exact hchecked.operands _ hoperand
  refine ⟨?_, fun hnone => ?_⟩
  · by_cases hdeclared : i < opening.locals
    · exact .inl hdeclared
    · obtain ⟨k, rfl⟩ := Nat.exists_eq_add_of_le (Nat.le_of_not_lt hdeclared)
      have hk : k < (l.hidden text).length := by omega
      exact .inr ⟨k, _, rfl, List.getElem?_eq_getElem hk,
        haccepts.load (List.getElem?_eq_getElem hk)⟩
  · have hhidden : l.hidden text = [] := by
      rw [hidden, List.flatMap_eq_nil_iff.2 hnone]
      rfl
    simpa [hhidden] using hlt

/-- Hands back what the hidden local of its literal holds. -/
def leak : String :=
  ".FUNC leak PARAMS=1\n_ADD RET P0 2\n_MOV RET V0\n.ENDF"

theorem parse_leak : ∃ c, parse {} leak = .ok c := by
  have hparsed : (parse {} leak).toOption.map (·.localCount) = some 1 := by decide +kernel
  obtain ⟨c, hc, -⟩ := exists_ok_of_map hparsed
  exact ⟨c, hc⟩

theorem statement_leak : ∃ s ∈ statements {} leak, "V0" ∈ s.words := by
  have hwords : (statements {} leak).map Statement.words = [["RET", "P0", "2"], ["RET", "V0"]] := by
    decide +kernel
  have hsecond : ["RET", "V0"] ∈ (statements {} leak).map Statement.words := by simp [hwords]
  obtain ⟨s, hs, hsecond⟩ := List.mem_map.1 hsecond
  exact ⟨s, hs, by simp [hsecond]⟩

theorem local_declared_or_hidden_leak :
    ∃ c, parse {} leak = .ok c ∧ (∃ s ∈ statements {} leak, "V0" ∈ s.words) ∧
      Operand.ofWord? "V0" = some (.localCell 0) ∧
      c.body[0]? = some ⟨.builtin .constant, [.localCell 0], [2], none⟩ := by
  obtain ⟨c, hc⟩ := parse_leak
  obtain ⟨s, hs, hword⟩ := statement_leak
  have hnamed : Operand.ofWord? "V0" = some (.localCell 0) := by decide +kernel
  obtain ⟨opening, hopened, hlocals⟩ := local_declared_or_hidden hc
  have hnone : opening.locals = 0 := by
    have hcount : (Opening.ofText? leak).map Opening.locals = some 0 := by decide +kernel
    simpa [hopened] using hcount
  have hhidden : hidden {} leak = [2] := by decide +kernel
  rcases (hlocals s hs "V0" hword 0 hnamed).1 with hlt | ⟨k, value, hk, hvalue, hload⟩
  · omega
  · obtain rfl : k = 0 := by omega
    rw [hhidden] at hvalue
    cases hvalue
    exact ⟨c, hc, ⟨s, hs, hword⟩, hnamed, hload⟩

/-- A definition can name a local that it does not declare. -/
theorem names_undeclared :
    ¬ ∀ (l : Library) (text : String) (c : Composed), l.parse text = .ok c →
      ∀ opening, Opening.ofText? text = some opening → ∀ s ∈ l.statements text, ∀ word ∈ s.words,
        ∀ i, Operand.ofWord? word = some (.localCell i) → i < opening.locals := by
  intro h
  obtain ⟨c, hc⟩ := parse_leak
  obtain ⟨s, hs, hword⟩ := statement_leak
  have hnamed : Operand.ofWord? "V0" = some (.localCell 0) := by decide +kernel
  have hcount : (Opening.ofText? leak).map Opening.locals = some 0 := by decide +kernel
  obtain ⟨opening, hopened, hnone⟩ := Option.map_eq_some_iff.1 hcount
  have hlt := h {} leak c hc opening hopened s hs "V0" hword 0 hnamed
  omega

end Library

end Behavioral
