import Behavioral.Proofs.Statements
import Behavioral.Proofs.Words

/-!
# Calling what is defined

The name of an accepted definition is a word of its opening line, and further definitions leave its
function in the library under that name (`get?_defineAll`). A line that starts with the name, in any
letter case, and goes on with an operand for the result and one for each parameter is read as a call
of that function, wherever it stands in a body, as long as the name does not start with an
underscore or a star or end with a colon (`readsCall_of_isCallable`). A name that does is accepted
all the same, but no line can start with it and call its function (`isCallable_of_readsCall`): a
builtin's name, a comment or a label stands there instead.
-/

namespace Behavioral

/-! ### Names -/

/-- Whether a line that starts with the name is a call, and no comment, builtin's or label. -/
def isCallable (name : String) : Bool :=
  name.toList.head? != some '_' && name.toList.head? != some '*' && name.toList.getLast? != some ':'

theorem isCallable_capitals (name : String) : isCallable (capitals name) = isCallable name := by
  have hunderscore : isAsciiLetter '_' = false := by decide
  have hstar : isAsciiLetter '*' = false := by decide
  have hcolon : isAsciiLetter ':' = false := by decide
  simp only [isCallable, capitals, String.toList_ofList, List.head?_map, List.getLast?_map,
    map_capital_bne hunderscore, map_capital_bne hstar, map_capital_bne hcolon]

/-- The case of letters does not matter. -/
theorem isCallable_of_sameLetters {name name' : String} (h : sameLetters name name' = true) :
    isCallable name = isCallable name' := by
  rw [← isCallable_capitals name, beq_iff_eq.1 h, isCallable_capitals]

theorem label?_eq_none {word : String} :
    Draft.label? word = none ↔ word.toList.getLast? ≠ some ':' := by
  rw [Draft.label?, ← List.head?_reverse]
  rcases word.toList.reverse with _ | ⟨c, rest⟩
  · simp
  · by_cases hc : c = ':'
    · subst hc
      simp
    · simp [hc]

theorem isCallable_iff {name : String} : isCallable name = true ↔
    name.toList.head? ≠ some '_' ∧ name.toList.head? ≠ some '*' ∧
      name.toList.getLast? ≠ some ':' := by
  simp [isCallable, and_assoc]

namespace Opening

theorem name_takeWord {line : Nat} {opening opening' : Opening} {word : String}
    (h : takeWord line opening word = .ok opening') : opening'.name = opening.name := by
  unfold takeWord at h
  split at h
  · split at h
    · obtain ⟨n, -, h⟩ := Draft.bind_eq_ok.1 h
      cases h
      rfl
    · split at h
      · obtain ⟨n, -, h⟩ := Draft.bind_eq_ok.1 h
        cases h
        rfl
      · cases h
  · cases h

theorem name_foldlM {line : Nat} {words : List String} {opening opening' : Opening}
    (h : words.foldlM (takeWord line) opening = .ok opening') : opening'.name = opening.name := by
  induction words generalizing opening with
  | nil =>
    cases h
    rfl
  | cons word words ih =>
    rw [List.foldlM_cons] at h
    obtain ⟨next, hnext, h⟩ := Draft.bind_eq_ok.1 h
    exact (ih h).trans (name_takeWord hnext)

theorem name_mem_words {line : Line} {opening : Opening} (h : ofLine line = .ok opening) :
    opening.name ∈ line.words := by
  unfold ofLine at h
  split at h
  · rename_i hwords
    split at h
    · rw [name_foldlM h, hwords]
      exact List.mem_cons_of_mem _ List.mem_cons_self
    · cases h
  · cases h

end Opening

namespace Library

variable {l l' : Library} {text : String} {f g : Composed} {name : String}

/-- The name of an accepted definition can stand in a line. -/
theorem isWord_name (h : l.parse text = .ok f) : Line.IsWord f.name.toList := by
  unfold parse at h
  split at h
  · cases h
  · rename_i first rest hlines
    obtain ⟨opening, hopening, h⟩ := Draft.bind_eq_ok.1 h
    obtain ⟨draft, -, h⟩ := Draft.bind_eq_ok.1 h
    obtain ⟨body, -, h⟩ := Draft.bind_eq_ok.1 h
    obtain ⟨-, rfl⟩ := Composition.compose_eq_ok h
    have hfirst : first ∈ Line.ofText text := hlines ▸ List.mem_cons_self
    exact Line.isWord_of_mem_words hfirst (Opening.name_mem_words hopening)

/-- Makes definitions in turn; one that is not accepted leaves the library as it is. -/
def defineAll (l : Library) (texts : List String) : Library :=
  texts.foldl (fun l text =>
    match l.define text with
    | .ok (_, l') => l'
    | .error _ => l) l

/-- A definition adds its function, and every other name keeps what it stands for. -/
theorem get?_define (h : l.define text = .ok (f, l')) :
    l.parse text = .ok f ∧ l'.get? f.name = some f ∧
      ∀ name g, l.get? name = some g → l'.get? name = some g := by
  obtain ⟨f', hparse, h⟩ := Draft.bind_eq_ok.1 h
  split at h
  · cases h
  · rename_i hnew
    cases h
    refine ⟨hparse, List.lookup_cons_self, fun name g hname => ?_⟩
    have hother : (capitals name == capitals f.name) = false := by
      refine Bool.eq_false_iff.2 fun hsame => hnew ?_
      have hfound : l.get? f.name = some g := by
        rw [← hname, get?, get?, beq_iff_eq.1 hsame]
      rw [hfound]
      rfl
    rw [get?, List.lookup_cons, hother]
    exact hname

theorem get?_defineAll {texts : List String} (h : l.get? name = some g) :
    (l.defineAll texts).get? name = some g := by
  induction texts generalizing l with
  | nil => exact h
  | cons text texts ih =>
    rw [defineAll, List.foldl_cons]
    split
    · rename_i hdefine
      exact ih ((get?_define hdefine).2.2 name g h)
    · exact ih h

theorem resolve_of_get? {number : Nat} (hname : name.toList.head? ≠ some '_')
    (h : l.get? name = some g) : l.resolve number name = .ok (.composed g) := by
  have hcustom : (name.toList.head? == some '_') = false := beq_eq_false_iff_ne.2 hname
  simp [resolve, hcustom, h]

theorem resolve_underscore {number : Nat} {callee : Function}
    (hname : name.toList.head? = some '_') (h : l.resolve number name = .ok callee) :
    ∃ b, callee = .builtin b := by
  simp only [resolve, hname, beq_self_eq_true, if_true] at h
  split at h
  · rename_i hfound
    cases h
    obtain ⟨b, -, rfl⟩ := Option.map_eq_some_iff.1 hfound
    exact ⟨b, rfl⟩
  · cases h

end Library

/-! ### Operands -/

namespace Operand

/-- Whether a word names an operand that can be counted. -/
def isNamed (word : String) : Bool :=
  (ofWord? word).any fitsWord

/-- Whether a word behind the result is an operand: by its name, or else as a literal. -/
def isReadable (word : String) : Bool :=
  isNamed word || (ofWord? word).isNone && (literal? word).isSome

theorem isNamed_iff {word : String} :
    isNamed word = true ↔ ∃ o, ofWord? word = some o ∧ o.fitsWord = true := by
  cases h : ofWord? word <;> simp [isNamed, h]

end Operand

namespace Draft

variable {form : Form} {r : Reading} {firstLocal number : Nat} {word : String} {words : List String}

theorem takeOperand_named {o : Operand} (hr : r.constants = [])
    (hword : Operand.ofWord? word = some o) (hfits : o.fitsWord = true) :
    takeOperand number firstLocal form r word = .ok { r with operands := r.operands ++ [o] } := by
  simp [takeOperand, hword, hfits, hr]

/-- Behind the result, an operand is a name or a literal. -/
theorem takeOperand_behind (hform : form.takesConstants = false) (hr : r.constants = [])
    (hresult : r.operands ≠ [])
    (hword : Operand.isReadable word = true) :
    ∃ r', takeOperand number firstLocal form r word = .ok r' ∧ r'.constants = [] ∧
      r'.operands ≠ [] := by
  rcases Bool.or_eq_true_iff.1 hword with hnamed | hliteral
  · obtain ⟨o, hname, hfits⟩ := Operand.isNamed_iff.1 hnamed
    exact ⟨_, takeOperand_named hr hname hfits, hr, by simp⟩
  · obtain ⟨hname, hvalue⟩ := Bool.and_eq_true_iff.1 hliteral
    have hname : Operand.ofWord? word = none := Option.isNone_iff_eq_none.1 hname
    obtain ⟨value, hvalue⟩ := Option.isSome_iff_exists.1 hvalue
    have hsome : r.operands.isEmpty = false := by simpa using hresult
    simp only [takeOperand, hname, hvalue, hform, hsome]
    exact ⟨_, rfl, hr, by simp⟩

theorem foldlM_behind (hform : form.takesConstants = false) (hr : r.constants = [])
    (hresult : r.operands ≠ [])
    (hwords : ∀ word ∈ words, Operand.isReadable word = true) :
    ∃ r', words.foldlM (takeOperand number firstLocal form) r = .ok r' ∧ r'.constants = [] := by
  induction words generalizing r with
  | nil => exact ⟨r, rfl, hr⟩
  | cons word words ih =>
    obtain ⟨hword, hwords⟩ := List.forall_mem_cons.1 hwords
    obtain ⟨r₁, htake, hr₁, hresult₁⟩ := takeOperand_behind hform hr hresult hword
    obtain ⟨r', hrest, hr'⟩ := ih hr₁ hresult₁ hwords
    refine ⟨r', ?_, hr'⟩
    rw [List.foldlM_cons, htake]
    exact hrest

/-- The result and the operands of a composed function are read as what they mean. -/
theorem readInstruction_composed {f : Composed} {literals : List Float} {result : String}
    (hresult : Operand.isNamed result = true)
    (hwords : ∀ word ∈ words, Operand.isReadable word = true) :
    ∃ operands literals', literals <+: literals' ∧
      List.Forall₂ ((Form.of (.composed f)).Means firstLocal literals') (result :: words) operands ∧
      readInstruction firstLocal literals number (.composed f) (result :: words) =
        .ok (⟨number, ⟨.composed f, operands, [], none⟩, none⟩, literals') := by
  obtain ⟨o, ho, hfits⟩ := Operand.isNamed_iff.1 hresult
  have hfirst : takeOperand number firstLocal (Form.of (.composed f)) ⟨[], [], literals⟩ result =
      .ok ⟨[o], [], literals⟩ := takeOperand_named rfl ho hfits
  obtain ⟨r, hrest, hconstants⟩ := @foldlM_behind (Form.of (.composed f)) ⟨[o], [], literals⟩
    firstLocal number words rfl rfl (by simp) hwords
  have hfold : (result :: words).foldlM
      (takeOperand number firstLocal (Form.of (.composed f))) ⟨[], [], literals⟩ = .ok r := by
    rw [List.foldlM_cons, hfirst]
    exact hrest
  obtain ⟨hliterals, -, written, hwritten, hmeans⟩ := foldlM_takeOperand hfold
  refine ⟨r.operands, r.literals, hliterals ▸ prefix_foldl_withLiteral _ _, ?_, ?_⟩
  · rw [hwritten, List.nil_append]
    have hkept : (result :: words).filter (!(Form.of (.composed f)).isConstant ·) =
        result :: words := List.filter_eq_self.2 fun _ _ => rfl
    rwa [hkept] at hmeans
  · have hread : readInstruction firstLocal literals number (.composed f) (result :: words) =
        .ok (⟨number, ⟨.composed f, r.operands, r.constants, none⟩, none⟩, r.literals) := by
      simp only [readInstruction]
      exact congrArg (Except.map _) hfold
    rw [hread, hconstants]

/-- A line that is taken is only labels, or adds an instruction for the function that it names. -/
theorem takeLine_eq_ok {resolve : (line : Nat) → (name : String) → Except Fault Function}
    {d d' : Draft} {line : Line} (h : takeLine resolve firstLocal d line = .ok d') :
    ∃ d₁ rest, takeLabels line.number d line.words = .ok (d₁, rest) ∧ d'.labels = d₁.labels ∧
      ((rest = [] ∧ d'.lines = d₁.lines) ∨
        ∃ name operands read, rest = name :: operands ∧ d'.lines = d₁.lines ++ [read] ∧
          resolve line.number name = .ok read.instruction.callee) := by
  obtain ⟨⟨d₁, rest⟩, hlabels, h⟩ := bind_eq_ok.1 h
  rcases rest with _ | ⟨name, operands⟩
  · cases h
    exact ⟨_, [], hlabels, rfl, .inl ⟨rfl, rfl⟩⟩
  · obtain ⟨callee, hcallee, h⟩ := bind_eq_ok.1 h
    obtain ⟨⟨read, literals⟩, hread, h⟩ := bind_eq_ok.1 h
    cases h
    rw [← callee_readInstruction hread] at hcallee
    exact ⟨d₁, _, hlabels, rfl, .inr ⟨name, operands, read, rfl, rfl, hcallee⟩⟩

end Draft

/-! ### Calls -/

/-- A line that starts with the name of a function, in any letter case, and goes on with an operand
for the result and one for each parameter. -/
structure CallLine (f : Composed) where
  indent : List Char
  name : String
  rest : List Char
  blank : Gap indent
  same : sameLetters name f.name = true
  parted : ∀ c ∈ rest.head?, Line.endsWord c = true
  result : ∀ word ∈ (Line.wordsBehind rest).head?, Operand.isNamed word = true
  arity : (Line.wordsBehind rest).length = 1 + f.paramCount
  operands : ∀ word ∈ Line.wordsBehind rest, Operand.isReadable word = true

namespace CallLine

variable {f : Composed}

def text (call : CallLine f) : List Char :=
  call.indent ++ call.name.toList ++ call.rest

/-- The words of its result and its operands. -/
def words (call : CallLine f) : List String :=
  Line.wordsBehind call.rest

/-- The line, where it has the given number. -/
def line (call : CallLine f) (number : Nat) : Line :=
  ⟨number, Line.content call.text⟩

theorem isCallable_name (call : CallLine f) (h : isCallable f.name = true) :
    call.name.toList.head? ≠ some '_' ∧ call.name.toList.head? ≠ some '*' ∧
      call.name.toList.getLast? ≠ some ':' :=
  isCallable_iff.1 ((isCallable_of_sameLetters call.same).trans h)

theorem label?_name (call : CallLine f) (h : isCallable f.name = true) :
    Draft.label? call.name = none :=
  label?_eq_none.2 (call.isCallable_name h).2.2

@[simp] theorem line_number (call : CallLine f) (number : Nat) :
    (call.line number).number = number := rfl

/-- The name stands in the line as a word. -/
theorem isWord_name (call : CallLine f) (hname : Line.IsWord f.name.toList) :
    Line.IsWord call.name.toList := by
  refine ⟨fun hnil => hname.1 ?_, ?_⟩
  · have hcapitals : call.name.toList.map capital = f.name.toList.map capital :=
      String.ofList_inj.1 (beq_iff_eq.1 call.same)
    rw [hnil] at hcapitals
    exact List.map_eq_nil_iff.1 hcapitals.symm
  · exact forall_mem_of_sameLetters (fun _ => Line.isAsciiLetter_of_endsWord) call.same hname.2

theorem words_line (call : CallLine f) (hname : Line.IsWord f.name.toList) (number : Nat) :
    (call.line number).words = call.name :: call.words := by
  have hwords := @Line.words_line call.indent call.name.toList call.rest number call.blank
    (call.isWord_name hname) call.parted
  rwa [String.ofList_toList] at hwords

theorem words_eq_cons (call : CallLine f) : ∃ result words, call.words = result :: words ∧
    Operand.isNamed result = true ∧ ∀ word ∈ words, Operand.isReadable word = true := by
  have hpos : 0 < (Line.wordsBehind call.rest).length := by
    rw [call.arity]
    omega
  obtain ⟨result, words, hwords⟩ := List.exists_cons_of_length_pos hpos
  refine ⟨result, words, hwords, call.result result (by rw [hwords]; rfl), fun word hword => ?_⟩
  exact call.operands word (hwords ▸ List.mem_cons_of_mem result hword)

/-- The line is taken for a comment just when its name starts with a star. -/
theorem isSkipped_text (call : CallLine f) (hname : Line.IsWord f.name.toList) :
    Line.isSkipped (Line.content call.text) = (call.name.toList.head? == some '*') := by
  have hword := call.isWord_name hname
  rw [text, Line.content_line call.blank hword]
  obtain ⟨c, name, hcons⟩ := List.exists_cons_of_ne_nil hword.1
  rw [hcons]
  rfl

/-- It is never taken for the end of the body, which is a single word. -/
theorem isEnd_line (call : CallLine f) (hname : Line.IsWord f.name.toList) (number : Nat) :
    Draft.isEnd (call.line number) = false := by
  refine Bool.eq_false_iff.2 fun hend => ?_
  have hin : ∀ c ∈ Line.content call.text, Line.isSeparator c = false := by
    have hletters : ".ENDF".toList.any Line.endsWord = false := by decide +kernel
    have hin := forall_mem_of_sameLetters (fun _ => Line.isAsciiLetter_of_endsWord) hend
      fun c hc => Bool.eq_false_iff.2 (List.any_eq_false.1 hletters c hc)
    rw [String.toList_ofList] at hin
    exact fun c hc => (Bool.or_eq_false_iff.1 (hin c hc)).1
  obtain ⟨result, words, hcall, -⟩ := call.words_eq_cons
  have hsingle : (call.line number).words.length ≤ 1 := by
    rw [Line.words, List.length_map]
    exact length_splitWords_le_one hin
  rw [call.words_line hname, hcall] at hsingle
  simp at hsingle

/-- Reading on from a call line that is no comment. -/
theorem takeLines_text (call : CallLine f) (hname : Line.IsWord f.name.toList)
    (hstar : call.name.toList.head? ≠ some '*')
    (resolve : (line : Nat) → (name : String) → Except Fault Function) (opening : Opening)
    (d : Draft) (number : Nat) (rest : List (List Char)) :
    Draft.takeLines resolve opening d (Line.keep number (call.text :: rest)) =
      Draft.takeLine resolve opening.locals d (call.line number) >>= fun d' =>
        Draft.takeLines resolve opening d' (Line.keep (number + 1) rest) := by
  have hkept : Line.isSkipped (Line.content call.text) = false := by
    rw [call.isSkipped_text hname, beq_eq_false_iff_ne]
    exact hstar
  have hend : Draft.isEnd ⟨number, Line.content call.text⟩ = false := call.isEnd_line hname number
  simp only [Line.keep, hkept, Draft.takeLines, hend, Bool.false_eq_true, if_false]
  rfl

end CallLine

namespace Library

/-- Wherever the line stands in a body, it adds a call of the function on what its words mean, and
reading goes on behind it. -/
def ReadsCall (l : Library) {f : Composed} (call : CallLine f) : Prop :=
  ∀ (opening : Opening) (d : Draft) (number : Nat) (rest : List (List Char)),
    ∃ operands literals, d.literals <+: literals ∧
      List.Forall₂ ((Draft.Form.of (.composed f)).Means opening.locals literals) call.words
        operands ∧
      Draft.takeLines l.resolve opening d (Line.keep number (call.text :: rest)) =
        Draft.takeLines l.resolve opening
          { d with
            lines := d.lines ++ [⟨number, ⟨.composed f, operands, [], none⟩, none⟩], literals }
          (Line.keep (number + 1) rest)

variable {l l' : Library} {f g : Composed} {text : String}

theorem resolve_name (hget : l.get? f.name = some f) (h : isCallable f.name = true)
    (call : CallLine f) (number : Nat) : l.resolve number call.name = .ok (.composed f) := by
  refine resolve_of_get? (call.isCallable_name h).1 ?_
  rw [← hget, get?, get?, beq_iff_eq.1 call.same]

/-- A line that starts with a callable name calls its function. -/
theorem readsCall_of_isCallable (hname : Line.IsWord f.name.toList) (hget : l.get? f.name = some f)
    (h : isCallable f.name = true) (call : CallLine f) : l.ReadsCall call := by
  intro opening d number rest
  obtain ⟨result, words, hcall, hresult, hwords⟩ := call.words_eq_cons
  obtain ⟨operands, literals, hliterals, hmeans, hread⟩ :=
    @Draft.readInstruction_composed opening.locals number words f d.literals result hresult hwords
  refine ⟨operands, literals, hliterals, hcall ▸ hmeans, ?_⟩
  have hlabels : Draft.takeLabels number d (call.line number).words =
      .ok (d, call.name :: result :: words) := by
    rw [call.words_line hname, hcall, Draft.takeLabels, call.label?_name h]
  have htake : Draft.takeLine l.resolve opening.locals d (call.line number) =
      .ok { d with
        lines := d.lines ++ [⟨number, ⟨.composed f, operands, [], none⟩, none⟩], literals } := by
    simp only [Draft.takeLine, call.line_number, hlabels, bind, Except.bind,
      resolve_name hget h call, hread]
    rfl
  rw [call.takeLines_text hname (call.isCallable_name h).2.1, htake]
  rfl

/-- A first line of a body that becomes a call has no label, and names no builtin. -/
theorem name_of_takeLine (hname : Line.IsWord f.name.toList) {call : CallLine f}
    {firstLocal number : Nat} {read : DraftLine} {literals : List Float}
    (hcallee : read.instruction.callee = .composed f)
    (h : Draft.takeLine l.resolve firstLocal {} (call.line number) =
      .ok { lines := [read], literals }) :
    call.name.toList.head? ≠ some '_' ∧ call.name.toList.getLast? ≠ some ':' := by
  obtain ⟨d₁, words, hlabels, hsame, hwords⟩ := Draft.takeLine_eq_ok h
  rw [call.words_line hname] at hlabels
  have hlabel : Draft.label? call.name = none := by
    by_contra hlabel
    obtain ⟨label, hlabel⟩ := Option.ne_none_iff_exists'.1 hlabel
    have hplaces := ((Draft.labels_takeLabels hlabels List.nodup_nil).2 (capitals label) 0).2
      (.inr ⟨by simp [Line.isLabel, hlabel], rfl⟩)
    rw [← hsame] at hplaces
    cases hplaces
  rw [Draft.takeLabels, hlabel] at hlabels
  cases hlabels
  refine ⟨fun hunderscore => ?_, label?_eq_none.1 hlabel⟩
  rcases hwords with ⟨hnil, -⟩ | ⟨name, _, read', hcons, hlines, hresolve⟩
  · cases hnil
  · cases hcons
    cases hlines
    obtain ⟨b, hb⟩ := resolve_underscore hunderscore hresolve
    rw [hcallee] at hb
    cases hb

/-- If a line is read as a call of the function that it starts with, the name is callable. -/
theorem isCallable_of_readsCall (hname : Line.IsWord f.name.toList) {call : CallLine f}
    (h : l.ReadsCall call) : isCallable f.name = true := by
  -- a body of just this line
  obtain ⟨operands, literals, -, -, htake⟩ := h ⟨"", 0, 0⟩ {} 1 [".ENDF".toList]
  have hend : ∀ d, Draft.takeLines l.resolve ⟨"", 0, 0⟩ d (Line.keep 2 [".ENDF".toList]) =
      .ok d := by
    have hkeep : Line.keep 2 [".ENDF".toList] = [⟨2, ".ENDF".toList⟩] := rfl
    intro d
    rw [hkeep]
    rfl
  rw [hend] at htake
  rw [← isCallable_of_sameLetters call.same, isCallable_iff]
  have hstar : call.name.toList.head? ≠ some '*' := by
    intro hstar
    have hskipped : Line.isSkipped (Line.content call.text) = true := by
      rw [call.isSkipped_text hname, hstar]
      rfl
    rw [Line.keep, if_pos hskipped, hend] at htake
    cases htake
  rw [call.takeLines_text hname hstar] at htake
  obtain ⟨d, hline, hd⟩ := Draft.bind_eq_ok.1 htake
  rw [hend] at hd
  cases hd
  obtain ⟨hunderscore, hcolon⟩ := name_of_takeLine hname rfl hline
  exact ⟨hunderscore, hstar, hcolon⟩

theorem statement?_line (hname : Line.IsWord f.name.toList) (hget : l.get? f.name = some f)
    (h : isCallable f.name = true) (call : CallLine f) (number : Nat) :
    l.statement? (call.line number) = some ⟨.composed f, call.words⟩ := by
  have hwords : (call.line number).words.dropWhile (fun word => (Draft.label? word).isSome) =
      call.name :: call.words := by
    rw [call.words_line hname, List.dropWhile_cons, call.label?_name h]
    rfl
  rw [statement?, hwords]
  simp only [call.line_number, resolve_name hget h call number]
  rfl

/-- Where a call line stands in an accepted definition, its body has the call. -/
theorem Accepts.call {opening : Opening} {instructions : List (Instruction Function)}
    (haccepts : l.Accepts text opening g instructions) (hname : Line.IsWord f.name.toList)
    (hget : l.get? f.name = some f) (h : isCallable f.name = true) {call : CallLine f}
    {q number : Nat} (hline : (instructionLines text)[q]? = some (call.line number)) :
    ∃ operands, g.body[(l.hidden text).length + q]? = some ⟨.composed f, operands, [], none⟩ ∧
      List.Forall₂ ((Draft.Form.of (.composed f)).Means opening.locals (l.hidden text)) call.words
        operands := by
  obtain ⟨i, hi, s, hs, hreads⟩ := exists_getElem?_of_forall₂ haccepts.lines hline
  rw [statement?_line hname hget h, Option.some.injEq] at hs
  subst hs
  obtain ⟨written, hoperands, hmeans⟩ := hreads.operands
  have hkept : call.words.filter (!(Draft.Form.of (.composed f)).isConstant ·) = call.words :=
    List.filter_eq_self.2 fun _ _ => rfl
  have hjump : i.jump = none := by
    rcases haccepts.settled q _ i hline hi with ⟨-, -, hnone⟩ | ⟨hjumps, -⟩
    · exact hnone
    · rw [hreads.callee] at hjumps
      cases hjumps
  refine ⟨written, ?_, by rwa [Statement.form, hkept] at hmeans⟩
  have hconstants : i.constants = [] := by
    rw [hreads.constants, List.filterMap_eq_nil_iff]
    exact fun _ _ => rfl
  have hcallee : i.callee = .composed f := hreads.callee
  have hwritten : i.operands = written := hoperands
  rw [haccepts.getElem?_body, hi]
  obtain ⟨_, _, _, _⟩ := i
  cases hcallee
  cases hwritten
  cases hconstants
  cases hjump
  rfl

/-- After an accepted definition, whatever else is defined or fails, every line that starts with the
function's name in any letter case and goes on with an operand for the result and one for each
parameter is read as a call of that very function, if the name is callable, and only then. The body
of a definition that is accepted later has that call in the place of the line. -/
theorem readsCall_iff (h : l.define text = .ok (f, l')) (texts : List String) (call : CallLine f) :
    ((l'.defineAll texts).ReadsCall call ↔ isCallable f.name = true) ∧
      (isCallable f.name = true → ∀ later g, (l'.defineAll texts).parse later = .ok g →
        ∀ q number, (instructionLines later)[q]? = some (call.line number) →
          ∃ opening operands, Opening.ofText? later = some opening ∧
            g.body[((l'.defineAll texts).hidden later).length + q]? =
              some ⟨.composed f, operands, [], none⟩ ∧
            List.Forall₂ ((Draft.Form.of (.composed f)).Means opening.locals
              ((l'.defineAll texts).hidden later)) call.words operands) := by
  obtain ⟨hparse, hthere, -⟩ := get?_define h
  have hname := isWord_name hparse
  have hget := @get?_defineAll l' f f.name texts hthere
  refine ⟨⟨isCallable_of_readsCall hname, fun hcallable =>
    readsCall_of_isCallable hname hget hcallable call⟩, ?_⟩
  intro hcallable later g hlater q number hline
  obtain ⟨opening, instructions, haccepts⟩ := accepts_of_parse hlater
  obtain ⟨operands, hbody, hmeans⟩ := haccepts.call hname hget hcallable hline
  exact ⟨opening, operands, haccepts.opened, hbody, hmeans⟩

/-- A definition of the given name that hands on its parameter. -/
def gain (name : String) : String :=
  ".FUNC " ++ name ++ " PARAMS=1\n_MOV RET P0\n.ENDF"

theorem define_gain {name : String}
    (h : ((define {} (gain name)).toOption.map fun r => (r.1.name, r.1.paramCount)) =
      some (name, 1)) :
    ∃ f l', define {} (gain name) = .ok (f, l') ∧ f.name = name ∧ f.paramCount = 1 := by
  obtain ⟨⟨f, l'⟩, hdefine, hf⟩ := exists_ok_of_map h
  exact ⟨f, l', hdefine, congrArg Prod.fst hf, congrArg Prod.snd hf⟩

theorem wordsBehind_literal : Line.wordsBehind " RET, 2k ; doubled".toList = ["RET", "2k"] := by
  decide +kernel

/-- A line that calls a function of one parameter on a literal. -/
def onLiteral (name : String) (hsame : sameLetters name f.name = true) (hcount : f.paramCount = 1) :
    CallLine f where
  indent := "  ".toList
  name := name
  rest := " RET, 2k ; doubled".toList
  blank := by decide
  same := hsame
  parted := by
    rintro c ⟨⟩
    decide
  result := by
    rw [wordsBehind_literal]
    rintro word ⟨⟩
    decide
  arity := by rw [wordsBehind_literal, hcount]; rfl
  operands := by
    rw [wordsBehind_literal]
    decide +kernel

theorem text_onLiteral (hsame : sameLetters "GAIN" f.name = true) (hcount : f.paramCount = 1) :
    (onLiteral "GAIN" hsame hcount).text = "  GAIN RET, 2k ; doubled".toList := by
  have hparts : "  ".toList ++ "GAIN".toList ++ " RET, 2k ; doubled".toList =
      "  GAIN RET, 2k ; doubled".toList := by
    decide +kernel
  exact hparts

/-- A definition with that line for its body. -/
def twice (name : String) : String :=
  ".FUNC twice PARAMS=1\n  " ++ name ++ " RET, 2k ; doubled\n.ENDF"

theorem instructionLines_twice :
    instructionLines (twice "GAIN") = [⟨2, Line.content "  GAIN RET, 2k ; doubled".toList⟩] := by
  rfl

theorem readsCall_iff_gain : ∃ f l', define {} (gain "gain") = .ok (f, l') ∧
    isCallable f.name = true ∧ ∃ call : CallLine f,
      call.text = "  GAIN RET, 2k ; doubled".toList ∧
      (l'.defineAll [gain "*gain", gain "Gain", ".FUNC"]).ReadsCall call ∧
      ∃ g operands, (l'.defineAll [gain "*gain", gain "Gain", ".FUNC"]).parse (twice "GAIN") =
        .ok g ∧ g.body[1]? = some ⟨.composed f, operands, [], none⟩ := by
  obtain ⟨f, l', hdefine, hname, hcount⟩ := @define_gain "gain" (by decide +kernel)
  have hlater : ((define {} (gain "gain")).toOption.bind fun r =>
      let l := r.2.defineAll [gain "*gain", gain "Gain", ".FUNC"]
      (l.parse (twice "GAIN")).toOption.map fun _ => (l.hidden (twice "GAIN")).length) =
        some 1 := by
    decide +kernel
  rw [hdefine] at hlater
  obtain ⟨g, hparse, hhidden⟩ := exists_ok_of_map hlater
  have hsame : sameLetters "GAIN" f.name = true := by
    rw [hname]
    decide
  have hcallable : isCallable f.name = true := by
    rw [hname]
    decide
  have hline : (instructionLines (twice "GAIN"))[0]? =
      some ((onLiteral "GAIN" hsame hcount).line 2) := by
    rw [instructionLines_twice, CallLine.line, text_onLiteral]
    rfl
  obtain ⟨hreads, hbody⟩ := readsCall_iff hdefine [gain "*gain", gain "Gain", ".FUNC"]
    (onLiteral "GAIN" hsame hcount)
  obtain ⟨-, operands, -, hcall, -⟩ := hbody hcallable _ g hparse 0 2 hline
  rw [hhidden] at hcall
  exact ⟨f, l', hdefine, hcallable, onLiteral "GAIN" hsame hcount, text_onLiteral hsame hcount,
    hreads.2 hcallable, g, operands, hparse, hcall⟩

/-- The name is accepted, but a line that starts with it is not read as a call of its function: a
later definition with that line is rejected, or has nothing in its place. -/
def AcceptsUncallable (name : String) : Prop :=
  ∃ f l', define {} (gain name) = .ok (f, l') ∧
    (∃ call : CallLine f, call.name = name ∧ ¬ l'.ReadsCall call) ∧
    ∀ g, l'.parse (twice name) = .ok g → g.body = []

theorem acceptsUncallable_of_define {name : String} (hcallable : isCallable name = false)
    (h : ((define {} (gain name)).toOption.map fun r => (r.1.name, r.1.paramCount)) =
      some (name, 1))
    (hlater : ((define {} (gain name)).toOption.bind fun r =>
      (r.2.parse (twice name)).toOption.map (·.body.length)).all (· == 0) = true) :
    AcceptsUncallable name := by
  obtain ⟨f, l', hdefine, hname, hcount⟩ := define_gain h
  have hsame : sameLetters name f.name = true := by rw [hname, sameLetters, beq_self_eq_true]
  refine ⟨f, l', hdefine, ⟨onLiteral name hsame hcount, rfl, fun hcall => ?_⟩, fun g hg => ?_⟩
  · have hread := isCallable_of_readsCall (isWord_name (get?_define hdefine).1) hcall
    rw [hname, hcallable] at hread
    cases hread
  · rw [hdefine] at hlater
    have hempty : ((l'.parse (twice name)).toOption.map (·.body.length)).all (· == 0) = true :=
      hlater
    rw [hg] at hempty
    exact List.length_eq_zero_iff.1 (beq_iff_eq.1 hempty)

/-- A builtin's prefix, a comment's star and a label's colon are all accepted in names. -/
theorem accepts_uncallable :
    AcceptsUncallable "_gain" ∧ AcceptsUncallable "*gain" ∧ AcceptsUncallable "gain:" := by
  refine ⟨?_, ?_, ?_⟩ <;>
    exact acceptsUncallable_of_define (by decide) (by decide +kernel) (by decide +kernel)

end Library

end Behavioral
