import Behavioral.Fault
import Behavioral.Settings
import Behavioral.Text.Blank
import Behavioral.Text.Identifier
import Behavioral.Token
import Behavioral.Token.Cursor
import Behavioral.Token.Numeral

/-!
# Lexemes

The first character of a text decides the class of its lexeme: a symbol, a number or a name. The
shorthand `V(a)` reads a node voltage, `I(a)` a branch current, and `V(a,b)` stands for the five
tokens of `(@a - @b)`. A fault leaves the cursor where reading stopped, so a caller may go on after
it; only a power of ten without digits is reported without moving. A lexeme that is read has at
least one character (`length_next_lt`).
-/

namespace Behavioral

/-- What one lexeme stands for, and where reading goes on. -/
structure Lexeme where
  first : Spanned Token
  others : List (Spanned Token)
  next : Cursor

/-- A fault carries the cursor that it leaves. -/
abbrev Scan := Except (LexicalFault × Cursor)

namespace Scan

/-- The symbol that a text starts with and the number of its characters. -/
def symbol? : List Char → Option (Symbol × Nat)
  | '/' :: _ => some (.divide, 1)
  | '^' :: _ => some (.power, 1)
  | '*' :: '*' :: _ => some (.power, 2)
  | '*' :: _ => some (.times, 1)
  | '=' :: '=' :: _ => some (.equal, 2)
  | '!' :: '=' :: _ => some (.notEqual, 2)
  | '!' :: _ => some (.not, 1)
  | '<' :: '>' :: _ => some (.notEqual, 2)
  | '<' :: '=' :: _ => some (.lessEqual, 2)
  | '<' :: _ => some (.less, 1)
  | '>' :: '=' :: _ => some (.greaterEqual, 2)
  | '>' :: _ => some (.greater, 1)
  | '&' :: '&' :: _ => some (.and, 2)
  | '|' :: '|' :: _ => some (.or, 2)
  | '-' :: _ => some (.minus, 1)
  | '+' :: _ => some (.plus, 1)
  | '(' :: _ => some (.opening, 1)
  | ')' :: _ => some (.closing, 1)
  | ',' :: _ => some (.comma, 1)
  | _ => none

/-- A point starts a number only in front of a digit. -/
def startsNumber : List Char → Bool
  | '.' :: d :: _ => isAsciiDigit d
  | c :: _ => isAsciiDigit c
  | [] => false

def single (start : Nat) (token : Token) (stop : Nat) (next : Cursor) : Lexeme :=
  ⟨⟨start, token, stop⟩, [], next⟩

/-- A number may not run on into a digit or a point. -/
def number (c : Cursor) : Scan Lexeme :=
  let numeral := Numeral.scan c.rest
  if numeral.powerMissing then
    .error (.exponentWithoutDigits c.offset, c)
  else
    let next := c.advance numeral.length
    let found := single c.offset (.number numeral.value) (c.offset + numeral.length) next
    match next.rest with
    | d :: _ =>
      if isAsciiDigit d || d == '.' then .error (.numberRunsOn d next.offset c.offset, next)
      else .ok found
    | [] => .ok found

/-- The name of a node or a component between blanks. -/
def nodeName (start : Nat) (c : Cursor) : Scan (Spanned String × Cursor) :=
  let c := c.skipRun isBlank
  let (name, after) := c.takeRun continuesName
  if name.isEmpty then .error (.nameExpected start, after)
  else .ok (⟨c.offset, String.ofList name, after.offset⟩, after.skipRun isBlank)

def marked (mark : String → String) (n : Spanned String) : Spanned Token :=
  ⟨n.start, .name (mark n.value), n.stop⟩

/-- The shorthand whose letter starts at `start`, read from its bracket on. -/
def shorthand (start : Nat) (isVoltage : Bool) (bracket : Cursor) : Scan Lexeme := do
  let inner := bracket.advance 1
  let (a, afterA) ← nodeName start inner
  match afterA.rest with
  | ')' :: _ =>
    let mark := if isVoltage then voltageName else currentName
    return single start (.name (mark a.value)) (afterA.offset + 1) (afterA.advance 1)
  | ',' :: _ =>
    if isVoltage then
      let (b, afterB) ← nodeName start (afterA.advance 1)
      match afterB.rest with
      | ')' :: _ =>
        return {
          first := ⟨start, .symbol .opening, inner.offset⟩
          others := [
            marked voltageName a,
            ⟨afterA.offset, .symbol .minus, afterA.offset + 1⟩,
            marked voltageName b,
            ⟨afterB.offset, .symbol .closing, afterB.offset + 1⟩]
          next := afterB.advance 1 }
      | _ => .error (.differenceNotClosed start, afterB)
    else .error (.shorthandNotClosed start, afterA)
  | _ => .error (.shorthandNotClosed start, afterA)

/-- The constants that have a name, in capitals. -/
def namedConstant? (ambientTemperature : Float) : String → Option Float
  | "_PI" => some 3.141592653589793
  | "_E" => some 2.718281828459045
  | "_K" => some 1.380649e-23
  | "_Q" => some 1.602176634e-19
  | "_TA" => some ambientTemperature
  | _ => none

/-- A name, a named constant, or the letter of a shorthand straight before its bracket. -/
def word (ambientTemperature : Float) (c : Cursor) : Scan Lexeme :=
  let (letters, next) := c.takeRun continuesName
  let text := String.ofList letters
  let plain : Scan Lexeme :=
    match namedConstant? ambientTemperature (capitals text) with
    | some value => .ok (single c.offset (.number value) next.offset next)
    | none => .ok (single c.offset (.name text) next.offset next)
  match next.rest, capitals text with
  | '(' :: _, "V" => shorthand c.offset true next
  | '(' :: _, "I" => shorthand c.offset false next
  | _, _ => plain

/-- One lexeme of a text that is not empty and does not start with a blank. -/
def lexeme (ambientTemperature : Float) (c : Cursor) (d : Char) : Scan Lexeme :=
  match symbol? c.rest with
  | some (s, count) =>
    .ok (single c.offset (.symbol s) (c.offset + count) (c.advance count))
  | none =>
    if d == '=' then .error (.bareAssign c.offset, c.advance 1)
    else if d == '&' || d == '|' then .error (.loneSign d c.offset, c.advance 1)
    else if startsNumber c.rest then number c
    else if startsName d then word ambientTemperature c
    else .error (.unexpected d c.offset, c.advance 1)

theorem symbol?_pos : ∀ {text : List Char} {s : Symbol} {count : Nat},
    symbol? text = some (s, count) → 0 < count := by
  intro text s count h
  unfold symbol? at h
  split at h <;> simp_all <;> omega

theorem length_scan_pos {text : List Char} (h : startsNumber text = true) :
    0 < (Numeral.scan text).length := by
  have hle := Numeral.le_length_scan text
  unfold startsNumber at h
  split at h
  · exact Nat.lt_of_lt_of_le Nat.zero_lt_one hle
  · next c rest _ =>
    rw [List.takeWhile_cons_of_pos h] at hle
    exact Nat.lt_of_lt_of_le (Nat.lt_of_lt_of_le (Nat.succ_pos _) (Nat.le_add_right _ _)) hle
  · cases h

theorem length_next_number {c : Cursor} {found : Lexeme} (h : number c = .ok found) :
    found.next = c.advance (Numeral.scan c.rest).length := by
  unfold number at h
  simp only at h
  split at h
  · simp at h
  · split at h
    · split at h
      · simp at h
      · simp only [Except.ok.injEq] at h
        rw [← h, single]
    · simp only [Except.ok.injEq] at h
      rw [← h, single]

theorem length_nodeName_le {start : Nat} {c : Cursor} {n : Spanned String} {after : Cursor}
    (h : nodeName start c = .ok (n, after)) : after.rest.length ≤ c.rest.length := by
  unfold nodeName at h
  simp only at h
  split at h
  · simp at h
  · simp only [Except.ok.injEq, Prod.mk.injEq] at h
    rw [← h.2]
    exact Nat.le_trans (Cursor.length_rest_skipRun_le _ _)
      (Nat.le_trans (Cursor.length_rest_takeRun_le _ _) (Cursor.length_rest_skipRun_le _ _))

theorem length_shorthand_le {start : Nat} {v : Bool} {c : Cursor} {found : Lexeme}
    (h : shorthand start v c = .ok found) : found.next.rest.length ≤ c.rest.length := by
  unfold shorthand at h
  simp only [bind, Except.bind] at h
  split at h
  · simp at h
  · next a ha =>
    have hle := Nat.le_trans (length_nodeName_le ha) (Cursor.length_rest_advance_le c 1)
    split at h
    · simp only [pure, Except.pure, Except.ok.injEq] at h
      rw [← h]
      exact Nat.le_trans (Cursor.length_rest_advance_le _ _) hle
    · split at h
      · split at h
        · simp at h
        · next b hb =>
          have hle' := Nat.le_trans (length_nodeName_le hb) (Cursor.length_rest_advance_le _ 1)
          split at h
          · simp only [pure, Except.pure, Except.ok.injEq] at h
            rw [← h]
            exact Nat.le_trans (Cursor.length_rest_advance_le _ _) (Nat.le_trans hle' hle)
          · simp at h
      · simp at h
    · simp at h

theorem length_word_le {t : Float} {c : Cursor} {found : Lexeme} (h : word t c = .ok found) :
    found.next.rest.length ≤ (c.takeRun continuesName).2.rest.length := by
  unfold word at h
  simp only at h
  split at h
  · exact length_shorthand_le h
  · exact length_shorthand_le h
  · split at h <;> cases h <;> exact Nat.le_refl _

theorem length_drop_lt {cs : List Char} {n : Nat} (hc : cs ≠ []) (hn : 0 < n) :
    (cs.drop n).length < cs.length := by
  have := List.length_pos_iff.2 hc
  rw [List.length_drop]
  omega

/-- Reading a lexeme leaves less text. -/
theorem length_next_lt {t : Float} {c : Cursor} {d : Char} {ds : List Char} {found : Lexeme}
    (hc : c.rest = d :: ds) (h : lexeme t c d = .ok found) :
    found.next.rest.length < c.rest.length := by
  have hne : c.rest ≠ [] := by simp [hc]
  unfold lexeme at h
  split at h
  · next s count hs =>
    simp only [Except.ok.injEq] at h
    rw [← h, single, Cursor.rest_advance]
    exact length_drop_lt hne (symbol?_pos hs)
  · split at h
    · simp at h
    · split at h
      · simp at h
      · split at h
        · next hn =>
          rw [length_next_number h, Cursor.rest_advance]
          exact length_drop_lt hne (length_scan_pos hn)
        · split at h
          · next hd =>
            exact Nat.lt_of_le_of_lt (length_word_le h)
              (Cursor.length_rest_takeRun_lt hc (continuesName_of_startsName hd))
          · simp at h

end Scan

end Behavioral
