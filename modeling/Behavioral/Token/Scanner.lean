import Behavioral.Token.Lexeme

/-!
# Scanning

A scanner hands out one token at a time, skipping the blanks between lexemes; the tokens of a
lexeme that stands for several are handed out one by one. It goes on after a fault from where
reading stopped. `tokenize` reads a whole text and stops at the first fault.
-/

namespace Behavioral

/-- A text being read. The tokens still to be handed out come from the last lexeme. -/
structure Scanner where
  ambientTemperature : Float
  cursor : Cursor
  waiting : List (Spanned Token)

namespace Scanner

def ofString (text : String) (settings : Settings) : Scanner :=
  ⟨settings.ambientTemperature, Cursor.ofString text, []⟩

/-- The next token or fault, and the scanner after it; nothing at the end of the text. -/
def next (s : Scanner) : Option (Except Fault (Spanned Token) × Scanner) :=
  match s.waiting with
  | t :: waiting => some (.ok t, { s with waiting })
  | [] =>
    let c := s.cursor.skipRun isBlank
    match c.rest with
    | [] => none
    | d :: _ =>
      match Scan.lexeme s.ambientTemperature c d with
      | .ok found => some (.ok found.first, ⟨s.ambientTemperature, found.next, found.others⟩)
      | .error (fault, after) => some (.error (.lexical fault), ⟨s.ambientTemperature, after, []⟩)

/-- At most `count` further items, faults among them. -/
def items : Nat → Scanner → List (Except Fault (Spanned Token))
  | 0, _ => []
  | count + 1, s =>
    match s.next with
    | none => []
    | some (item, after) => item :: items count after

/-- The tokens of a text up to its first fault, and the fault with the cursor that it leaves. -/
def read (ambientTemperature : Float) (c : Cursor) :
    List (Spanned Token) × Option (LexicalFault × Cursor) :=
  match _hc : (c.skipRun isBlank).rest with
  | [] => ([], none)
  | d :: _ =>
    match _hl : Scan.lexeme ambientTemperature (c.skipRun isBlank) d with
    | .error fault => ([], some fault)
    | .ok found =>
      let (tokens, fault) := read ambientTemperature found.next
      (found.first :: found.others ++ tokens, fault)
termination_by c.rest.length
decreasing_by
  exact Nat.lt_of_lt_of_le (Scan.length_next_lt _hc _hl) (Cursor.length_rest_skipRun_le isBlank c)

/-- The tokens of a text up to and with its first fault, and at most `extra` items after that. -/
def itemsPastFault (s : Scanner) (extra : Nat) : List (Except Fault (Spanned Token)) :=
  let (tokens, fault) := read s.ambientTemperature s.cursor
  let tokens := (s.waiting ++ tokens).map .ok
  match fault with
  | none => tokens
  | some (cause, after) =>
    tokens ++ .error (.lexical cause) :: items extra ⟨s.ambientTemperature, after, []⟩

end Scanner

/-- The tokens of a text that has no fault, and otherwise its first fault. -/
def tokenize (text : String) (settings : Settings) : Except Fault (List (Spanned Token)) :=
  match Scanner.read settings.ambientTemperature (Cursor.ofString text) with
  | (tokens, none) => .ok tokens
  | (_, some (cause, _)) => .error (.lexical cause)

end Behavioral
