/-!
# Faults

Everything that can go wrong, by cause. A fault has a kind, a code and details: the kind says which
stage found it, the code names the rule that was broken, and the details say where. Positions are
byte offsets into the text. The message is `KindError`, then the code and the details in braces. A
breakdown is the one fault that is not reported: the program ends there.
-/

namespace Behavioral

/-- The text cannot be split into tokens. -/
inductive LexicalFault where
  | exponentWithoutDigits (start : Nat)
  | numberRunsOn (found : Char) (place start : Nat)
  | nameExpected (start : Nat)
  | differenceNotClosed (start : Nat)
  | shorthandNotClosed (start : Nat)
  | bareAssign (start : Nat)
  | loneSign (sign : Char) (start : Nat)
  | unexpected (found : Char) (start : Nat)
deriving DecidableEq, Repr

/-- The tokens do not form an expression. -/
inductive SyntaxFault where
  | emptyText (text : String)
  | nothingLeft
  | emptyBrackets (start : Nat)
  | neverClosed (start : Nat)
  | closedTooOften (start : Nat)
  | emptyArgument (start : Nat)
  | signWithoutOperand (start : Nat)
  | operatorWithoutOperand (start : Nat)
  | noOperand (start : Nat)
  | missingOperator (start : Nat)
  | unknownFunction (name : String) (start : Nat)
  | twoArguments (name : String) (start : Nat)
  | wrongArgumentCount (name : String) (start count : Nat)
  | bareList (start : Option Nat)
  | tooManyAtoms (limit : Nat)
deriving DecidableEq, Repr

/-- An operator or a function got an operand of the wrong type. -/
inductive TypeFault where
  | notNeedsBoolean (start : Nat)
  | minusNeedsNumber (start : Nat)
  | arithmeticOnBoolean (start : Nat)
  | mixedEquality (start : Nat)
  | logicOnNumber (start : Nat)
  | functionNeedsNumber (name : String) (start : Nat)
  | functionNeedsNumbers (name : String) (start : Nat)
deriving DecidableEq, Repr

/-- A constant divisor is zero. -/
inductive ArithmeticFault where
  | divisionByZero (start : Nat)
deriving DecidableEq, Repr

/-- An instruction of a composed function breaks a rule; `name` is the composed function's. -/
inductive CompositionFault where
  | arity (name : String) (pc : Nat) (callee : String) (found expected : Nat)
  | callerSlot (name : String) (pc slot : Nat)
  | localIndex (name : String) (pc index count : Nat)
  | noPrevious (name : String)
  | previousSlot (name : String) (pc slot size : Nat)
  | jumpRange (name : String) (pc : Nat) (displacement : Int) (length : Nat)
  | jumpMissing (name : String) (pc : Nat)
  | cannotJump (name : String) (pc : Nat) (callee : String)
  | constants (name : String) (pc : Nat) (callee : String) (count : Nat)
  | activationConstants (callee : String) (count : Nat)
deriving DecidableEq, Repr

/-- The text of a function definition breaks a rule. -/
inductive DefinitionFault where
  | empty
  | noHeader (line : Nat)
  | badCount (line : Nat) (key value : String)
  | unexpectedWord (line : Nat) (word : String)
  | unknownMnemonic (line : Nat) (mnemonic : String)
  | missingLabel (line : Nat)
  | operandAfterConstant (line : Nat) (operand : String)
  | resultInLiteral (line : Nat) (operand : String)
  | badOperand (line : Nat) (operand : String)
  | duplicateLabel (line : Nat) (label : String)
  | unknownLabel (line : Nat) (label : String)
  | noEnd (name : String)
  | afterEnd (line : Nat) (text : String)
  | leadingPrevious (name : String)
  | duplicateFunction (name : String)
deriving DecidableEq, Repr

/-- Evaluating or emitting met something missing. -/
inductive EvaluationFault where
  | unbound (name : String)
  | sinkClosed
deriving DecidableEq, Repr

/-- The program breaks down and gives no answer at all: it reads what is not there, or a count
outgrows its word. -/
inductive Breakdown where
  | noSegment
  | countTooLarge
deriving DecidableEq, Repr

inductive Fault where
  | lexical (cause : LexicalFault)
  | grammar (cause : SyntaxFault)
  | typing (cause : TypeFault)
  | arithmetic (cause : ArithmeticFault)
  | composition (cause : CompositionFault)
  | definition (cause : DefinitionFault)
  | evaluation (cause : EvaluationFault)
  | breakdown (cause : Breakdown)
  | settings
deriving DecidableEq, Repr

namespace LexicalFault

def code : LexicalFault → String
  | exponentWithoutDigits _ | numberRunsOn _ _ _ => "malformed_number"
  | nameExpected _ | differenceNotClosed _ | shorthandNotClosed _ => "unterminated_shorthand"
  | bareAssign _ => "bare_assign"
  | loneSign _ _ | unexpected _ _ => "unrecognized_token"

def details : LexicalFault → String
  | exponentWithoutDigits start => s!"exponent without digits at {start}"
  | numberRunsOn found place start => s!"unexpected '{found}' at {place} after number at {start}"
  | nameExpected start => s!"expected a name in shorthand starting at {start}"
  | differenceNotClosed start => s!"V(n1,n2) starting at {start} is not closed"
  | shorthandNotClosed start => s!"shorthand starting at {start} is not closed"
  | bareAssign start => s!"bare '=' at {start}"
  | loneSign sign start => s!"single '{sign}' at {start}"
  | unexpected found start => s!"unexpected '{found}' at {start}"

end LexicalFault

namespace SyntaxFault

def code : SyntaxFault → String
  | emptyText _ | nothingLeft => "empty_expression"
  | emptyBrackets _ => "empty_brackets"
  | neverClosed _ => "unterminated_bracket"
  | closedTooOften _ => "excess_closing_bracket"
  | emptyArgument _ | signWithoutOperand _ | operatorWithoutOperand _ | noOperand _ =>
    "missing_operand"
  | missingOperator _ => "missing_operator"
  | unknownFunction _ _ => "unknown_function"
  | twoArguments _ _ => "no_two_parameter_function"
  | wrongArgumentCount _ _ _ => "bad_argument_count"
  | bareList _ => "bare_list"
  | tooManyAtoms _ => "expression_too_large"

/-- Nothing can be said of an expression that was signs only. -/
def details : SyntaxFault → Option String
  | emptyText text => some s!"'{text}'"
  | nothingLeft => none
  | emptyBrackets start => some s!"at {start}"
  | neverClosed start => some s!"bracket opened at {start} is never closed"
  | closedTooOften start => some s!"more closing than opening brackets at {start}"
  | emptyArgument start => some s!"empty argument at {start}"
  | signWithoutOperand start => some s!"unary operator at {start}"
  | operatorWithoutOperand start => some s!"operator at {start}"
  | noOperand start => some s!"at {start}"
  | missingOperator start => some s!"missing operator before {start}"
  | unknownFunction name start => some s!"'{name}' at {start}"
  | twoArguments name start => some s!"'{name}' at {start} has two arguments"
  | wrongArgumentCount name start count => some s!"'{name}' at {start} can't take {count} arguments"
  | bareList (some start) => some s!"comma list without a function at {start}"
  | bareList none => some "comma list without a function"
  | tooManyAtoms limit => some s!"more than {limit} atoms"

end SyntaxFault

namespace TypeFault

def code : TypeFault → String
  | notNeedsBoolean _ | logicOnNumber _ => "expected_boolean"
  | mixedEquality _ => "mismatched_equality"
  | minusNeedsNumber _ | arithmeticOnBoolean _ | functionNeedsNumber _ _
  | functionNeedsNumbers _ _ => "expected_arithmetic"

def details : TypeFault → String
  | notNeedsBoolean start => s!"'!' needs a boolean at {start}"
  | minusNeedsNumber start => s!"unary '-' needs a number at {start}"
  | arithmeticOnBoolean start => s!"arithmetic operator applied to a boolean at {start}"
  | mixedEquality start => s!"comparing a boolean with a number at {start}"
  | logicOnNumber start => s!"logical operator applied to a number at {start}"
  | functionNeedsNumber name start => s!"'{name}' needs a number at {start}"
  | functionNeedsNumbers name start => s!"'{name}' needs numbers at {start}"

end TypeFault

namespace ArithmeticFault

def code : ArithmeticFault → String
  | divisionByZero _ => "divide_by_zero"

def details : ArithmeticFault → String
  | divisionByZero start => s!"division by zero at {start}"

end ArithmeticFault

namespace CompositionFault

def code : CompositionFault → String
  | arity _ _ _ _ _ => "arity_mismatch"
  | callerSlot _ _ _ | localIndex _ _ _ _ | previousSlot _ _ _ _ => "bad_slot"
  | noPrevious _ => "no_previous_instruction"
  | jumpRange _ _ _ _ | jumpMissing _ _ | cannotJump _ _ _ => "bad_jump"
  | constants _ _ _ _ | activationConstants _ _ => "bad_constants"

def details : CompositionFault → String
  | arity name pc callee found expected =>
    s!"{name}: instruction {pc} ({callee}) has {found} operands, expected {expected}"
  | callerSlot name pc slot => s!"{name}: instruction {pc} uses caller slot {slot}"
  | localIndex name pc index count => s!"{name}: instruction {pc} uses local {index} of {count}"
  | noPrevious name => s!"{name}: the first instruction has no previous result"
  | previousSlot name pc slot size =>
    s!"{name}: instruction {pc} uses slot {slot} of a {size}-slot segment"
  | jumpRange name pc displacement length =>
    s!"{name}: instruction {pc} jumps by {displacement} in a {length}-instruction function"
  | jumpMissing name pc => s!"{name}: instruction {pc} is missing its jump target"
  | cannotJump name pc callee => s!"{name}: instruction {pc} ({callee}) cannot jump"
  | constants name pc callee count => s!"{name}: instruction {pc} ({callee}) has {count} constants"
  | activationConstants callee count => s!"{callee} cannot take {count} constants"

end CompositionFault

namespace DefinitionFault

def code : DefinitionFault → String
  | empty | noHeader _ => "missing_header"
  | badCount _ _ _ | unexpectedWord _ _ | missingLabel _ | operandAfterConstant _ _
  | resultInLiteral _ _ | badOperand _ _ => "bad_operand"
  | unknownMnemonic _ _ => "unknown_mnemonic"
  | duplicateLabel _ _ => "duplicate_label"
  | unknownLabel _ _ => "unknown_label"
  | noEnd _ => "missing_end"
  | afterEnd _ _ => "generic"
  | leadingPrevious _ => "no_previous_instruction"
  | duplicateFunction _ => "duplicate_function"

def details : DefinitionFault → String
  | empty => "empty definition"
  | noHeader line => s!"line {line}: expected '.FUNC <name>'"
  | badCount line key value => s!"line {line}: bad {key} count '{value}'"
  | unexpectedWord line word => s!"line {line}: unexpected '{word}'"
  | unknownMnemonic line mnemonic => s!"line {line}: '{mnemonic}'"
  | missingLabel line => s!"line {line}: missing jump label"
  | operandAfterConstant line operand => s!"line {line}: '{operand}' follows a constant"
  | resultInLiteral line operand => s!"line {line}: cannot store a result in '{operand}'"
  | badOperand line operand => s!"line {line}: '{operand}'"
  | duplicateLabel line label => s!"line {line}: '{label}'"
  | unknownLabel line label => s!"line {line}: '{label}'"
  | noEnd name => s!"'{name}' has no .ENDF"
  | afterEnd line text => s!"line {line}: '{text}' after .ENDF"
  | leadingPrevious name => s!"'{name}': the first instruction has no previous result"
  | duplicateFunction name => s!"'{name}' is already defined"

end DefinitionFault

namespace EvaluationFault

def code : EvaluationFault → String
  | unbound _ => "unknown_name"
  | sinkClosed => "sink_closed"

def details : EvaluationFault → String
  | unbound name => s!"'{name}' is not bound"
  | sinkClosed => "the receiver has hung up"

end EvaluationFault

namespace Breakdown

def code : Breakdown → String
  | noSegment => "no_segment"
  | countTooLarge => "count_too_large"

end Breakdown

namespace Fault

/-- The stage that found the fault. -/
def kind : Fault → String
  | lexical _ => "Lexical"
  | grammar _ => "Syntax"
  | typing _ => "Type"
  | arithmetic _ => "Arithmetic"
  | composition _ | definition _ => "Function"
  | evaluation _ => "Evaluation"
  | breakdown _ => "Breakdown"
  | settings => "Configuration"

def code : Fault → String
  | lexical cause => cause.code
  | grammar cause => cause.code
  | typing cause => cause.code
  | arithmetic cause => cause.code
  | composition cause => cause.code
  | definition cause => cause.code
  | evaluation cause => cause.code
  | breakdown cause => cause.code
  | settings => "bad_settings"

def details : Fault → Option String
  | lexical cause => some cause.details
  | grammar cause => cause.details
  | typing cause => some cause.details
  | arithmetic cause => some cause.details
  | composition cause => some cause.details
  | definition cause => some cause.details
  | evaluation cause => some cause.details
  | breakdown _ => none
  | settings => none

def message (fault : Fault) : String :=
  match fault.details with
  | some details => fault.kind ++ "Error\x7b" ++ fault.code ++ ": " ++ details ++ "\x7d"
  | none => fault.kind ++ "Error\x7b" ++ fault.code ++ "\x7d"

end Fault

end Behavioral
