import Behavioral.Stream.Message
import Behavioral.Text.Json

/-!
# Messages as text

Each message is an object with its type first and then its parts in order.
-/

namespace Behavioral

namespace Atom

def json : Atom → Json
  | sentinel => .string "Sentinel"
  | const value isBoolean =>
    .object [("Const", .object [("value", .number value), ("is_boolean", .bool isBoolean)])]
  | apply op a b folded isBoolean =>
    .object [("Function", .object [
      ("op", .string op.title), ("a", .ofNat a), ("b", .ofOption .ofNat b),
      ("folded", .ofOption .number folded), ("is_boolean", .bool isBoolean)])]
  | element a b => .object [("ListElement", .object [("a", .ofNat a), ("b", .ofNat b)])]
  | name text => .object [("NameRef", .string text)]

end Atom

namespace Operand

def json : Operand → Json
  | caller slot => .object [("Caller", .ofNat slot)]
  | localCell index => .object [("Local", .ofNat index)]
  | previous slot => .object [("Previous", .ofNat slot)]

end Operand

namespace Callee

def json : Callee → Json
  | builtin b =>
    .object [("kind", .string "builtin"), ("id", .ofNat b.id), ("mnemonic", .string b.mnemonic)]
  | composed name => .object [("kind", .string "composed"), ("name", .string name)]

end Callee

namespace Message

def json : Message → Json
  | beginExpression name atomCount root =>
    .object [("type", .string "begin_expression"), ("name", .string name),
      ("atom_count", .ofNat atomCount), ("root", .ofNat root)]
  | atom index content =>
    .object [("type", .string "atom"), ("index", .ofNat index), ("atom", content.json)]
  | endExpression name => .object [("type", .string "end_expression"), ("name", .string name)]
  | beginFunction name paramCount localCount fieldSize storageSize =>
    .object [("type", .string "begin_function"), ("name", .string name),
      ("param_count", .ofNat paramCount), ("local_count", .ofNat localCount),
      ("index_field_size", .ofNat fieldSize), ("working_storage_size", .ofNat storageSize)]
  | instruction index callee operands constants jump =>
    .object [("type", .string "instruction"), ("index", .ofNat index), ("function", callee.json),
      ("params", .array (operands.map Operand.json)),
      ("constants", .array (constants.map .number)), ("jump", .ofOption .integer jump)]
  | endFunction name => .object [("type", .string "end_function"), ("name", .string name)]

def text (m : Message) : String :=
  m.json.text

end Message

end Behavioral
