/-!
# Operators

- `BinaryOp`, `UnaryOp`: the operators and their spelling.
- `BinaryOp.precedence`: how tightly a binary operator binds; a unary operator binds tighter than
  every binary one (`BinaryOp.precedence_lt_unary`), and a call or an index tighter still.
-/

namespace Freshen

/-- Binary operators, all of them left-associative. -/
inductive BinaryOp where
  | or | and
  | eq | ne
  | lt | le | gt | ge
  | add | sub
  | mul | div | mod
deriving DecidableEq

namespace BinaryOp

/-- How tightly the operator binds; a larger number binds tighter. -/
def precedence : BinaryOp → Nat
  | or => 1
  | and => 2
  | eq | ne => 3
  | lt | le | gt | ge => 4
  | add | sub => 5
  | mul | div | mod => 6

/-- The spelling in source text. -/
def symbol : BinaryOp → String
  | or => "or"
  | and => "and"
  | eq => "=="
  | ne => "!="
  | lt => "<"
  | le => "<="
  | gt => ">"
  | ge => ">="
  | add => "+"
  | sub => "-"
  | mul => "*"
  | div => "/"
  | mod => "%"

/-- The name of the node kind in tree dumps. -/
def label : BinaryOp → String
  | or => "Or"
  | and => "And"
  | eq => "Eq"
  | ne => "NotEq"
  | lt => "Lt"
  | le => "LtEq"
  | gt => "Gt"
  | ge => "GtEq"
  | add => "Add"
  | sub => "Sub"
  | mul => "Mul"
  | div => "Div"
  | mod => "Mod"

/-- Every operator, from the loosest to the tightest. -/
def all : List BinaryOp := [or, and, eq, ne, lt, le, gt, ge, add, sub, mul, div, mod]

end BinaryOp

/-- Unary operators, written before their operand. -/
inductive UnaryOp where
  | neg | not
deriving DecidableEq

namespace UnaryOp

/-- The spelling in source text; the word is followed by a blank. -/
def symbol : UnaryOp → String
  | neg => "-"
  | not => "not "

/-- The name of the node kind in tree dumps. -/
def label : UnaryOp → String
  | neg => "Neg"
  | not => "Not"

/-- Every operator. -/
def all : List UnaryOp := [neg, not]

end UnaryOp

namespace Precedence

/-- The binding strength of unary operators. -/
def unary : Nat := 7

/-- The binding strength of calls and indexing. -/
def postfixed : Nat := unary + 1

/-- The binding strength of literals, references and bracketed forms. -/
def atom : Nat := postfixed + 1

end Precedence

/-- A unary operator binds tighter than every binary one. -/
theorem BinaryOp.precedence_lt_unary (op : BinaryOp) : op.precedence < Precedence.unary := by
  cases op <;> decide

/-- The levels of binary operators begin with one. -/
theorem BinaryOp.precedence_pos (op : BinaryOp) : 0 < op.precedence := by
  cases op <;> decide

end Freshen
