import ScriptFlow.Token.Kind

/-!
The operators of expressions. An operator is written as one kind of token, and its level says how
tightly it binds: of two operators the one of the higher level takes its operands first.
-/

namespace ScriptFlow

open Token (Kind)

inductive UnaryOp where
  | neg
  | plus
  | not
  deriving DecidableEq, Repr

inductive TransposeOp where
  | conjugate
  | plain
  deriving DecidableEq, Repr

inductive BinaryOp where
  | add
  | sub
  | matMul
  | matDiv
  | matLeftDiv
  | matPow
  | elMul
  | elDiv
  | elLeftDiv
  | elPow
  | eq
  | notEq
  | lt
  | lte
  | gt
  | gte
  | elAnd
  | elOr
  | shortAnd
  | shortOr
  deriving DecidableEq, Repr

namespace UnaryOp

def kind : UnaryOp → Kind
  | neg => .dash
  | plus => .plus
  | not => .tilde

def ofKind? : Kind → Option UnaryOp
  | .dash => some neg
  | .plus => some plus
  | .tilde => some not
  | _ => none

theorem ofKind?_kind (op : UnaryOp) : ofKind? op.kind = some op := by cases op <;> rfl

end UnaryOp

namespace TransposeOp

def kind : TransposeOp → Kind
  | conjugate => .quote
  | plain => .dotQuote

end TransposeOp

namespace BinaryOp

def kind : BinaryOp → Kind
  | add => .plus
  | sub => .dash
  | matMul => .star
  | matDiv => .slash
  | matLeftDiv => .backslash
  | matPow => .caret
  | elMul => .dotStar
  | elDiv => .dotSlash
  | elLeftDiv => .dotBackslash
  | elPow => .dotCaret
  | eq => .equal
  | notEq => .notEqual
  | lt => .less
  | lte => .lessEqual
  | gt => .greater
  | gte => .greaterEqual
  | elAnd => .amp
  | elOr => .pipe
  | shortAnd => .ampAmp
  | shortOr => .pipePipe

def ofKind? : Kind → Option BinaryOp
  | .plus => some add
  | .dash => some sub
  | .star => some matMul
  | .slash => some matDiv
  | .backslash => some matLeftDiv
  | .caret => some matPow
  | .dotStar => some elMul
  | .dotSlash => some elDiv
  | .dotBackslash => some elLeftDiv
  | .dotCaret => some elPow
  | .equal => some eq
  | .notEqual => some notEq
  | .less => some lt
  | .lessEqual => some lte
  | .greater => some gt
  | .greaterEqual => some gte
  | .amp => some elAnd
  | .pipe => some elOr
  | .ampAmp => some shortAnd
  | .pipePipe => some shortOr
  | _ => none

theorem ofKind?_kind (op : BinaryOp) : ofKind? op.kind = some op := by cases op <;> rfl

end BinaryOp

/-! Levels from loose to tight. Ranges and unary operators have levels of their own among those of
the binary operators; what needs no operator to hold together binds tightest. -/

namespace Level

def shortOr := 0
def shortAnd := 1
def elOr := 2
def elAnd := 3
def comparison := 4
def range := 5
def sum := 6
def product := 7
def unary := 8
def power := 9
def atom := 10

end Level

def BinaryOp.level : BinaryOp → Nat
  | shortOr => Level.shortOr
  | shortAnd => Level.shortAnd
  | elOr => Level.elOr
  | elAnd => Level.elAnd
  | eq | notEq | lt | lte | gt | gte => Level.comparison
  | add | sub => Level.sum
  | matMul | matDiv | matLeftDiv | elMul | elDiv | elLeftDiv => Level.product
  | matPow | elPow => Level.power

end ScriptFlow
