/-!
# Binary operators

Comparisons bind loosest, then sums, then products, then powers.  Powers associate
to the right and all others to the left.
-/

namespace FrontEnd

/-- A binary operator. -/
inductive Operator
  | add
  | sub
  | mul
  | div
  | mod
  | pow
  | less
  | greater
deriving DecidableEq

namespace Operator

/-- Every operator once. -/
def all : List Operator := [.add, .sub, .mul, .div, .mod, .pow, .less, .greater]

/-- How tightly an operator binds; a greater number binds tighter. -/
def precedence : Operator → Nat
  | .less | .greater => 10
  | .add | .sub => 20
  | .mul | .div | .mod => 30
  | .pow => 40

/-- Whether `a ∘ b ∘ c` is `a ∘ (b ∘ c)`. -/
def isRightAssociative : Operator → Bool
  | .pow => true
  | _ => false

/-- Whether the operator compares, and so yields a truth value. -/
def isComparison : Operator → Bool
  | .less | .greater => true
  | _ => false

/-- The least precedence that the right operand's own operators must have. -/
def operandPrecedence (op : Operator) : Nat :=
  if op.isRightAssociative then op.precedence else op.precedence + 1

/-- The name of an operator in listings. -/
def text : Operator → String
  | .add => "add"
  | .sub => "sub"
  | .mul => "mul"
  | .div => "div"
  | .mod => "mod"
  | .pow => "pow"
  | .less => "lt"
  | .greater => "gt"

/-- The operator of a name. -/
def ofText? (name : String) : Option Operator := all.find? fun op => op.text = name

end Operator

end FrontEnd
