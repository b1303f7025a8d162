import ImplicitPlot.Machine.Instruction

/-!
# Plans

What is to be computed, and in which order, for a formula. A plan is a formula with two further
shapes, in which a value is computed once and used several times: a small power as a product, and
the sum or difference of a value and its own magnitude. The direct plan of a formula has neither
shape; the rewritten plan has them wherever they apply.
-/

namespace ImplicitPlot

/-- How the value of a formula is to be computed. -/
inductive Plan (α : Type)
  | const (value : α)
  | var (v : Variable)
  | unary (op : UnaryOp) (a : Plan α)
  | binary (op : BinaryOp) (a b : Plan α)
  /-- The product of `factors` copies of a value, or of its magnitude if that number is even. -/
  | power (a : Plan α) (factors : Nat)
  /-- The magnitude of a value, and that value, joined by an operation. -/
  | absBefore (op : BinaryOp) (a : Plan α)
  /-- A value, and its own magnitude, joined by an operation. -/
  | absAfter (op : BinaryOp) (a : Plan α)
deriving DecidableEq, Repr

/-- The shape that suits an operation on two formulas. -/
inductive Sharing
  | none
  | power (factors : Nat)
  | absBefore
  | absAfter
deriving DecidableEq, Repr

namespace Sharing

variable {α : Type} [Scalar α]

/-- A power is a product if its exponent is an integer from one to four. -/
def ofExponent (e : Expr α) : Sharing :=
  match e.asInteger? with
  | some k => if 1 ≤ k ∧ k ≤ 4 then power k.toNat else none
  | _ => none

/-- The first operand is the magnitude of one that is nearly the second. -/
def isAbsBefore : Expr α → Expr α → Bool
  | .unary .abs e, b => e.nearlyEquals b
  | _, _ => false

/-- The second operand is the magnitude of one that is nearly the first. -/
def isAbsAfter : Expr α → Expr α → Bool
  | a, .unary .abs e => e.nearlyEquals a
  | _, _ => false

/-- The shape of a sum or difference. -/
def ofOperands (a b : Expr α) : Sharing :=
  if isAbsBefore a b then absBefore else if isAbsAfter a b then absAfter else none

/-- The shape of an operation on two formulas. -/
def find : BinaryOp → Expr α → Expr α → Sharing
  | .pow, _, e => ofExponent e
  | .add, a, b | .sub, a, b => ofOperands a b
  | _, _, _ => none

end Sharing

namespace Plan

variable {α : Type}

/-- Computes a formula as it is written. -/
def direct : Expr α → Plan α
  | .const c => const c
  | .var v => var v
  | .unary op a => unary op (direct a)
  | .binary op a b => binary op (direct a) (direct b)

/-- Computes a formula with shared values where a shape for them applies. -/
def rewritten [Scalar α] : Expr α → Plan α
  | .const c => const c
  | .var v => var v
  | .unary op a => unary op (rewritten a)
  | .binary op a b =>
    match Sharing.find op a b with
    | .none => binary op (rewritten a) (rewritten b)
    | .power factors => power (rewritten a) factors
    | .absBefore => absBefore op (rewritten b)
    | .absAfter => absAfter op (rewritten a)

/-- The instructions for a plan: operands before their operation, a shared value once. A magnitude
is computed after the value itself, and is brought in front of it where the order counts. -/
def code : Plan α → List (Instruction α)
  | const c => [.pushConst c]
  | var v => [.pushVar v]
  | unary op a => a.code ++ [.unary op]
  | binary op a b => a.code ++ b.code ++ [.binary op]
  | power a factors =>
    a.code ++ (if factors % 2 = 0 then [.unary .abs] else []) ++
      List.replicate (factors - 1) .dup ++ List.replicate (factors - 1) (.binary .mul)
  | absBefore op a =>
    a.code ++ [.dup, .unary .abs] ++ (if op = .sub then [.swap] else []) ++ [.binary op]
  | absAfter op a => a.code ++ [.dup, .unary .abs, .binary op]

end Plan

end ImplicitPlot
