import TensorCompiler.Expr.Basic

/-! # Structural equality of expressions and types

Two trees are the same when they have the same nodes with the same fields. Float literals are compared as
numbers, so the two zeros are the same literal and a literal that is not a number differs from itself.
-/

namespace TensorCompiler

mutual

/-- Structural equality of expressions. -/
def Expr.same : Expr → Expr → Bool
  | .var v, .var w => v.same w
  | .const v d, .const w e => v.same w && d == e
  | .unary op a, .unary op' b => op == op' && a.same b
  | .binary op a b, .binary op' a' b' => op == op' && a.same a' && b.same b'
  | .letIn v a b, .letIn v' a' b' => v.same v' && a.same a' && b.same b'
  | .ite a b c, .ite a' b' c' => a.same a' && b.same b' && c.same c'
  | .element a as, .element b bs => a.same b && Expr.sameAll as bs
  | .call f as, .call g bs => f == g && Expr.sameAll as bs
  | .cast t a, .cast u b => a.same b && t.same u
  | .deref a, .deref b => a.same b
  | .addr a, .addr b => a.same b
  | .ref a, .ref b => a.same b
  | .scalarInput n d, .scalarInput n' d' => n == n' && d == d'
  | .tensorInput n d s, .tensorInput n' d' s' => n == n' && d == d' && Expr.sameShape s s'
  | .compute n s xs v, .compute n' s' xs' v' =>
    n == n' && Expr.sameAll s s' && Var.sameAll xs xs' && v.same v'
  | .reduce k s xs v, .reduce k' s' xs' v' =>
    k == k' && Expr.sameAll s s' && Var.sameAll xs xs' && v.same v'
  | .any h, .any h' => h == h'
  | .anyCompute r a, .anyCompute r' a' => r == r' && a == a'
  | .anyReduce k, .anyReduce k' => k == k'
  | _, _ => false

/-- Structural equality of lists of expressions. -/
def Expr.sameAll : List Expr → List Expr → Bool
  | [], [] => true
  | a :: as, b :: bs => a.same b && Expr.sameAll as bs
  | _, _ => false

/-- Structural equality of shapes that may be open. -/
def Expr.sameShape : Option (List Expr) → Option (List Expr) → Bool
  | none, none => true
  | some as, some bs => Expr.sameAll as bs
  | _, _ => false

/-- Equality of variables: the same name at the same type. -/
def Var.same : Var → Var → Bool
  | ⟨n, t⟩, ⟨n', t'⟩ => n == n' && t.same t'

/-- Equality of lists of variables. -/
def Var.sameAll : List Var → List Var → Bool
  | [], [] => true
  | v :: vs, w :: ws => v.same w && Var.sameAll vs ws
  | _, _ => false

/-- Structural equality of tensor types. -/
def TensorType.same : TensorType → TensorType → Bool
  | ⟨scope, dtype, shape, strides⟩, ⟨scope', dtype', shape', strides'⟩ =>
    scope == scope' && dtype == dtype' && Expr.sameShape shape shape' && Expr.sameShape strides strides'

/-- Structural equality of types. -/
def Ty.same : Ty → Ty → Bool
  | .scalar d, .scalar d' => d == d'
  | .tensor t, .tensor t' => t.same t'
  | .pointer b, .pointer b' => b.same b'
  | .reference b, .reference b' => b.same b'
  | .tensorPointer t, .tensorPointer t' => t.same t'
  | .void, .void => true
  | _, _ => false

end

end TensorCompiler
