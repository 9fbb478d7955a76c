import TensorCompiler.Proofs.Expr.Traversal

/-! # Expressions without holes

Patterns leave types open by holes and stand for expressions by pattern nodes. Neither may reach generated code. The test
`isResolved` looks at the occurrences of variables, not at the places that bind them, so a resolved expression can still
hold a hole in the type of a variable that it binds. `boundVars` lists these variables; if their types are resolved as
well, there is no hole anywhere.
-/

namespace TensorCompiler

mutual

/-- Whether an expression holds no hole and no pattern node, the types of its variables and casts included. -/
def Expr.isHoleFree : Expr → Bool
  | .var ⟨_, ty⟩ => ty.isHoleFree
  | .const .. => true
  | .unary _ arg | .deref arg | .addr arg | .ref arg => arg.isHoleFree
  | .binary _ lhs rhs => lhs.isHoleFree && rhs.isHoleFree
  | .letIn ⟨_, ty⟩ value body => ty.isHoleFree && value.isHoleFree && body.isHoleFree
  | .ite cond thenE elseE => cond.isHoleFree && thenE.isHoleFree && elseE.isHoleFree
  | .element base indices => base.isHoleFree && Expr.allHoleFree indices
  | .call _ args => Expr.allHoleFree args
  | .cast target arg => target.isHoleFree && arg.isHoleFree
  | .scalarInput _ dtype => dtype.isResolved
  | .tensorInput _ dtype shape => dtype.isResolved && Expr.openHoleFree shape
  | .compute _ shape axes value | .reduce _ shape axes value =>
    Expr.allHoleFree shape && Var.allHoleFree axes && value.isHoleFree
  | .any _ | .anyCompute .. | .anyReduce _ => false

/-- Whether there is no hole in any expression of a list. -/
def Expr.allHoleFree : List Expr → Bool
  | [] => true
  | e :: es => e.isHoleFree && Expr.allHoleFree es

/-- Whether there is no hole in extents or strides that may be left out. -/
def Expr.openHoleFree : Option (List Expr) → Bool
  | none => true
  | some es => Expr.allHoleFree es

/-- Whether there is no hole in the type of any variable of a list. -/
def Var.allHoleFree : List Var → Bool
  | [] => true
  | ⟨_, ty⟩ :: vars => ty.isHoleFree && Var.allHoleFree vars

/-- Whether a tensor type holds no hole. -/
def TensorType.isHoleFree : TensorType → Bool
  | ⟨.known scope, dtype, shape, strides⟩ =>
    scope.isResolved && dtype.isResolved && Expr.openHoleFree shape && Expr.openHoleFree strides
  | ⟨.hole _, _, _, _⟩ => false

/-- Whether a type holds no hole. -/
def Ty.isHoleFree : Ty → Bool
  | .scalar dtype => dtype.isResolved
  | .tensor type | .tensorPointer type => type.isHoleFree
  | .pointer base | .reference base => base.isHoleFree
  | .void => true

end

theorem Expr.isHoleFree_var (v : Var) : (Expr.var v).isHoleFree = v.ty.isHoleFree := by
  obtain ⟨name, ty⟩ := v
  rfl

/-! ## Bound variables -/

mutual

/-- The variables that an expression binds, those inside types included. -/
def Expr.boundVars : Expr → List Var
  | .var ⟨_, ty⟩ => ty.boundVars
  | .unary _ arg | .deref arg | .addr arg | .ref arg => arg.boundVars
  | .binary _ lhs rhs => lhs.boundVars ++ rhs.boundVars
  | .letIn ⟨name, ty⟩ value body => ⟨name, ty⟩ :: (ty.boundVars ++ value.boundVars ++ body.boundVars)
  | .ite cond thenE elseE => cond.boundVars ++ thenE.boundVars ++ elseE.boundVars
  | .element base indices => base.boundVars ++ Expr.allBoundVars indices
  | .call _ args => Expr.allBoundVars args
  | .cast target arg => target.boundVars ++ arg.boundVars
  | .tensorInput _ _ shape => Expr.openBoundVars shape
  | .compute _ shape axes value | .reduce _ shape axes value =>
    Expr.allBoundVars shape ++ Var.allBoundVars axes ++ value.boundVars
  | .const .. | .scalarInput .. | .any _ | .anyCompute .. | .anyReduce _ => []

/-- The variables that expressions bind. -/
def Expr.allBoundVars : List Expr → List Var
  | [] => []
  | e :: es => e.boundVars ++ Expr.allBoundVars es

/-- The variables that extents or strides bind. -/
def Expr.openBoundVars : Option (List Expr) → List Var
  | none => []
  | some es => Expr.allBoundVars es

/-- Axes, and the variables that their types bind. -/
def Var.allBoundVars : List Var → List Var
  | [] => []
  | ⟨name, ty⟩ :: vars => ⟨name, ty⟩ :: (ty.boundVars ++ Var.allBoundVars vars)

/-- The variables that a tensor type binds. -/
def TensorType.boundVars : TensorType → List Var
  | ⟨_, _, shape, strides⟩ => Expr.openBoundVars shape ++ Expr.openBoundVars strides

/-- The variables that a type binds. -/
def Ty.boundVars : Ty → List Var
  | .tensor type | .tensorPointer type => type.boundVars
  | .pointer base | .reference base => base.boundVars
  | .scalar _ | .void => []

end

/-- Whether the types of variables are resolved. -/
def AreResolved (vars : List Var) : Prop :=
  ∀ v ∈ vars, v.ty.isResolved = true

@[simp] theorem areResolved_nil : AreResolved [] :=
  fun _ hv => absurd hv List.not_mem_nil

@[simp] theorem areResolved_cons {v : Var} {vars : List Var} :
    AreResolved (v :: vars) ↔ v.ty.isResolved = true ∧ AreResolved vars :=
  List.forall_mem_cons

@[simp] theorem areResolved_append {vars vars' : List Var} :
    AreResolved (vars ++ vars') ↔ AreResolved vars ∧ AreResolved vars' :=
  List.forall_mem_append

/-! ## Resolved expressions -/

mutual

/-- A resolved expression that binds variables of resolved types holds no hole. -/
theorem Expr.isHoleFree_of_isResolved : ∀ e : Expr, e.isResolved = true → AreResolved e.boundVars → e.isHoleFree = true
  | .var ⟨_, ty⟩, h, hbound => Ty.isHoleFree_of_isResolved ty h hbound
  | .const .., _, _ => rfl
  | .unary _ arg, h, hbound | .deref arg, h, hbound | .addr arg, h, hbound | .ref arg, h, hbound =>
    arg.isHoleFree_of_isResolved h hbound
  | .binary _ lhs rhs, h, hbound => by
    rw [Expr.isResolved, Bool.and_eq_true] at h
    rw [Expr.boundVars, areResolved_append] at hbound
    rw [Expr.isHoleFree, lhs.isHoleFree_of_isResolved h.1 hbound.1, rhs.isHoleFree_of_isResolved h.2 hbound.2, Bool.and_self]
  | .letIn ⟨_, ty⟩ value body, h, hbound => by
    rw [Expr.isResolved, Bool.and_eq_true] at h
    simp only [Expr.boundVars, areResolved_cons, areResolved_append] at hbound
    obtain ⟨hty, ⟨hinner, hvalue⟩, hbody⟩ := hbound
    simp only [Expr.isHoleFree, ty.isHoleFree_of_isResolved hty hinner, value.isHoleFree_of_isResolved h.1 hvalue,
      body.isHoleFree_of_isResolved h.2 hbody, Bool.and_self]
  | .ite cond thenE elseE, h, hbound => by
    simp only [Expr.isResolved, Bool.and_eq_true] at h
    simp only [Expr.boundVars, areResolved_append] at hbound
    simp only [Expr.isHoleFree, cond.isHoleFree_of_isResolved h.1.1 hbound.1.1,
      thenE.isHoleFree_of_isResolved h.1.2 hbound.1.2, elseE.isHoleFree_of_isResolved h.2 hbound.2, Bool.and_self]
  | .element base indices, h, hbound => by
    rw [Expr.isResolved, Bool.and_eq_true] at h
    rw [Expr.boundVars, areResolved_append] at hbound
    rw [Expr.isHoleFree, base.isHoleFree_of_isResolved h.1 hbound.1, Expr.allHoleFree_of_allResolved indices h.2 hbound.2,
      Bool.and_self]
  | .call _ args, h, hbound => Expr.allHoleFree_of_allResolved args h hbound
  | .cast target arg, h, hbound => by
    rw [Expr.isResolved, Bool.and_eq_true] at h
    rw [Expr.boundVars, areResolved_append] at hbound
    rw [Expr.isHoleFree, target.isHoleFree_of_isResolved h.1 hbound.1, arg.isHoleFree_of_isResolved h.2 hbound.2,
      Bool.and_self]
  | .scalarInput _ _, h, _ => h
  | .tensorInput _ dtype (some shape), h, hbound => by
    rw [Expr.isResolved, Bool.and_eq_true] at h
    rw [Expr.isHoleFree, Expr.openHoleFree, h.1, Expr.allHoleFree_of_allResolved shape h.2 hbound, Bool.and_self]
  | .tensorInput _ _ none, h, _ => absurd h Bool.false_ne_true
  | .compute _ shape axes value, h, hbound | .reduce _ shape axes value, h, hbound => by
    rw [Expr.isResolved, Bool.and_eq_true] at h
    simp only [Expr.boundVars, areResolved_append] at hbound
    simp only [Expr.isHoleFree, Expr.allHoleFree_of_allResolved shape h.1 hbound.1.1,
      Var.allHoleFree_of_areResolved axes hbound.1.2, value.isHoleFree_of_isResolved h.2 hbound.2, Bool.and_self]
  | .any _, h, _ | .anyCompute .., h, _ | .anyReduce _, h, _ => absurd h Bool.false_ne_true

theorem Expr.allHoleFree_of_allResolved : ∀ es : List Expr, Expr.allResolved es = true →
    AreResolved (Expr.allBoundVars es) → Expr.allHoleFree es = true
  | [], _, _ => rfl
  | e :: es, h, hbound => by
    rw [Expr.allResolved, Bool.and_eq_true] at h
    rw [Expr.allBoundVars, areResolved_append] at hbound
    rw [Expr.allHoleFree, e.isHoleFree_of_isResolved h.1 hbound.1, Expr.allHoleFree_of_allResolved es h.2 hbound.2,
      Bool.and_self]

theorem Var.allHoleFree_of_areResolved : ∀ vars : List Var, AreResolved (Var.allBoundVars vars) →
    Var.allHoleFree vars = true
  | [], _ => rfl
  | ⟨_, ty⟩ :: vars, hbound => by
    simp only [Var.allBoundVars, areResolved_cons, areResolved_append] at hbound
    rw [Var.allHoleFree, ty.isHoleFree_of_isResolved hbound.1 hbound.2.1, Var.allHoleFree_of_areResolved vars hbound.2.2,
      Bool.and_self]

theorem TensorType.isHoleFree_of_isResolved : ∀ type : TensorType, type.isResolved = true → AreResolved type.boundVars →
    type.isHoleFree = true
  | ⟨.known _, .known _, some shape, none⟩, h, hbound => by
    rw [TensorType.isResolved, Bool.and_eq_true] at h
    rw [TensorType.boundVars, areResolved_append] at hbound
    simp only [TensorType.isHoleFree, Expr.openHoleFree, h.1, Expr.allHoleFree_of_allResolved shape h.2 hbound.1,
      Slot.isResolved, Bool.and_self]
  | ⟨.known _, .known _, some shape, some strides⟩, h, hbound => by
    simp only [TensorType.isResolved, Bool.and_eq_true] at h
    rw [TensorType.boundVars, areResolved_append] at hbound
    simp only [TensorType.isHoleFree, Expr.openHoleFree, h.1.1, Expr.allHoleFree_of_allResolved shape h.1.2 hbound.1,
      Expr.allHoleFree_of_allResolved strides h.2 hbound.2, Slot.isResolved, Bool.and_self]
  | ⟨.hole _, _, _, _⟩, h, _ => absurd h Bool.false_ne_true
  | ⟨.known _, .hole _, _, _⟩, h, _ => absurd h Bool.false_ne_true
  | ⟨.known _, .known _, none, _⟩, h, _ => absurd h Bool.false_ne_true

/-- A resolved type that binds variables of resolved types holds no hole. -/
theorem Ty.isHoleFree_of_isResolved : ∀ ty : Ty, ty.isResolved = true → AreResolved ty.boundVars → ty.isHoleFree = true
  | .scalar _, h, _ => h
  | .tensor type, h, hbound | .tensorPointer type, h, hbound => type.isHoleFree_of_isResolved h hbound
  | .pointer base, h, hbound | .reference base, h, hbound => base.isHoleFree_of_isResolved h hbound
  | .void, _, _ => rfl

end

end TensorCompiler
