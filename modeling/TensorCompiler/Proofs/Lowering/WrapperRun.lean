import TensorCompiler.Proofs.Kernel.Exec
import TensorCompiler.Proofs.Lowering.Settled
import TensorCompiler.Proofs.Lowering.Wrappers

/-! # Calls through a wrapper

The checks of a wrapper compare an argument of the call, or an element in memory, with a literal. None of them is a
literal or an operation on literals, and a wrapper has no tensor among its parameters, so the transforms that run after
the wrappers are added leave each of them as it is. A call of a lowered wrapper then fails at the first wrong number or
type code, before anything has happened, and otherwise is one call of the entry.
-/

namespace TensorCompiler

/-! ## What a wrapper consists of -/

namespace PackedCall

/-- The address of the argument at a position. -/
def slot (index : Nat) : Expr :=
  .element (.var args) [Expr.int (Int64.ofNat index)]

/-- Whether an expression is the argument at a position for a parameter of the given type: an address as a pointer to the
elements of a tensor or as the pointer that the type is, or the scalar that an address points to. -/
inductive IsArgument (index : Nat) : Ty → Expr → Prop
  | tensor (type : TensorType) : IsArgument index (.tensor type) (.cast (.pointer (.scalar type.dtype)) (slot index))
  | tensorPointer (type : TensorType) :
    IsArgument index (.tensorPointer type) (.cast (.pointer (.scalar type.dtype)) (slot index))
  | pointer (base : Ty) : IsArgument index (.pointer base) (.cast (.pointer base) (slot index))
  | scalar (dtype : DType) :
    IsArgument index (.scalar (.known dtype)) (.deref (.cast (.pointer (.scalar (.known dtype))) (slot index)))

/-- The checks of the type codes of the arguments, in their order. -/
def checksOf (entry : String) (codes : List Int64) : List Stmt :=
  codes.zipIdx.map fun p => codeCheck entry p.2 p.1

/-- The parts of the wrapper of an entry: it checks the number of arguments and the type code of each, and calls the entry
with what the arguments are. -/
structure HasParts (w entry : Function) (codes : List Int64) (arguments : List Expr) : Prop where
  params_eq : w.params = [numArgs, argTypes, args]
  locals_eq : w.locals = []
  body_eq : w.body =
    .seq (countCheck entry.name entry.params.length :: checksOf entry.name codes ++ [.eval (.call entry.name arguments)])
  codes : List.Forall₂ (fun param code => param.ty.packedCode? = some code) entry.params codes
  arguments : List.Forall₂ (fun (param, index) e => IsArgument index param.ty e) entry.params.zipIdx arguments

variable {entry w : Function}

theorem codeChecks_eq_ok_iff {name : String} {index : Nat} {params : List Var} {checks : List Stmt} :
    codeChecks name index params = .ok checks ↔
      ∃ codes, List.Forall₂ (fun param code => param.ty.packedCode? = some code) params codes ∧
        checks = (codes.zipIdx index).map fun p => codeCheck name p.2 p.1 := by
  induction params generalizing index checks with
  | nil => simp [codeChecks, List.forall₂_nil_left_iff, eq_comm]
  | cons param params ih =>
    rw [codeChecks]
    cases hcode : param.ty.packedCode? with
    | none => simp [List.forall₂_cons_left_iff, hcode]
    | some code =>
      simp only [bind_eq_ok_iff, ih, List.forall₂_cons_left_iff, hcode]
      constructor
      · rintro ⟨_, ⟨codes, hcodes, rfl⟩, hchecks⟩
        cases hchecks
        exact ⟨_, ⟨code, codes, rfl, hcodes, rfl⟩, rfl⟩
      · rintro ⟨_, ⟨_, codes, hhead, hcodes, rfl⟩, rfl⟩
        cases hhead
        exact ⟨_, ⟨codes, hcodes, rfl⟩, rfl⟩

/-- A parameter that has a type code has its argument. -/
theorem isArgument_unpack {ty : Ty} (h : ty.packedCode?.isSome) (index : Nat) : IsArgument index ty (unpack index ty) := by
  cases ty with
  | scalar dtype =>
    cases dtype with
    | known dtype => exact .scalar dtype
    | hole _ => cases h
  | tensor type => exact .tensor type
  | tensorPointer type => exact .tensorPointer type
  | pointer base => exact .pointer base
  | _ => cases h

theorem exists_hasParts (h : wrapper entry = .ok w) : ∃ codes arguments, HasParts w entry codes arguments := by
  obtain ⟨checks, hchecks, hresult⟩ := bind_eq_ok_iff.mp h
  obtain ⟨codes, hcodes, rfl⟩ := codeChecks_eq_ok_iff.mp hchecks
  cases hresult
  refine ⟨codes, _, rfl, rfl, Stmt.block_of_length_ne_one (by simp), hcodes, ?_⟩
  rw [List.forall₂_map_right_iff, List.forall₂_same]
  intro (param, index) hparam
  obtain ⟨code, -, hcode⟩ := exists_mem_of_forall₂ hcodes (List.fst_mem_of_mem_zipIdx hparam)
  exact isArgument_unpack (Option.isSome_iff_exists.mpr ⟨code, hcode⟩) index

end PackedCall

/-! ## Simplification leaves wrappers -/

namespace Expr

variable [FloatOps] {env : Bounds}

theorem settled_var (v : Var) : Settled boundNode env (.var v) :=
  .node (fun _ _ _ h => by cases h) (fun _ hc => by cases hc) rfl

theorem settled_int (n : Int64) : Settled boundNode env (.int n) :=
  .node (fun _ _ _ h => by cases h) (fun _ hc => by cases hc) rfl

/-- An element at a literal index. -/
theorem settled_element (v : Var) (n : Int64) : Settled boundNode env (.element (.var v) [.int n]) := by
  refine .node (fun _ _ _ h => by cases h) (fun c hc => ?_) rfl
  rcases List.mem_cons.mp hc with rfl | hc
  · exact settled_var v
  · rw [List.mem_singleton.mp hc]
    exact settled_int n

/-- An operation on settled operands that is left itself. -/
theorem settled_binary {op : BinaryOp} {lhs rhs : Expr} (hl : Settled boundNode env lhs) (hr : Settled boundNode env rhs)
    (hroot : boundNode env (binary op lhs rhs) = binary op lhs rhs) : Settled boundNode env (binary op lhs rhs) := by
  refine .node (fun _ _ _ h => by cases h) (fun c hc => ?_) hroot
  rcases List.mem_cons.mp hc with rfl | hc
  · exact hl
  · rw [List.mem_singleton.mp hc]
    exact hr

/-- Equality of what is settled and no literal with a literal. -/
theorem settled_equals_int {e : Expr} (h : Settled boundNode env e) (hopen : e.value? = none) (n : Int64) :
    Settled boundNode env (e.equals (.int n)) := by
  refine settled_binary h (settled_int n) ?_
  cases e with
  | const v d => cases hopen
  | _ => rfl

/-- A call with settled arguments none of which is a literal. -/
theorem settled_call {func : String} {args : List Expr} (h : ∀ arg ∈ args, Settled boundNode env arg)
    (hopen : ∀ arg ∈ args, arg.value? = none) : Settled boundNode env (.call func args) := by
  refine .node (fun _ _ _ h => by cases h) h ?_
  change foldCall func args = .call func args
  cases args with
  | nil => simp [foldCall]
  | cons arg args =>
    rw [foldCall, List.mapM_cons, hopen arg List.mem_cons_self]
    rfl

/-- What a sweep that looks at bounds has settled, folding leaves. -/
theorem Settled.fold_eq {e : Expr} (h : Settled boundNode env e) : e.fold = e := by
  have hfold : Settled (fun _ => foldNode) env e := by
    induction h with
    | letIn _ _ ihvalue ihbody => exact .letIn ihvalue ihbody
    | node he _ hroot ih => exact .node he ih (foldNode_eq_of_boundNode_eq hroot)
  exact hfold.eq isSweep_fold

end Expr

namespace Stmt

variable [FloatOps] {F : Bounds → Expr → Expr} {env : Bounds}

theorem settled_eval {e : Expr} (h : F env e = e) : Settled F env (.eval e) :=
  .leaf rfl (congrArg eval h) rfl

theorem settled_assert {cond : Expr} (message : String) (h : F env cond = cond) (hopen : cond.value? = none) :
    Settled F env (.assert cond message) :=
  .leaf rfl (congrArg (assert · message) h) (by rw [foldNode, hopen])

/-- A sequence of several settled statements that hold no others. -/
theorem settled_seq {stmts : List Stmt} (hlength : stmts.length ≠ 1) (hleaf : ∀ s ∈ stmts, s.isLeaf)
    (h : ∀ s ∈ stmts, Settled F env s) : Settled F env (.seq stmts) :=
  .seq hlength (fun s hs => flatten_of_isLeaf (hleaf s hs)) h

end Stmt

namespace PackedCall

variable [FloatOps] {env : Bounds} {w entry : Function} {codes : List Int64} {arguments : List Expr}

theorem IsArgument.settled {index : Nat} {ty : Ty} {e : Expr} (h : IsArgument index ty e) :
    Expr.Settled Expr.boundNode env e ∧ e.value? = none := by
  have hslot : Expr.Settled Expr.boundNode env (slot index) := Expr.settled_element args _
  have hcast (target : Ty) : Expr.Settled Expr.boundNode env (.cast (.pointer target) (slot index)) := by
    refine .node (fun _ _ _ h => by cases h) (fun c hc => ?_) rfl
    rw [List.mem_singleton.mp hc]
    exact hslot
  cases h with
  | scalar dtype =>
    refine ⟨.node (fun _ _ _ h => by cases h) (fun c hc => ?_) rfl, rfl⟩
    rw [List.mem_singleton.mp hc]
    exact hcast _
  | _ => exact ⟨hcast _, rfl⟩

/-- A rebuild of expressions that leaves those that are settled leaves the whole body of a wrapper. -/
theorem HasParts.settled (h : HasParts w entry codes arguments) {F : Bounds → Expr → Expr}
    (hF : ∀ e, Expr.Settled Expr.boundNode env e → F env e = e) : Stmt.Settled F env w.body := by
  have hcall : Expr.Settled Expr.boundNode env (.call entry.name arguments) := by
    have harguments : ∀ e ∈ arguments, Expr.Settled Expr.boundNode env e ∧ e.value? = none :=
      forall_mem_of_forall₂ h.arguments fun _ _ _ harg => harg.settled
    exact Expr.settled_call (fun e he => (harguments e he).1) fun e he => (harguments e he).2
  rw [h.body_eq]
  refine Stmt.settled_seq (by simp) (fun s hs => ?_) fun s hs => ?_
  all_goals simp only [checksOf, List.cons_append, List.mem_cons, List.mem_append, List.mem_map, List.not_mem_nil,
    or_false] at hs
  · obtain rfl | ⟨_, -, rfl⟩ | rfl := hs <;> rfl
  · obtain rfl | ⟨_, -, rfl⟩ | rfl := hs
    · exact Stmt.settled_assert _ (hF _ (Expr.settled_equals_int (Expr.settled_var numArgs) rfl _)) rfl
    · exact Stmt.settled_assert _ (hF _ (Expr.settled_equals_int (Expr.settled_element argTypes _) rfl _)) rfl
    · exact Stmt.settled_eval (hF _ hcall)

/-- No transform that runs after wrappers are added changes one. -/
theorem HasParts.lower_eq (h : HasParts w entry codes arguments) :
    w.flattenTensors = w ∧ w.foldConstants = w ∧ w.simplifyBounds = w := by
  have hflat : FlatBuffers.ofVars (w.params ++ w.locals) = [] := by
    rw [h.params_eq, h.locals_eq]
    rfl
  have hsettled : Stmt.Settled (fun _ => Expr.fold) (.ofWorker w.worker) w.body := h.settled fun _ he => he.fold_eq
  have hfold : w.body.fold = w.body := hsettled.eq Stmt.isSweep_fold
  have hbound : w.body.simplifyBounds (.ofWorker w.worker) = w.body :=
    (h.settled fun _ he => he.eq Expr.isSweep_simplifyBounds).eq Stmt.isSweep_simplifyBounds
  refine ⟨if_pos (by rw [hflat]; rfl), ?_, ?_⟩
  · rw [Function.foldConstants, hfold]
  · rw [Function.simplifyBounds, hbound]

end PackedCall

/-! ## Runs of the checks -/

section

variable [FloatOps] {Address Memory : Type} {M : Machine Address Memory} {s : State Address Memory}

theorem BinaryOp.eval?_eq_int (a b : Int64) : BinaryOp.eq.eval? (.int a) (.int b) = some (.bool (a = b)) := by
  have hcompare : (compare a b == .eq) = decide (a = b) := by
    rw [Bool.eq_iff_iff]
    simp
  simp only [BinaryOp.eval?, Value.compare?, Value.discrete?, Option.map_some, hcompare]

/-- An element of a variable at a literal index is read from memory. -/
theorem Expr.run_element_int {memory : Memory} {vars : Vars Address} {v : Var} {a : Address}
    (hv : vars.lookup v.name = some (.address a)) (n : Int64) :
    (element (.var v) [.int n]).run M false memory vars =
      (M.load memory (M.element a [n])).bind (Datum.readAs (.element (.var v) [.int n])) := by
  simp [Expr.run, runIndices, Expr.int, hv, Datum.guarded, Datum.address?, Datum.int?]

/-- The check that an integer has a given value. -/
theorem Stmt.exec_assert_equals_int {e : Expr} {a : Int64} (he : e.run M false s.memory s.vars = some (.scalar (.int a)))
    (b : Int64) (message : String) :
    (assert (e.equals (.int b)) message).exec M false s =
      some { state := s, halt := if a = b then none else some (.failed message) } := by
  have hcond : (e.equals (.int b)).run M false s.memory s.vars = some (.scalar (.bool (a = b))) :=
    Expr.run_binary_eq_some_iff.mpr ⟨_, _, _, he, Expr.run_const_eq_some_iff.mpr ⟨rfl, nofun⟩, nofun,
      BinaryOp.eval?_eq_int a b, rfl⟩
  refine exec_assert_eq_some_iff.mpr ⟨_, hcond, ?_⟩
  simp [Value.truthy]

end

/-- The state in which a call of a function begins. -/
def Function.enter {Address Memory : Type} (f : Function) (args : List (Datum Address)) (memory : Memory) :
    State Address Memory where
  vars := (f.params.map Var.name).zip args
  memory := memory

namespace PackedCall

section

variable {Address Memory : Type}

/-- The arguments of a call through a wrapper: how many arguments there are for the entry, where their type codes begin
and where their addresses do. -/
def calledWith (count : Int64) (types slots : Address) : List (Datum Address) :=
  [.scalar (.int count), .address types, .address slots]

/-- A call passes what it is made with. -/
theorem HasParts.lookup_enter {w entry : Function} {codes : List Int64} {arguments : List Expr}
    (h : HasParts w entry codes arguments) (count : Int64) (types slots : Address) (memory : Memory) :
    let vars := (w.enter (calledWith count types slots) memory).vars
    vars.lookup numArgs.name = some (.scalar (.int count)) ∧ vars.lookup argTypes.name = some (.address types) ∧
      vars.lookup args.name = some (.address slots) := by
  intro vars
  have hvars : vars =
      [(numArgs.name, .scalar (.int count)), (argTypes.name, .address types), (args.name, .address slots)] := by
    simp only [vars, Function.enter, h.params_eq]
    rfl
  rw [hvars]
  exact ⟨rfl, rfl, rfl⟩

/-- Whether memory holds type codes one after the other. -/
def HoldsCodes (M : Machine Address Memory) (memory : Memory) (types : Address) (codes : List Int64) : Prop :=
  ∀ p ∈ codes.zipIdx, M.load memory (M.element types [Int64.ofNat p.2]) = some (.scalar (.int p.1))

/-- What an entry receives at a position for a parameter of the given type: the address that is passed, or the scalar that
memory holds there. -/
inductive Receives (M : Machine Address Memory) (memory : Memory) (slots : Address) (index : Nat) : Ty → Datum Address → Prop
  | address {ty : Ty} {a : Address} (hty : ∀ dtype, ty ≠ .scalar dtype)
    (ha : M.load memory (M.element slots [Int64.ofNat index]) = some (.address a)) :
    Receives M memory slots index ty (.address a)
  | scalar {dtype : DType} {a : Address} {v : Value}
    (ha : M.load memory (M.element slots [Int64.ofNat index]) = some (.address a))
    (hv : M.load memory a = some (.scalar v)) :
    Receives M memory slots index (.scalar (.known dtype)) (.scalar (v.cast dtype))

end

variable [FloatOps]

/-- What calls of a wrapper do. One with a wrong number of arguments or a wrong type code fails, and nothing has happened;
any other is a single call of the entry with the arguments that the entry receives. What this call does is up to the
entry, unless its name is one that the machine takes for a primitive. -/
structure Guards (w entry : Function) (arguments : List Expr) : Prop where
  isArgument : List.Forall₂ (fun (param, index) e => IsArgument index param.ty e) entry.params.zipIdx arguments
  rejects {Address Memory : Type} (M : Machine Address Memory) (memory : Memory) {count : Int64} (types slots : Address)
    (h : count ≠ Int64.ofNat entry.params.length ∨ ∃ codes, codes.length = entry.params.length ∧
      HoldsCodes M memory types codes ∧ ¬List.Forall₂ (fun param code => param.ty.packedCode? = some code) entry.params codes) :
    ∃ message, w.body.exec M false (w.enter (calledWith count types slots) memory) =
      some { state := w.enter (calledWith count types slots) memory, halt := some (.failed message) }
  forwards {Address Memory : Type} (M : Machine Address Memory) (memory : Memory) {types : Address} (slots : Address)
    {codes : List Int64} (hheld : HoldsCodes M memory types codes)
    (hcodes : List.Forall₂ (fun param code => param.ty.packedCode? = some code) entry.params codes) :
    let s := w.enter (calledWith (Int64.ofNat entry.params.length) types slots) memory
    w.body.exec M false s = (Stmt.eval (.call entry.name arguments)).exec M false s ∧
      (∀ δs, Expr.runAll M false memory s.vars arguments = some δs ↔
        List.Forall₂ (fun (param, index) δ => Receives M memory slots index param.ty δ) entry.params.zipIdx δs) ∧
      (Primitive.isPrimitive entry.name = false → ∀ r, w.body.exec M false s = some r ↔
        ∃ δs memory', List.Forall₂ (fun (param, index) δ => Receives M memory slots index param.ty δ) entry.params.zipIdx δs ∧
          M.invoke entry.name δs memory = some memory' ∧
          r = { state := { s with memory := memory' }, events := [.call entry.name δs] })

section

variable {Address Memory : Type} {M : Machine Address Memory} {s : State Address Memory} {types slots : Address}

theorem exec_codeCheck (hs : s.vars.lookup argTypes.name = some (.address types)) (entry : String) (index : Nat)
    (code : Int64) {held : Int64} (hheld : M.load s.memory (M.element types [Int64.ofNat index]) = some (.scalar (.int held))) :
    ∃ message, (codeCheck entry index code).exec M false s =
      some { state := s, halt := if held = code then none else some (.failed message) } := by
  have hread : (Expr.element (.var argTypes) [Expr.int (Int64.ofNat index)]).run M false s.memory s.vars =
      some (.scalar (.int held)) := by
    rw [Expr.run_element_int hs, hheld]
    rfl
  exact ⟨_, Stmt.exec_assert_equals_int hread _ _⟩

/-- The checks of type codes let pass the codes that they look for and fail at the first other one. -/
theorem execAll_codeChecks (hs : s.vars.lookup argTypes.name = some (.address types)) (entry : String)
    {codes held : List Int64} (hlength : held.length = codes.length) (index : Nat)
    (hheld : ∀ p ∈ held.zipIdx index, M.load s.memory (M.element types [Int64.ofNat p.2]) = some (.scalar (.int p.1))) :
    ∃ message, Stmt.execAll M false ((codes.zipIdx index).map fun p => codeCheck entry p.2 p.1) s =
      some { state := s, halt := if held = codes then none else some (.failed message) } := by
  induction codes generalizing held index with
  | nil =>
    rw [List.length_nil, List.length_eq_zero_iff] at hlength
    subst hlength
    exact ⟨"", rfl⟩
  | cons code codes ih =>
    obtain ⟨first, held, rfl⟩ := List.exists_cons_of_length_eq_add_one hlength
    rw [List.zipIdx_cons, List.forall_mem_cons] at hheld
    obtain ⟨message, hfirst⟩ := exec_codeCheck hs entry index code hheld.1
    obtain ⟨message', hrest⟩ := ih (Nat.succ.inj hlength) (index + 1) hheld.2
    simp only [List.zipIdx_cons, List.map_cons, Stmt.execAll, hfirst, Option.bind_some]
    by_cases hsame : first = code
    · exact ⟨message', by simp [hsame, Run.andThen, hrest]⟩
    · exact ⟨message, by simp [hsame, Run.andThen]⟩

theorem exec_countCheck {count : Int64} (hs : s.vars.lookup numArgs.name = some (.scalar (.int count))) (entry : String)
    (n : Nat) : ∃ message, (countCheck entry n).exec M false s =
      some { state := s, halt := if count = Int64.ofNat n then none else some (.failed message) } := by
  have hread : (Expr.var numArgs).run M false s.memory s.vars = some (.scalar (.int count)) :=
    Expr.run_var_eq_some_iff.mpr ⟨hs, nofun⟩
  exact ⟨_, Stmt.exec_assert_equals_int hread _ _⟩

/-- The cast of an argument is the address that is passed. -/
theorem run_cast_slot_eq_some_iff (hs : s.vars.lookup args.name = some (.address slots)) {index : Nat} {target : Ty}
    {δ : Datum Address} :
    (Expr.cast (.pointer target) (slot index)).run M false s.memory s.vars = some δ ↔
      ∃ a, M.load s.memory (M.element slots [Int64.ofNat index]) = some (.address a) ∧ δ = .address a := by
  have hread (held δ : Datum Address) :
      Datum.readAs (slot index) held = some δ ↔ ∃ a, held = .address a ∧ δ = .address a := by
    have hvoid : (slot index).knownDType? = none := rfl
    cases held <;> simp [Datum.readAs, hvoid, eq_comm]
  have hslot : (slot index).run M false s.memory s.vars =
      (M.load s.memory (M.element slots [Int64.ofNat index])).bind (Datum.readAs (slot index)) :=
    Expr.run_element_int hs _
  simp only [Expr.run_cast_eq_some_iff, hslot, Option.bind_eq_some_iff, hread]
  constructor
  · rintro ⟨_, ⟨_, hload, a, rfl, rfl⟩, hcast⟩
    cases hcast
    exact ⟨a, hload, rfl⟩
  · rintro ⟨a, hload, rfl⟩
    exact ⟨_, ⟨_, hload, a, rfl, rfl⟩, rfl⟩

/-- What an argument gives is what the entry receives. -/
theorem IsArgument.run_eq_some_iff (hs : s.vars.lookup args.name = some (.address slots)) {index : Nat} {ty : Ty} {e : Expr}
    (h : IsArgument index ty e) {δ : Datum Address} :
    e.run M false s.memory s.vars = some δ ↔ Receives M s.memory slots index ty δ := by
  have haddress {ty : Ty} (hty : ∀ dtype, ty ≠ .scalar dtype) :
      (∃ a, M.load s.memory (M.element slots [Int64.ofNat index]) = some (.address a) ∧ δ = .address a) ↔
        Receives M s.memory slots index ty δ := by
    constructor
    · rintro ⟨a, ha, rfl⟩
      exact .address hty ha
    · rintro (⟨-, ha⟩ | ⟨-, -⟩)
      · exact ⟨_, ha, rfl⟩
      · exact absurd rfl (hty _)
  cases h with
  | tensor | tensorPointer | pointer =>
    rw [run_cast_slot_eq_some_iff hs]
    exact haddress nofun
  | scalar dtype =>
    have hread (held : Datum Address) :
        Datum.readAs (.deref (.cast (.pointer (.scalar (.known dtype))) (slot index))) held = some δ ↔
          ∃ v, held = .scalar v ∧ δ = .scalar (v.cast dtype) := by
      have hknown : (Expr.deref (.cast (.pointer (.scalar (.known dtype))) (slot index))).knownDType? = some dtype := rfl
      cases held <;> simp [Datum.readAs, hknown, eq_comm]
    simp only [Expr.run_deref_eq_some_iff, run_cast_slot_eq_some_iff hs, hread]
    constructor
    · rintro ⟨_, _, ⟨a, ha, haddr⟩, hv, v, rfl, rfl⟩
      cases haddr
      exact .scalar ha hv
    · rintro (⟨hty, -⟩ | ⟨ha, hv⟩)
      · exact absurd rfl (hty _)
      · exact ⟨_, _, ⟨_, ha, rfl⟩, hv, _, rfl, rfl⟩

end

/-! ## Runs of wrappers -/

variable {w entry : Function} {codes : List Int64} {arguments : List Expr}

section

variable {Address Memory : Type} {M : Machine Address Memory} {s : State Address Memory} {types : Address} {count : Int64}

/-- A call with a wrong number of arguments fails at the first check. -/
theorem HasParts.exec_of_count_ne (h : HasParts w entry codes arguments)
    (hs : s.vars.lookup numArgs.name = some (.scalar (.int count))) (hne : count ≠ Int64.ofNat entry.params.length) :
    ∃ message, w.body.exec M false s = some { state := s, halt := some (.failed message) } := by
  obtain ⟨message, hcheck⟩ := exec_countCheck (M := M) hs entry.name entry.params.length
  refine ⟨message, ?_⟩
  rw [h.body_eq, Stmt.exec_seq, List.cons_append, Stmt.execAll, hcheck, if_neg hne]
  rfl

/-- A call with the right number of arguments goes on if the type codes are right too. -/
theorem HasParts.exec_of_count_eq (h : HasParts w entry codes arguments)
    (hcount : s.vars.lookup numArgs.name = some (.scalar (.int (Int64.ofNat entry.params.length))))
    (htypes : s.vars.lookup argTypes.name = some (.address types)) {held : List Int64} (hlength : held.length = codes.length)
    (hheld : HoldsCodes M s.memory types held) :
    ∃ message, w.body.exec M false s = if held = codes then (Stmt.eval (.call entry.name arguments)).exec M false s
      else some { state := s, halt := some (.failed message) } := by
  obtain ⟨_, hfirst⟩ := exec_countCheck (M := M) hcount entry.name entry.params.length
  obtain ⟨message, hchecks⟩ := execAll_codeChecks htypes entry.name hlength 0 hheld
  refine ⟨message, ?_⟩
  rw [h.body_eq, Stmt.exec_seq, List.cons_append, Stmt.execAll, hfirst, if_pos rfl]
  simp only [Option.bind_some, Run.andThen, List.nil_append, Option.map_id', Stmt.execAll_append, checksOf, hchecks,
    Stmt.execAll_singleton]
  split_ifs <;> rfl

end

theorem HasParts.guards (h : HasParts w entry codes arguments) : Guards w entry arguments := by
  constructor
  · exact h.arguments
  · intro Address Memory M memory count types slots hwrong
    obtain ⟨hcount, htypes, -⟩ := h.lookup_enter count types slots memory
    by_cases heq : count = Int64.ofNat entry.params.length
    · subst heq
      obtain ⟨held, hlength, hheld, hother⟩ := hwrong.resolve_left fun hne => hne rfl
      obtain ⟨message, hexec⟩ := h.exec_of_count_eq hcount htypes (hlength.trans h.codes.length_eq) hheld
      have hne : held ≠ codes := fun hsame => hother (hsame ▸ h.codes)
      exact ⟨message, by rw [hexec, if_neg hne]⟩
    · exact h.exec_of_count_ne hcount heq
  · intro Address Memory M memory types slots held hheld hcodes s
    obtain ⟨hcount, htypes, hslots⟩ := h.lookup_enter (Int64.ofNat entry.params.length) types slots memory
    have hsame : held = codes := by
      have heq : List.Forall₂ Eq held codes := forall₂_of_common hcodes h.codes fun param _ c c' hc hc' =>
        Option.some.inj (hc.symm.trans hc')
      rwa [List.forall₂_eq_eq_eq] at heq
    have hreaches : w.body.exec M false s = (Stmt.eval (.call entry.name arguments)).exec M false s := by
      obtain ⟨_, hexec⟩ := h.exec_of_count_eq hcount htypes (hsame ▸ rfl) hheld
      rw [hexec, if_pos hsame]
    have hreceives (δs : List (Datum Address)) :
        List.Forall₂ (fun e δ => e.run M false s.memory s.vars = some δ) arguments δs ↔
          List.Forall₂ (fun (param, index) δ => Receives M memory slots index param.ty δ) entry.params.zipIdx δs := by
      constructor
      · intro hrun
        exact forall₂_of_common h.arguments.flip hrun fun e _ param δ harg hδ => (harg.run_eq_some_iff hslots).mp hδ
      · intro hreceived
        exact forall₂_of_common h.arguments hreceived fun param _ e δ harg hδ => (harg.run_eq_some_iff hslots).mpr hδ
    refine ⟨hreaches, fun δs => Expr.runAll_eq_some_iff.trans (hreceives δs), fun hname r => ?_⟩
    rw [hreaches, Stmt.exec_eval_call_eq_some_iff hname]
    simp only [hreceives]
    rfl

end PackedCall

/-- The wrappers that lowering has added at the end guard the entries that lacked one, in the order of these. -/
theorem Lowerer.guards_of_run [FloatOps] {m lowered : Module} (h : Lowerer.canonical.run m = .ok lowered) :
    ∃ survivors wrappers, lowered.functions = survivors ++ wrappers ∧
      survivors.map Function.frame = m.dropUnreachable.functions.map Function.frame ∧
      List.Forall₂ (fun entry w => w.IsWrapperOf entry ∧ ∃ arguments, PackedCall.Guards w entry arguments)
        (m.dropUnreachable.functions.filter m.dropUnreachable.needsWrapper) wrappers := by
  obtain ⟨wrapped, hwrapped, hlowered⟩ : ∃ wrapped, m.dropUnreachable.addWrappers = .ok wrapped ∧
      ((wrapped.map Function.flattenTensors).map Function.foldConstants).map Function.simplifyBounds = lowered := by
    rw [run] at h
    change (m.dropUnreachable.addWrappers >>= fun wrapped => Except.ok
      (((wrapped.map Function.flattenTensors).map Function.foldConstants).map Function.simplifyBounds)) = _ at h
    obtain ⟨wrapped, hwrapped, hlowered⟩ := bind_eq_ok_iff.mp h
    exact ⟨wrapped, hwrapped, Except.ok.inj hlowered⟩
  obtain ⟨wrappers, hfunctions, hmade⟩ := Module.exists_wrappers hwrapped
  have hguards : List.Forall₂ (fun entry w => w.IsWrapperOf entry ∧ ∃ arguments, PackedCall.Guards w entry arguments)
      (m.dropUnreachable.functions.filter m.dropUnreachable.needsWrapper) wrappers := by
    refine hmade.imp fun entry w hw => ⟨hw.2, ?_⟩
    obtain ⟨_, arguments, hparts⟩ := PackedCall.exists_hasParts hw.1
    exact ⟨arguments, hparts.guards⟩
  let lower (f : Function) : Function := f.flattenTensors.foldConstants.simplifyBounds
  have hsame : wrappers.map lower = wrappers := by
    refine (List.map_congr_left fun w hw => ?_).trans (List.map_id wrappers)
    obtain ⟨entry, -, hentry, -⟩ := exists_mem_of_forall₂ hmade.flip hw
    obtain ⟨_, _, hparts⟩ := PackedCall.exists_hasParts hentry
    obtain ⟨hflat, hfold, hbound⟩ := hparts.lower_eq
    exact (congrArg _ ((congrArg _ hflat).trans hfold)).trans hbound
  refine ⟨m.dropUnreachable.functions.map lower, wrappers, ?_, ?_, hguards⟩
  · rw [← hlowered]
    simp only [Module.map, List.map_map, hfunctions, List.map_append]
    exact congrArg (m.dropUnreachable.functions.map lower ++ ·) hsame
  · rw [List.map_map]
    exact List.map_congr_left fun f _ => f.frame_flattenTensors

/-- A kernel that takes a matrix, a pointer and a number. -/
def Function.scaleKernel : Function where
  name := "scale"
  worker := .grid (some 4) (some 32)
  params := [⟨"x", .tensor (.ofShape .global .float32 [4, 32])⟩, ⟨"factor", .pointer (.ofDType .float32)⟩,
    ⟨"count", .ofDType .int64⟩]

/-- A machine whose memory is a table and whose functions leave it as it is. -/
def Machine.table : Machine Nat (List (Nat × Datum Nat)) where
  threadIdx := 0
  blockIdx := 0
  blockDim := 1
  element a indices := a + (indices.map Int64.toNatClampNeg).sum
  load memory a := memory.lookup a
  store _ _ _ := none
  invoke _ _ memory := some memory

/-- Right type codes from address 10 on and wrong ones from address 20 on, and the addresses of arguments from address 30
on, the last of them that of a number. -/
def PackedCall.scaleMemory : List (Nat × Datum Nat) :=
  [(10, .scalar (.int 3)), (11, .scalar (.int 3)), (12, .scalar (.int 5)),
    (20, .scalar (.int 3)), (21, .scalar (.int 3)), (22, .scalar (.int 1)),
    (30, .address 100), (31, .address 200), (32, .address 300), (300, .scalar (.int 7))]

open PackedCall in
/-- A call of the kernel with two arguments fails, and so does one with a wrong type code. The right one reaches the kernel
with two addresses and the number. -/
theorem Lowerer.guards_of_run_scale :
    ∃ lowered w, Lowerer.canonical.run ⟨[.scaleKernel]⟩ = .ok lowered ∧ w ∈ lowered.functions ∧ w.name = "scale_packed" ∧
      (∃ message, w.body.exec .table false (w.enter (calledWith 2 10 30) scaleMemory) =
        some { state := w.enter (calledWith 2 10 30) scaleMemory, halt := some (.failed message) }) ∧
      (∃ message, w.body.exec .table false (w.enter (calledWith 3 20 30) scaleMemory) =
        some { state := w.enter (calledWith 3 20 30) scaleMemory, halt := some (.failed message) }) ∧
      w.body.exec .table false (w.enter (calledWith 3 10 30) scaleMemory) =
        some { state := w.enter (calledWith 3 10 30) scaleMemory
               events := [.call "scale" [.address 100, .address 200, .scalar (.int 7)]] } := by
  obtain ⟨lowered, hrun⟩ : ∃ lowered, Lowerer.canonical.run ⟨[.scaleKernel]⟩ = .ok lowered := ⟨_, rfl⟩
  obtain ⟨survivors, wrappers, hfunctions, -, hall⟩ := guards_of_run hrun
  have hentries : (Module.mk [Function.scaleKernel]).dropUnreachable.functions.filter
      (Module.mk [Function.scaleKernel]).dropUnreachable.needsWrapper = [.scaleKernel] := rfl
  rw [hentries] at hall
  obtain ⟨w, _, ⟨hw, arguments, hguards⟩, -, rfl⟩ := List.forall₂_cons_left_iff.mp hall
  refine ⟨lowered, w, hrun, hfunctions ▸ by simp, congrArg Function.Frame.name hw.frame_eq, ?_, ?_, ?_⟩
  · exact hguards.rejects .table scaleMemory 10 30 (.inl (by decide))
  · refine hguards.rejects .table scaleMemory 20 30 (.inr ⟨[3, 3, 1], rfl, ?_, ?_⟩)
    · simp only [HoldsCodes, List.zipIdx_cons, List.zipIdx_nil, List.forall_mem_cons]
      exact ⟨rfl, rfl, rfl, nofun⟩
    · rintro (_ | ⟨-, _ | ⟨-, _ | ⟨hlast, -⟩⟩⟩)
      cases hlast
  · have hheld : HoldsCodes .table scaleMemory 10 [3, 3, 5] := by
      simp only [HoldsCodes, List.zipIdx_cons, List.zipIdx_nil, List.forall_mem_cons]
      exact ⟨rfl, rfl, rfl, nofun⟩
    have hcodes : List.Forall₂ (fun param code => param.ty.packedCode? = some code) Function.scaleKernel.params [3, 3, 5] :=
      .cons rfl (.cons rfl (.cons rfl .nil))
    refine ((hguards.forwards .table scaleMemory 30 hheld hcodes).2.2 rfl _).mpr ⟨_, _, ?_, rfl, rfl⟩
    have hnumber : Receives .table scaleMemory 30 2 (.scalar (.known .int64)) (.scalar (.int 7)) :=
      @Receives.scalar _ _ .table scaleMemory 30 2 .int64 300 (.int 7) rfl rfl
    exact .cons (.address nofun rfl) (.cons (.address nofun rfl) (.cons hnumber .nil))

end TensorCompiler
