import Mathlib.Data.List.Basic
import TensorCompiler.Stmt.Builder

/-! # Where a builder puts statements

A builder is filled by calls in any order: scopes may be left open, and may be left more often than they were entered.
What it builds is a forest of nests that holds each statement that was added and each scope that was entered once, in the
order of the calls, inside of the scopes that were open at that time. The calls fix the forest.

The builder keeps statements only. A draft keeps the nests that they are the statements of, and does with them what the
builder does, so the places of all entries can be read off the draft after every call.
-/

namespace TensorCompiler

/-- A statement that was added or a scope that was entered, with the scopes around it, the outermost first. -/
structure Entry where
  around : List Scope
  item : Stmt ⊕ Scope

/-! ## Nests -/

/-- A statement as it was added, or a scope around nests. -/
inductive Nest where
  | stmt (s : Stmt)
  | scope (head : Scope) (body : List Nest)

namespace Nest

mutual

/-- The statement that a nest stands for. -/
def toStmt : Nest → Stmt
  | stmt s => s
  | scope head body => head.wrap (.block (toStmts body))

/-- The statements that several nests stand for. -/
def toStmts : List Nest → List Stmt
  | [] => []
  | n :: ns => toStmt n :: toStmts ns

end

mutual

/-- The statements and scopes of a nest inside of the given scopes, each scope before what it holds. -/
def entries (around : List Scope) : Nest → List Entry
  | stmt s => [⟨around, .inl s⟩]
  | scope head body => ⟨around, .inr head⟩ :: entriesAll (around ++ [head]) body

/-- The statements and scopes of several nests, one nest after the other. -/
def entriesAll (around : List Scope) : List Nest → List Entry
  | [] => []
  | n :: ns => entries around n ++ entriesAll around ns

end

variable {around : List Scope} {n : Nest} {ns ns' : List Nest}

theorem toStmts_append (ns ns' : List Nest) : toStmts (ns ++ ns') = toStmts ns ++ toStmts ns' := by
  induction ns with
  | nil => rfl
  | cons n ns ih => rw [List.cons_append, toStmts, ih, toStmts, List.cons_append]

theorem entriesAll_append (around : List Scope) (ns ns' : List Nest) :
    entriesAll around (ns ++ ns') = entriesAll around ns ++ entriesAll around ns' := by
  induction ns with
  | nil => rfl
  | cons n ns ih => rw [List.cons_append, entriesAll, ih, entriesAll, List.append_assoc]

theorem entriesAll_singleton (around : List Scope) (n : Nest) : entriesAll around [n] = entries around n := by
  rw [entriesAll, entriesAll, List.append_nil]

/-! ### The forest behind a list of entries -/

/-- Whether a list of entries is over or goes on with one inside of fewer scopes. -/
def Leaves (depth : Nat) (rest : List Entry) : Prop :=
  ∀ e ∈ rest.head?, e.around.length < depth

theorem head?_entries (around : List Scope) (n : Nest) : ∃ item, (entries around n).head? = some ⟨around, item⟩ := by
  cases n <;> exact ⟨_, rfl⟩

/-- What follows the body of a scope is inside of fewer scopes. -/
theorem Leaves.entriesAll_append {rest : List Entry} (h : Leaves around.length rest) (head : Scope) (ns : List Nest) :
    Leaves (around ++ [head]).length (entriesAll around ns ++ rest) := by
  rw [List.length_append]
  intro e he
  cases ns with
  | nil => exact Nat.lt_succ_of_lt (h e he)
  | cons n ns =>
    obtain ⟨item, hitem⟩ := head?_entries around n
    rw [entriesAll, List.append_assoc, List.head?_append, hitem] at he
    cases he
    exact Nat.lt_succ_self _

/-- A nest cannot be taken for the end of the forest. -/
theorem Leaves.ne_entriesAll_cons {rest : List Entry} (h : Leaves around.length rest) (n : Nest) (ns : List Nest)
    (rest' : List Entry) : rest ≠ entriesAll around (n :: ns) ++ rest' := by
  rintro rfl
  obtain ⟨item, hitem⟩ := head?_entries around n
  refine absurd (h ⟨around, item⟩ ?_) (Nat.lt_irrefl _)
  rw [entriesAll, List.append_assoc, List.head?_append, hitem]
  rfl

/-- Entries tell where each nest ends: the first entry behind the body of a scope is inside of fewer scopes. -/
theorem eq_of_entriesAll_append_eq {around : List Scope} {ns ns' : List Nest} {rest rest' : List Entry}
    (hrest : Leaves around.length rest) (hrest' : Leaves around.length rest')
    (h : entriesAll around ns ++ rest = entriesAll around ns' ++ rest') : ns = ns' ∧ rest = rest' := by
  match ns, ns' with
  | [], [] => exact ⟨rfl, h⟩
  | [], n' :: ns' => exact absurd h (hrest.ne_entriesAll_cons n' ns' rest')
  | n :: ns, [] => exact absurd h.symm (hrest'.ne_entriesAll_cons n ns rest)
  | stmt s :: ns, stmt s' :: ns' =>
    obtain ⟨hhead, htail⟩ := List.cons.inj h
    obtain ⟨rfl, rfl⟩ := eq_of_entriesAll_append_eq hrest hrest' htail
    cases hhead
    exact ⟨rfl, rfl⟩
  | stmt s :: ns, scope head' body' :: ns' => cases (List.cons.inj h).1
  | scope head body :: ns, stmt s' :: ns' => cases (List.cons.inj h).1
  | scope head body :: ns, scope head' body' :: ns' =>
    simp only [entriesAll, entries, List.cons_append, List.append_assoc] at h
    obtain ⟨hhead, htail⟩ := List.cons.inj h
    cases hhead
    -- for the body, the nests behind the scope are a rest like any other
    obtain ⟨rfl, hns⟩ := eq_of_entriesAll_append_eq (hrest.entriesAll_append head ns)
      (hrest'.entriesAll_append head ns') htail
    obtain ⟨rfl, rfl⟩ := eq_of_entriesAll_append_eq hrest hrest' hns
    exact ⟨rfl, rfl⟩
termination_by sizeOf ns

/-- Forests with the same entries are the same. -/
theorem entriesAll_injective (around : List Scope) : Function.Injective (entriesAll around) := by
  intro ns ns' h
  have hnone : Leaves around.length [] := nofun
  exact (eq_of_entriesAll_append_eq hnone hnone (congrArg (· ++ []) h)).1

end Nest

/-! ## Calls -/

namespace StmtBuilder

/-- A call to a builder. -/
inductive Call where
  | append (s : Stmt)
  | enter (scope : Scope)
  | leave

/-- What a call does to a builder. -/
def call (b : StmtBuilder) : Call → StmtBuilder
  | .append s => b.append s
  | .enter scope => b.enter scope
  | .leave => b.leave

/-- Makes calls one after the other. -/
def callAll (b : StmtBuilder) (calls : List Call) : StmtBuilder :=
  calls.foldl call b

/-- What calls add and enter, with the scopes that are open at that time. Outside of all scopes there is none to leave. -/
def history (around : List Scope) : List Call → List Entry
  | [] => []
  | .append s :: calls => ⟨around, .inl s⟩ :: history around calls
  | .enter scope :: calls => ⟨around, .inr scope⟩ :: history (around ++ [scope]) calls
  | .leave :: calls => history around.dropLast calls

end StmtBuilder

/-! ## Drafts -/

/-- Open scopes, innermost first, and the nests outside of all of them. -/
structure Draft where
  scopes : List (Scope × List Nest) := []
  root : List Nest := []

namespace Draft

/-- The builder with the statements of the nests. -/
def builder (d : Draft) : StmtBuilder where
  scopes := d.scopes.map fun entry => (entry.1, Nest.toStmts entry.2)
  root := Nest.toStmts d.root

/-- Adds a nest to the innermost scope. -/
def add (d : Draft) (n : Nest) : Draft :=
  match d.scopes with
  | [] => { d with root := d.root ++ [n] }
  | (scope, body) :: outer => { d with scopes := (scope, body ++ [n]) :: outer }

/-- Opens a scope. -/
def enter (d : Draft) (scope : Scope) : Draft :=
  { d with scopes := (scope, []) :: d.scopes }

/-- Closes the innermost scope. -/
def leave (d : Draft) : Draft :=
  match d.scopes with
  | [] => d
  | (scope, body) :: outer => { d with scopes := outer }.add (.scope scope body)

/-- The open scopes, the outermost first. -/
def around (d : Draft) : List Scope :=
  (d.scopes.map Prod.fst).reverse

/-- What the open scopes hold, from the outside in, behind what stands outside of them. -/
def entriesIn (root : List Nest) : List (Scope × List Nest) → List Entry
  | [] => Nest.entriesAll [] root
  | (scope, body) :: outer =>
    let around := (outer.map Prod.fst).reverse
    entriesIn root outer ++ ⟨around, .inr scope⟩ :: Nest.entriesAll (around ++ [scope]) body

/-- The statements and scopes of a draft. -/
def entries (d : Draft) : List Entry :=
  entriesIn d.root d.scopes

variable (d : Draft)

/-! ### One call -/

theorem builder_add (n : Nest) : (d.add n).builder = d.builder.append n.toStmt := by
  obtain ⟨scopes, root⟩ := d
  cases scopes <;> simp [add, builder, StmtBuilder.append, Nest.toStmts_append, Nest.toStmts]

theorem builder_enter (scope : Scope) : (d.enter scope).builder = d.builder.enter scope :=
  rfl

theorem builder_leave : d.leave.builder = d.builder.leave := by
  obtain ⟨scopes, root⟩ := d
  cases scopes with
  | nil => rfl
  | cons entry outer => exact builder_add ⟨outer, root⟩ (.scope entry.1 entry.2)

theorem around_add (n : Nest) : (d.add n).around = d.around := by
  obtain ⟨scopes, root⟩ := d
  cases scopes <;> rfl

theorem around_enter (scope : Scope) : (d.enter scope).around = d.around ++ [scope] := by
  simp [enter, around]

theorem around_leave : d.leave.around = d.around.dropLast := by
  obtain ⟨scopes, root⟩ := d
  cases scopes with
  | nil => rfl
  | cons entry outer =>
    refine (around_add ⟨outer, root⟩ (.scope entry.1 entry.2)).trans ?_
    simp [around]

/-- What is added comes last, inside of the scopes that are open. -/
theorem entries_add (n : Nest) : (d.add n).entries = d.entries ++ n.entries d.around := by
  obtain ⟨scopes, root⟩ := d
  cases scopes with
  | nil => exact (Nest.entriesAll_append [] root [n]).trans (congrArg _ (Nest.entriesAll_singleton [] n))
  | cons entry outer =>
    simp [add, entries, entriesIn, around, Nest.entriesAll_append, Nest.entriesAll_singleton]

theorem entries_enter (scope : Scope) : (d.enter scope).entries = d.entries ++ [⟨d.around, .inr scope⟩] :=
  rfl

/-- A scope is left where it was entered. -/
theorem entries_leave : d.leave.entries = d.entries := by
  obtain ⟨scopes, root⟩ := d
  cases scopes with
  | nil => rfl
  | cons entry outer => exact entries_add ⟨outer, root⟩ (.scope entry.1 entry.2)

/-! ### Many calls -/

open StmtBuilder in
/-- After any calls the builder has the statements of a draft that holds what the calls added and entered. -/
theorem exists_callAll (calls : List Call) :
    ∃ d' : Draft, d.builder.callAll calls = d'.builder ∧ d'.entries = d.entries ++ history d.around calls := by
  induction calls generalizing d with
  | nil => exact ⟨d, rfl, (List.append_nil _).symm⟩
  | cons call calls ih =>
    cases call with
    | append s =>
      obtain ⟨d', hbuilder, hentries⟩ := ih (d.add (.stmt s))
      refine ⟨d', ?_, ?_⟩
      · rw [← hbuilder, builder_add]
        rfl
      · rw [hentries, entries_add, around_add, List.append_assoc]
        rfl
    | enter scope =>
      obtain ⟨d', hbuilder, hentries⟩ := ih (d.enter scope)
      refine ⟨d', ?_, ?_⟩
      · rw [← hbuilder, builder_enter]
        rfl
      · rw [hentries, entries_enter, around_enter, List.append_assoc]
        rfl
    | leave =>
      obtain ⟨d', hbuilder, hentries⟩ := ih d.leave
      refine ⟨d', ?_, ?_⟩
      · rw [← hbuilder, builder_leave]
        rfl
      · rw [hentries, entries_leave, around_leave]
        rfl

/-- With every scope closed the draft is a forest with the same entries. -/
theorem exists_leaveTimes (n : Nat) (h : d.scopes.length = n) :
    ∃ nests : List Nest, (StmtBuilder.leaveTimes n d.builder).root = Nest.toStmts nests ∧
      Nest.entriesAll [] nests = d.entries := by
  induction n generalizing d with
  | zero =>
    obtain ⟨scopes, root⟩ := d
    obtain rfl := List.length_eq_zero_iff.mp h
    exact ⟨root, rfl, rfl⟩
  | succ n ih =>
    have hlength : d.leave.scopes.length = n := by
      have hdrop := congrArg List.length d.around_leave
      simpa [around, h] using hdrop
    obtain ⟨nests, hroot, hentries⟩ := ih d.leave hlength
    refine ⟨nests, ?_, hentries.trans d.entries_leave⟩
    rw [StmtBuilder.leaveTimes, ← builder_leave, hroot]

end Draft

namespace StmtBuilder

/-- What any calls build is the statement of one forest, the one that holds each statement that was added and each scope
that was entered exactly once, in the order of the calls, inside of exactly the scopes that were open. -/
theorem existsUnique_nests (calls : List Call) :
    ∃! nests : List Nest, (callAll {} calls).finish = .block (Nest.toStmts nests) ∧
      Nest.entriesAll [] nests = history [] calls := by
  obtain ⟨d, hbuilder, hentries⟩ := Draft.exists_callAll {} calls
  obtain ⟨nests, hroot, hnests⟩ := d.exists_leaveTimes _ rfl
  refine ⟨nests, ⟨?_, hnests.trans hentries⟩, fun other hother => ?_⟩
  · have hbuilt : callAll {} calls = d.builder := hbuilder
    have hlength : d.builder.scopes.length = d.scopes.length := List.length_map _
    rw [finish, hbuilt, hlength, hroot]
  · exact Nest.entriesAll_injective [] (hother.2.trans (hnests.trans hentries).symm)

example (i : Var) (extent cond : Expr) (s t : Stmt) :
    (callAll {} [.leave, .enter (.forRange i extent none), .enter (.ifThen cond), .append s, .leave, .append t,
      .enter (.ifThen cond)]).finish =
      .forRange i extent none (.seq [.ite cond s none, t, .ite cond (.seq []) none]) := rfl

end StmtBuilder

end TensorCompiler
