import TensorCompiler.Expr.Printer
import TensorCompiler.Stmt.Basic

/-! # The text of statements

One line for each statement, indented by four spaces for each enclosing loop or branch. A `let` does not
indent its body.
-/

namespace TensorCompiler.Stmt

/-- The characters of a template with each pair of braces replaced by the next argument. A pair for which no
argument is left stays as it is. -/
def fillBraces : List Char → List String → List Char
  | '\x7b' :: '\x7d' :: rest, [] => '\x7b' :: '\x7d' :: fillBraces rest []
  | '\x7b' :: '\x7d' :: rest, arg :: args => arg.toList ++ fillBraces rest args
  | c :: rest, args => c :: fillBraces rest args
  | [], _ => []

/-- The operands of inline assembly. -/
def operandsText (operands : List (String × Expr)) : String :=
  Text.listed (operands.map fun operand => operand.1 ++ "(" ++ operand.2.render ++ ")")

/-- The hint behind the range of a loop. -/
def unrollText : Option Bool → String
  | some true => "[unroll]"
  | some false => "[no-unroll]"
  | none => ""

/-- A line of text at a depth. -/
def line (indent : Nat) (text : String) : String :=
  String.ofList (List.replicate indent ' ') ++ text ++ "\n"

mutual

/-- The lines of a statement at a depth. -/
def renderAt (indent : Nat) : Stmt → String
  | eval e => line indent e.render
  | assign v value => line indent (v.name ++ " = " ++ value.render)
  | store buf indices value =>
    line indent (buf.render ++ Text.bracketed (indices.map Expr.render) ++ " = " ++ value.render)
  | letIn v value body =>
    line indent ("let " ++ v.name ++ ": " ++ v.ty.render ++ " = " ++ value.render) ++ renderAt indent body
  | forRange v extent unroll body =>
    line indent ("for " ++ v.name ++ " in range(" ++ extent.render ++ ")" ++ unrollText unroll) ++
      renderAt (indent + 4) body
  | ite cond thenS none => line indent ("if " ++ cond.render) ++ renderAt (indent + 4) thenS
  | ite cond thenS (some elseS) =>
    line indent ("if " ++ cond.render) ++ renderAt (indent + 4) thenS ++ line indent "else" ++
      renderAt (indent + 4) elseS
  | assert cond message =>
    line indent ("assert(" ++ cond.render ++ ", " ++ Text.quote message ++ ")")
  | asm template outputs inputs volatile =>
    line indent <| "asm " ++ (if volatile then "volatile " else "") ++ "(" ++ template ++ " : " ++
      operandsText outputs ++ " : " ++ operandsText inputs ++ ");"
  | raw template args =>
    String.join <| (Text.lines (fillBraces template.toList (args.map Expr.render))).map fun text =>
      line indent (String.ofList text)
  | ret none => line indent "return"
  | ret (some e) => line indent ("return " ++ e.render)
  | seq stmts => renderAllAt indent stmts

/-- The lines of several statements at a depth. -/
def renderAllAt (indent : Nat) : List Stmt → String
  | [] => ""
  | s :: ss => renderAt indent s ++ renderAllAt indent ss

end

/-- The text of a statement. -/
def render (s : Stmt) : String :=
  s.renderAt 0

end TensorCompiler.Stmt
