import TensorCompiler.Text.Invisible

/-! # Quoted text and lists of texts

`quote` writes a text between double quotes so that one line of output holds it whatever it contains.
`listed` and `bracketed` are the two ways in which the dumps write a list.
-/

namespace TensorCompiler.Text

/-- The written form of one character between quotes: a quote and a backslash behind a backslash, the
four common control characters by their letter, other characters without a visible form by number. -/
def quotedChar (c : Char) : List Char :=
  if c == '"' || c == '\\' then ['\\', c]
  else if c == '\n' then ['\\', 'n']
  else if c == '\r' then ['\\', 'r']
  else if c == '\t' then ['\\', 't']
  else if c.toNat == 0 then ['\\', '0']
  else if isInvisible c then
    '\\' :: 'u' :: '\x7b' :: Nat.toDigits 16 c.toNat ++ ['\x7d']
  else [c]

/-- A text between double quotes. -/
def quote (text : String) : String :=
  String.ofList ('"' :: text.toList.flatMap quotedChar ++ ['"'])

/-- The items, separated by a comma and a space. -/
def listed (items : List String) : String :=
  ", ".intercalate items

/-- The listed items between square brackets. -/
def bracketed (items : List String) : String :=
  "[" ++ listed items ++ "]"

/-- The lines of a text. A line ends with a line feed, which may follow a carriage return; text after the
last line feed is a line of its own unless it is empty. -/
def lines (text : List Char) : List (List Char) :=
  go text []
where
  /-- `current` is the reversed beginning of the line that is being read. -/
  go : List Char → List Char → List (List Char)
    | [], [] => []
    | [], current => [current.reverse]
    | '\n' :: rest, current =>
      let line := match current with
        | '\r' :: shorter => shorter
        | _ => current
      line.reverse :: go rest []
    | c :: rest, current => go rest (c :: current)

end TensorCompiler.Text
