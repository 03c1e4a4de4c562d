import RunTable.Json.Basic
import RunTable.Double.Text

/-!
# Compact JSON text

Values are written without blanks and members in their order. In a text only the quote, the
backslash and the characters below the blank are escaped; everything else stands for itself. The
compact text of a value also serves as its identity where rows are grouped.
-/

namespace RunTable

def Number.text : Number → String
  | .int n => toString n
  | .double x => x.text

namespace Json

def hexDigit (n : Nat) : Char := if n < 10 then Char.ofNat (48 + n) else Char.ofNat (87 + n)

/-- A character as it stands between quotes. -/
def escape (c : Char) : List Char :=
  match c with
  | '"' => ['\\', '"']
  | '\\' => ['\\', '\\']
  | '\n' => ['\\', 'n']
  | '\r' => ['\\', 'r']
  | '\t' => ['\\', 't']
  | '\x08' => ['\\', 'b']
  | '\x0c' => ['\\', 'f']
  | c =>
    if c.toNat < 0x20 then ['\\', 'u', '0', '0', hexDigit (c.toNat / 16), hexDigit (c.toNat % 16)]
    else [c]

def quote (text : String) : String := "\"" ++ String.ofList (text.toList.flatMap escape) ++ "\""

mutual

/-- The compact text of a value. -/
def text : Json → String
  | null => "null"
  | bool true => "true"
  | bool false => "false"
  | num n => n.text
  | str s => quote s
  | arr [] => "[]"
  | arr (item :: items) => "[" ++ text item ++ itemsText items
  | obj [] => "\x7b\x7d"
  | obj ((name, value) :: members) =>
    "\x7b" ++ quote name ++ ":" ++ text value ++ membersText members
termination_by structural value => value

/-- The rest of an array behind its first item. -/
def itemsText : List Json → String
  | [] => "]"
  | item :: items => "," ++ text item ++ itemsText items
termination_by structural items => items

/-- The rest of an object behind its first member. -/
def membersText : List (String × Json) → String
  | [] => "\x7d"
  | (name, value) :: members => "," ++ quote name ++ ":" ++ text value ++ membersText members
termination_by structural members => members

end

end Json

end RunTable
