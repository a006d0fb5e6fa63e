import EventQuery.Text.Hidden

/-!
# Quoted text

A text in double quotes on one line: quotes, backslashes and the common
control characters by their escapes, characters without a visible form by
their number.
-/

namespace EventQuery.Text

def hexDigits (n : Nat) : List Char := Nat.toDigits 16 n

/-- The form of one character inside the quotes. -/
def quotedChar (c : Char) : List Char :=
  if c = '"' then ['\\', '"']
  else if c = '\\' then ['\\', '\\']
  else if c = '\n' then ['\\', 'n']
  else if c = '\t' then ['\\', 't']
  else if c = '\r' then ['\\', 'r']
  else if c = '\x00' then ['\\', '0']
  else if isHidden c then ['\\', 'u', '\x7b'] ++ hexDigits c.toNat ++ ['\x7d']
  else [c]

def quoted (s : String) : String :=
  String.ofList ('"' :: s.toList.flatMap quotedChar ++ ['"'])

end EventQuery.Text
