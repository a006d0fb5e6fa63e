/-!
# White space

The characters with the Unicode property White_Space, and trimming.
-/

namespace EventQuery.Text

/-- Has the character the property White_Space? -/
def isBlank (c : Char) : Bool :=
  let n := c.toNat
  (9 ≤ n && n ≤ 13) || n == 0x20 || n == 0x85 || n == 0xA0 || n == 0x1680
    || (0x2000 ≤ n && n ≤ 0x200A) || n == 0x2028 || n == 0x2029 || n == 0x202F
    || n == 0x205F || n == 0x3000

def allBlank (s : String) : Bool := s.toList.all isBlank

def trimStart (s : List Char) : List Char := s.dropWhile isBlank

def trimChars (s : List Char) : List Char :=
  (trimStart (trimStart s).reverse).reverse

/-- The text without white space at its ends. -/
def trim (s : String) : String := String.ofList (trimChars s.toList)

end EventQuery.Text
