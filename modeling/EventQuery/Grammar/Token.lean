import EventQuery.Query.Interval

/-!
# Tokens

Scanners for the tokens of the language and for the gaps between them. A
scanner takes the characters of its token off the front of a text.

A word ends where no further word character follows, so a keyword is
recognised by comparing the whole run of word characters with it.
-/

namespace EventQuery.Grammar

/-! ## Gaps -/

def isGapChar (c : Char) : Bool :=
  c = ' ' || c = '\t' || c = '\r' || c = '\n'

def isLineEnd (c : Char) : Bool :=
  c = '\n' || c = '\r'

/-- Is there a `*/` in the text? -/
def closesComment : List Char → Bool
  | '*' :: '/' :: _ => true
  | _ :: s => closesComment s
  | [] => false

/-- Where a scan over a gap stands. -/
inductive GapState where
  | blank
  | line
  | block

/-- What follows the blanks and comments at the front of a text. A block
comment that is never closed is no comment. -/
def skipGapFrom : GapState → List Char → List Char
  | .blank, '/' :: '/' :: s => skipGapFrom .line s
  | .blank, '/' :: '*' :: s =>
    if closesComment s then skipGapFrom .block s else '/' :: '*' :: s
  | .blank, c :: s => if isGapChar c then skipGapFrom .blank s else c :: s
  | .line, c :: s => if isLineEnd c then skipGapFrom .blank s else skipGapFrom .line s
  | .block, '*' :: '/' :: s => skipGapFrom .blank s
  | .block, _ :: s => skipGapFrom .block s
  | _, [] => []

def skipGap (s : List Char) : List Char := skipGapFrom .blank s

/-! ## Words -/

def isWordStart (c : Char) : Bool :=
  c.isAlpha || c = '_' || c = '@'

def isWordChar (c : Char) : Bool :=
  c.isAlphanum || c = '_' || c = '.' || c = '@'

/-- Does no word character follow? -/
def wordEnds : List Char → Bool
  | c :: _ => !isWordChar c
  | [] => true

/-- The run of word characters at the front of a text, in lower case. -/
def lowerWord (s : List Char) : String :=
  String.ofList ((s.takeWhile isWordChar).map Char.toLower)

/-- One of `words`, in any case. -/
def scanWord (words : List String) (s : List Char) : Option (String × List Char) :=
  if words.contains (lowerWord s) then
    some (String.ofList (s.takeWhile isWordChar), s.dropWhile isWordChar)
  else
    none

def reservedWords : List String :=
  ["and", "or", "not", "where", "sequence", "sample", "by", "with", "maxspan",
   "null", "true", "false", "any", "in", "like", "regex"]

/-- An identifier: a word that is not reserved. -/
def scanIdent : List Char → Option (String × List Char)
  | [] => none
  | c :: s =>
    if isWordStart c && !reservedWords.contains (lowerWord (c :: s)) then
      some (String.ofList ((c :: s).takeWhile isWordChar), (c :: s).dropWhile isWordChar)
    else
      none

/-! ## Operators and function names -/

/-- The first of some spellings that begins the text. -/
def scanSpelling (spellings : List String) (s : List Char) : Option (String × List Char) :=
  (spellings.find? fun w => w.toList.isPrefixOf s).map fun w => (w, s.drop w.length)

/-- A word with the `~` after it, if there is one. -/
def takeTilde (word : String) : List Char → String × List Char
  | '~' :: s => (word ++ "~", s)
  | s => (word, s)

/-- A colon, or a word operator with an optional `~`, which must not run
into a word. -/
def scanLookup : List Char → Option (String × List Char)
  | ':' :: s => some (":", s)
  | s =>
    match scanWord ["like", "regex", "in"] s with
    | none => none
    | some (word, s) =>
      let (token, s) := takeTilde word s
      if wordEnds s then some (token, s) else none

def functionWords : List String :=
  ["add", "between", "cidrmatch", "concat", "divide", "endswith", "indexof", "length", "modulo",
   "multiply", "number", "startswith", "stringcontains", "string", "substring", "subtract"]

/-- A function name with an optional `~`. -/
def scanFunction (s : List Char) : Option (String × List Char) :=
  (scanWord functionWords s).map fun (word, s) => takeTilde word s

/-! ## Numbers and intervals -/

def scanMinus : List Char → List Char × List Char
  | '-' :: s => (['-'], s)
  | s => ([], s)

/-- A point and digits, if both are there. -/
def scanFraction : List Char → List Char × List Char
  | '.' :: s =>
    match Digits.scan s with
    | some (digits, rest) => ('.' :: digits, rest)
    | none => ([], '.' :: s)
  | s => ([], s)

def scanExponentSign : List Char → List Char × List Char
  | '+' :: s => (['+'], s)
  | '-' :: s => (['-'], s)
  | s => ([], s)

/-- An exponent mark, an optional sign and digits, if the whole is there. -/
def scanExponent : List Char → List Char × List Char
  | c :: s =>
    if c = 'e' || c = 'E' then
      match Digits.scan (scanExponentSign s).2 with
      | some (digits, rest) => (c :: (scanExponentSign s).1 ++ digits, rest)
      | none => ([], c :: s)
    else
      ([], c :: s)
  | [] => ([], [])

/-- A number token; it must not run into a word. -/
def scanNumber (s : List Char) : Option (List Char × List Char) :=
  let (minus, s) := scanMinus s
  match Digits.scan s with
  | none => none
  | some (digits, s) =>
    let (fraction, s) := scanFraction s
    let (exponent, s) := scanExponent s
    if wordEnds s then some (minus ++ digits ++ fraction ++ exponent, s) else none

/-- A unit suffix; it must not run into a word. -/
def scanUnit (s : List Char) : Option (List Char × List Char) :=
  match IntervalUnit.all.find? fun u => u.suffix.toList.isPrefixOf s with
  | none => none
  | some u =>
    if wordEnds (s.drop u.suffix.length) then
      some (u.suffix.toList, s.drop u.suffix.length)
    else
      none

/-- Digits directly followed by a unit. -/
def scanInterval (s : List Char) : Option (List Char × List Char) :=
  match Digits.scan s with
  | none => none
  | some (digits, s) =>
    match scanUnit s with
    | none => none
    | some (unit, s) => some (digits ++ unit, s)

/-! ## Strings -/

/-- The text up to and with the next three quotes. -/
def scanTripleBody : List Char → Option (List Char × List Char)
  | '"' :: '"' :: '"' :: s => some (['"', '"', '"'], s)
  | c :: s => (scanTripleBody s).map fun (body, rest) => (c :: body, rest)
  | [] => none

/-- The text up to and with the next quote that no backslash precedes. -/
def scanQuotedBody : List Char → Option (List Char × List Char)
  | '"' :: s => some (['"'], s)
  | '\\' :: c :: s => (scanQuotedBody s).map fun (body, rest) => ('\\' :: c :: body, rest)
  | ['\\'] => none
  | c :: s => (scanQuotedBody s).map fun (body, rest) => (c :: body, rest)
  | [] => none

def scanTriple : List Char → Option (List Char × List Char)
  | '"' :: '"' :: '"' :: s =>
    (scanTripleBody s).map fun (body, rest) => ('"' :: '"' :: '"' :: body, rest)
  | _ => none

def scanQuoted : List Char → Option (List Char × List Char)
  | '"' :: s => (scanQuotedBody s).map fun (body, rest) => ('"' :: body, rest)
  | _ => none

/-- A string token with its quotes. Three quotes that are never closed
are an empty string and a further quote. -/
def scanString (s : List Char) : Option (String × List Char) :=
  match scanTriple s with
  | some (token, rest) => some (String.ofList token, rest)
  | none => (scanQuoted s).map fun (token, rest) => (String.ofList token, rest)

end EventQuery.Grammar
