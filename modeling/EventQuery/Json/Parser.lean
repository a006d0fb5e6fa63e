import EventQuery.Decimal.Digits
import EventQuery.Json.Basic

/-!
# Reading JSON

A JSON text as a value. Numbers keep their source text; members keep
their order, and a name may occur more than once.

The texts are configuration files, which are held to the rules of
documents with lines:

* control characters other than tabs and line ends do not occur;
* a byte order mark at the start is skipped;
* a tab stands neither before the value nor on a line after it;
* a name and its colon stand on one line, at most 1024 characters apart;
* a line break inside a string, of the few that JSON lets stand there, is
  folded with the blanks around it;
* no line of a string starts with a mark between documents: three dashes
  or three points, and then a blank.
-/

namespace EventQuery.Json

/-! ## Characters -/

/-- May the character occur in a text? -/
def isTextChar (c : Char) : Bool :=
  let n := c.toNat
  n == 0x09 || n == 0x0A || n == 0x0D || (0x20 ≤ n && n ≤ 0x7E) || n == 0x85
    || (0xA0 ≤ n && n ≤ 0xFFFD) || 0x10000 ≤ n

def isSpace (c : Char) : Bool :=
  c = ' ' || c = '\t' || c = '\n' || c = '\r'

def skipSpace (s : List Char) : List Char := s.dropWhile isSpace

def nextLine : Char := '\u0085'

/-- The characters that end a line. -/
def isBreak (c : Char) : Bool :=
  c = '\n' || c = '\r' || c = nextLine || c = '\u2028' || c = '\u2029'

/-! ## Strings -/

def hexValue? (c : Char) : Option Nat :=
  if c.isDigit then some (c.toNat - '0'.toNat)
  else if 'a' ≤ c ∧ c ≤ 'f' then some (c.toNat - 'a'.toNat + 10)
  else if 'A' ≤ c ∧ c ≤ 'F' then some (c.toNat - 'A'.toNat + 10)
  else none

/-- Four hexadecimal digits. -/
def readHex4 : List Char → Option (Nat × List Char)
  | a :: b :: c :: d :: rest => do
    let a ← hexValue? a
    let b ← hexValue? b
    let c ← hexValue? c
    let d ← hexValue? d
    return (((a * 16 + b) * 16 + c) * 16 + d, rest)
  | _ => none

/-- The character after `\u`. A surrogate is no character, so a character
beyond the first plane can only stand for itself. -/
def readUnicodeEscape (s : List Char) : Option (Char × List Char) := do
  let (n, rest) ← readHex4 s
  if 0xD800 ≤ n ∧ n < 0xE000 then none else some (Char.ofNat n, rest)

/-- The character after a backslash. -/
def readEscape : List Char → Option (Char × List Char)
  | 'u' :: rest => readUnicodeEscape rest
  | '"' :: rest => some ('"', rest)
  | '\\' :: rest => some ('\\', rest)
  | '/' :: rest => some ('/', rest)
  | 'b' :: rest => some ('\x08', rest)
  | 'f' :: rest => some ('\x0c', rest)
  | 'n' :: rest => some ('\n', rest)
  | 'r' :: rest => some ('\r', rest)
  | 't' :: rest => some ('\t', rest)
  | _ => none

def isFoldable (c : Char) : Bool := c = ' ' || isBreak c

/-- What a run of blanks and line breaks in a string stands for. Without a
break it stands for itself. Else its blanks are lost; a next-line character
is a line feed, and the first break of the run, if it is one, turns into a
blank when it is alone and is lost when others follow. -/
def foldRun (run : List Char) : List Char :=
  match run.filter isBreak with
  | [] => run
  | first :: others =>
    let others := others.map fun c => if c = nextLine then '\n' else c
    if first ≠ nextLine then first :: others
    else if others.isEmpty then [' ']
    else others

/-- Is a mark between documents at the front of the text? -/
def startsMark : List Char → Bool
  | '-' :: '-' :: '-' :: c :: _ => isFoldable c
  | '.' :: '.' :: '.' :: c :: _ => isFoldable c
  | _ => false

/-- May the text go on after a run of blanks and line breaks in a string?
A mark counts only where a line starts, right after a break. -/
def mayFollow (run rest : List Char) : Bool :=
  !(run.getLast?.any isBreak && startsMark rest)

/-- The rest of a string, after its opening quote. -/
def readStringBody : Nat → List Char → Option (List Char × List Char)
  | 0, _ => none
  | fuel + 1, s =>
    match s with
    | [] => none
    | '"' :: rest => some ([], rest)
    | '\\' :: rest => do
      let (c, rest) ← readEscape rest
      let (cs, rest) ← readStringBody fuel rest
      return (c :: cs, rest)
    | c :: rest =>
      if c.toNat < 0x20 then none
      else if isFoldable c then do
        let run := c :: rest.takeWhile isFoldable
        guard (mayFollow run (rest.dropWhile isFoldable))
        let (cs, rest) ← readStringBody fuel (rest.dropWhile isFoldable)
        return (foldRun run ++ cs, rest)
      else do
        let (cs, rest) ← readStringBody fuel rest
        return (c :: cs, rest)

def readString : List Char → Option (String × List Char)
  | '"' :: rest =>
    (readStringBody (rest.length + 1) rest).map fun (cs, rest) => (String.ofList cs, rest)
  | _ => none

/-! ## Numbers -/

/-- Digits without a leading zero. -/
def readWhole : List Char → Option (List Char × List Char)
  | '0' :: rest => some (['0'], rest)
  | s => Digits.scan s

def readFraction : List Char → Option (List Char × List Char)
  | '.' :: rest => (Digits.scan rest).map fun (digits, rest) => ('.' :: digits, rest)
  | s => some ([], s)

def readExponent : List Char → Option (List Char × List Char)
  | c :: rest =>
    if c = 'e' ∨ c = 'E' then
      match rest with
      | '+' :: rest => (Digits.scan rest).map fun (digits, rest) => (c :: '+' :: digits, rest)
      | '-' :: rest => (Digits.scan rest).map fun (digits, rest) => (c :: '-' :: digits, rest)
      | rest => (Digits.scan rest).map fun (digits, rest) => (c :: digits, rest)
    else
      some ([], c :: rest)
  | [] => some ([], [])

def readNumber (s : List Char) : Option (String × List Char) := do
  let (sign, s) := match s with
    | '-' :: rest => (['-'], rest)
    | s => ([], s)
  let (whole, s) ← readWhole s
  let (fraction, s) ← readFraction s
  let (exponent, s) ← readExponent s
  return (String.ofList (sign ++ whole ++ fraction ++ exponent), s)

/-! ## Values -/

/-- A fixed word at the front of a text. -/
def readWord (word : String) (value : Json) (s : List Char) : Option (Json × List Char) :=
  if word.toList.isPrefixOf s then some (value, s.drop word.length) else none

/-- Does a name that starts at `start` reach its colon, at `colon`, on its
line and in time? -/
def nameFits (start colon : List Char) : Bool :=
  let length := start.length - colon.length
  length ≤ 1024 && !(start.take length).any isBreak

mutual

/-- A value at the front of a text, after white space. -/
def readValue : Nat → List Char → Option (Json × List Char)
  | 0, _ => none
  | fuel + 1, s =>
    match skipSpace s with
    | '"' :: rest => (readString ('"' :: rest)).map fun (t, rest) => (.string t, rest)
    | '[' :: rest =>
      match skipSpace rest with
      | ']' :: rest => some (.array [], rest)
      | rest => (readItems fuel rest).map fun (items, rest) => (.array items, rest)
    | '\x7b' :: rest =>
      match skipSpace rest with
      | '\x7d' :: rest => some (.object [], rest)
      | rest => (readMembers fuel rest).map fun (members, rest) => (.object members, rest)
    | 't' :: rest => readWord "true" (.bool true) ('t' :: rest)
    | 'f' :: rest => readWord "false" (.bool false) ('f' :: rest)
    | 'n' :: rest => readWord "null" .null ('n' :: rest)
    | s => (readNumber s).map fun (text, rest) => (.number text, rest)

/-- The items of a list up to its closing bracket. -/
def readItems : Nat → List Char → Option (List Json × List Char)
  | 0, _ => none
  | fuel + 1, s => do
    let (item, rest) ← readValue fuel s
    match skipSpace rest with
    | ']' :: rest => some ([item], rest)
    | ',' :: rest => do
      let (items, rest) ← readItems fuel rest
      return (item :: items, rest)
    | _ => none

/-- The members of an object up to its closing brace. -/
def readMembers : Nat → List Char → Option (List (String × Json) × List Char)
  | 0, _ => none
  | fuel + 1, s => do
    let (key, rest) ← readString (skipSpace s)
    guard (nameFits (skipSpace s) (skipSpace rest))
    match skipSpace rest with
    | ':' :: rest => do
      let (value, rest) ← readValue fuel rest
      match skipSpace rest with
      | '\x7d' :: rest => some ([(key, value)], rest)
      | ',' :: rest => do
        let (members, rest) ← readMembers fuel rest
        return ((key, value) :: members, rest)
      | _ => none
    | _ => none

end

/-! ## Whole texts -/

/-- What follows the blank start of a text. -/
def skipStart : List Char → List Char
  | c :: s =>
    if c = '\uFEFF' then s.dropWhile fun d => isSpace d && d != '\t'
    else (c :: s).dropWhile fun d => isSpace d && d != '\t'
  | [] => []

/-- Does nothing but blanks follow? Tabs count as such on the first line. -/
def isBlankEnd (s : List Char) : Bool :=
  (s.dropWhile fun c => c = ' ' || c = '\t').all fun c => isSpace c && c != '\t'

/-- The value of a whole text. No two steps of the reader stand at one
place for more than a value and its list, so twice the length of the text
bounds the number of steps. -/
def ofText? (text : String) : Option Json :=
  let s := skipStart text.toList
  if s.head?.any (· = '\t') || !text.toList.all isTextChar then none
  else
    match readValue (2 * s.length + 2) s with
    | some (value, rest) => if isBlankEnd rest then some value else none
    | none => none

end EventQuery.Json
