import IntentPlane.Text.Number

/-!
# The lexical level of TOML

Blanks, comments, strings and keys. A reader takes the text that is left and returns what it read
with the rest.
-/

namespace IntentPlane.Toml

def isSpace (c : Char) : Bool := c = ' ' || c = '\t'

def skipSpace (cs : List Char) : List Char := cs.dropWhile isSpace

/-- Characters that may stand in a text as they are: all but the control characters, save for tabs.
-/
def isPrintable (c : Char) : Bool := c = '\t' || (0x20 ≤ c.toNat && c.toNat ≠ 0x7F)

def newline? : List Char → Option (List Char)
  | '\n' :: rest => some rest
  | '\r' :: '\n' :: rest => some rest
  | _ => none

/-- Takes off what may follow an item on its line: blanks, a comment, and the end of the line. -/
def endOfLine? (cs : List Char) : Option (List Char) :=
  let rest := match skipSpace cs with
    | '#' :: comment => comment.dropWhile isPrintable
    | rest => rest
  if rest.isEmpty then some [] else newline? rest

/-- Skips blanks, line breaks and comments between the items of an array. -/
def skipTrivia (comment : Bool) : List Char → List Char
  | '\r' :: '\n' :: rest => skipTrivia false rest
  | '\n' :: rest => skipTrivia false rest
  | c :: rest =>
    if comment then (if isPrintable c then skipTrivia true rest else c :: rest)
    else if isSpace c then skipTrivia false rest
    else if c = '#' then skipTrivia true rest
    else c :: rest
  | [] => []

/-! ## Strings -/

/-- The character that a one-letter escape stands for. -/
def escaped? : Char → Option Char
  | '"' => some '"'
  | '\\' => some '\\'
  | 'b' => some '\x08'
  | 'f' => some '\x0c'
  | 'n' => some '\n'
  | 'r' => some '\r'
  | 't' => some '\t'
  | _ => none

/-- The character with a number in hexadecimal digits, unless it is a surrogate or out of range. -/
def ofHex? (digits : List Char) : Option Char := do
  let n ← Text.ofDigits? 16 digits
  if n.isValidChar then some (.ofNat n) else none

/-- Adds a character to what the rest of a string reads as. -/
def andThen (c : Char) (read : Option (List Char × List Char)) : Option (List Char × List Char) :=
  read.map fun (text, rest) => (c :: text, rest)

/-- Reads a one-line string with escapes, after its opening quote. -/
def basic? : List Char → Option (List Char × List Char)
  | '"' :: rest => some ([], rest)
  | '\\' :: 'u' :: a :: b :: c :: d :: rest => do
    andThen (← ofHex? [a, b, c, d]) (basic? rest)
  | '\\' :: 'U' :: a :: b :: c :: d :: e :: f :: g :: h :: rest => do
    andThen (← ofHex? [a, b, c, d, e, f, g, h]) (basic? rest)
  | '\\' :: c :: rest => do andThen (← escaped? c) (basic? rest)
  | c :: rest => if isPrintable c && c ≠ '\\' then andThen c (basic? rest) else none
  | [] => none

/-- Reads a one-line string without escapes, after its opening quote. -/
def literal? : List Char → Option (List Char × List Char)
  | '\'' :: rest => some ([], rest)
  | c :: rest => if isPrintable c then andThen c (literal? rest) else none
  | [] => none

/-- Whether nothing but blanks comes before the end of the line. -/
def isLineEnd (cs : List Char) : Bool := (newline? (skipSpace cs)).isSome

/-- Reads a string of several lines with escapes, after its opening quotes. Up to two quotes may
stand before the closing ones. A backslash at the end of a line opens a gap that takes all blanks
and line breaks up to the next character. -/
def multiBasic? (gap : Bool) : List Char → Option (List Char × List Char)
  | '"' :: '"' :: '"' :: '"' :: '"' :: rest => some (['"', '"'], rest)
  | '"' :: '"' :: '"' :: '"' :: rest => some (['"'], rest)
  | '"' :: '"' :: '"' :: rest => some ([], rest)
  | '\r' :: '\n' :: rest =>
    if gap then multiBasic? true rest else andThen '\n' (multiBasic? false rest)
  | '\n' :: rest => if gap then multiBasic? true rest else andThen '\n' (multiBasic? false rest)
  | '\\' :: 'u' :: a :: b :: c :: d :: rest => do
    andThen (← ofHex? [a, b, c, d]) (multiBasic? false rest)
  | '\\' :: 'U' :: a :: b :: c :: d :: e :: f :: g :: h :: rest => do
    andThen (← ofHex? [a, b, c, d, e, f, g, h]) (multiBasic? false rest)
  | '\\' :: c :: rest =>
    if isLineEnd (c :: rest) then multiBasic? true (c :: rest)
    else do andThen (← escaped? c) (multiBasic? false rest)
  | c :: rest =>
    if gap && isSpace c then multiBasic? true rest
    else if isPrintable c && c ≠ '\\' then andThen c (multiBasic? false rest)
    else none
  | [] => none

/-- Reads a string of several lines without escapes, after its opening quotes. -/
def multiLiteral? : List Char → Option (List Char × List Char)
  | '\'' :: '\'' :: '\'' :: '\'' :: '\'' :: rest => some (['\'', '\''], rest)
  | '\'' :: '\'' :: '\'' :: '\'' :: rest => some (['\''], rest)
  | '\'' :: '\'' :: '\'' :: rest => some ([], rest)
  | '\r' :: '\n' :: rest => andThen '\n' (multiLiteral? rest)
  | '\n' :: rest => andThen '\n' (multiLiteral? rest)
  | c :: rest => if isPrintable c then andThen c (multiLiteral? rest) else none
  | [] => none

/-- A line break right after the opening quotes does not count. -/
def dropNewline (cs : List Char) : List Char := (newline? cs).getD cs

/-- Reads a string of any of the four kinds. -/
def string? : List Char → Option (List Char × List Char)
  | '"' :: '"' :: '"' :: rest => multiBasic? false (dropNewline rest)
  | '"' :: rest => basic? rest
  | '\'' :: '\'' :: '\'' :: rest => multiLiteral? (dropNewline rest)
  | '\'' :: rest => literal? rest
  | _ => none

/-! ## Keys -/

def isBareKeyChar (c : Char) : Bool := c.isAlphanum || c = '-' || c = '_'

/-- Reads one part of a key: a one-line string, or a run of bare characters. -/
def keyPart? (cs : List Char) : Option (String × List Char) :=
  match cs with
  | '"' :: rest => (basic? rest).map fun (text, rest) => (.ofList text, rest)
  | '\'' :: rest => (literal? rest).map fun (text, rest) => (.ofList text, rest)
  | _ =>
    let part := cs.takeWhile isBareKeyChar
    if part.isEmpty then none else some (.ofList part, cs.dropWhile isBareKeyChar)

/-- Reads a key of up to `limit` parts with points between them and blanks around them. -/
def key? : (limit : Nat) → List Char → Option (List String × List Char)
  | 0, _ => none
  | limit + 1, cs => do
    let (part, rest) ← keyPart? (skipSpace cs)
    match skipSpace rest with
    | '.' :: rest =>
      let (parts, rest) ← key? limit rest
      return (part :: parts, rest)
    | rest => return ([part], rest)

end IntentPlane.Toml
