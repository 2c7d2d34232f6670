import LedgerHistory.Toml.Word

/-!
# Configuration texts: reading

A text is a list of lines: assignments, headers, comments and empty lines. Each reader takes
characters and gives a value with the characters behind it, or nothing.
-/

namespace LedgerHistory.Toml

open Text (hexValue? isDigit)

/-! ## Blanks, comments and line ends -/

/-- Drops blanks within a line. -/
def dropBlanks (cs : List Char) : List Char := cs.dropWhile fun c => c = ' ' || c = '\t'

/-- Whether a character may stand in a comment or a quoted text: a tab, or no control character. -/
def isPlain (c : Char) : Bool := c = '\t' || (0x20 ≤ c.toNat && c.toNat ≠ 0x7F)

/-- What follows a line end. -/
def dropLineEnd? : List Char → Option (List Char)
  | '\n' :: rest => some rest
  | '\r' :: '\n' :: rest => some rest
  | _ => none

/-- Drops a comment, if there is one. -/
def dropComment : List Char → List Char
  | '#' :: rest => rest.dropWhile isPlain
  | cs => cs

/-- What follows a line on which nothing but a comment may still stand. -/
def endLine? (cs : List Char) : Option (List Char) :=
  match dropComment (dropBlanks cs) with
  | [] => some []
  | cs => dropLineEnd? cs

/-- Drops blanks, line ends and comments between the items of an array. -/
def dropLines (inComment : Bool) : List Char → Option (List Char)
  | [] => if inComment then none else some []
  | '\n' :: rest => dropLines false rest
  | '\r' :: '\n' :: rest => dropLines false rest
  | c :: rest =>
    if inComment then if isPlain c then dropLines true rest else none
    else if c = ' ' ∨ c = '\t' then dropLines false rest
    else if c = '#' then dropLines true rest
    else some (c :: rest)

/-! ## Quoted texts -/

/-- The character with a number, unless that is a surrogate or too great. -/
def charOf? (n : Nat) : Option Char := if n.isValidChar then some (Char.ofNat n) else none

/-- The character of an escape of one letter. -/
def escape? : Char → Option Char
  | 'b' => some '\x08'
  | 't' => some '\t'
  | 'n' => some '\n'
  | 'f' => some '\x0c'
  | 'r' => some '\r'
  | '"' => some '"'
  | '\\' => some '\\'
  | _ => none

/-- The character of an escape by hexadecimal digits. -/
def hexEscape? (ds : List Char) : Option Char :=
  if (ds.all fun d => (hexValue? d).isSome) then charOf? (Text.numeral 16 ds) else none

/-- Reads a text between double quotes behind the first of them. The characters read so far are given,
last one first. -/
def readQuoted (read : List Char) : List Char → Option (String × List Char)
  | [] => none
  | '"' :: rest => some (String.ofList read.reverse, rest)
  | '\\' :: 'u' :: a :: b :: c :: d :: rest => do
    readQuoted ((← hexEscape? [a, b, c, d]) :: read) rest
  | '\\' :: 'U' :: a :: b :: c :: d :: e :: f :: g :: h :: rest => do
    readQuoted ((← hexEscape? [a, b, c, d, e, f, g, h]) :: read) rest
  | '\\' :: c :: rest => do readQuoted ((← escape? c) :: read) rest
  | c :: rest => if isPlain c then readQuoted (c :: read) rest else none

/-- Reads a text between single quotes behind the first of them. -/
def readLiteral (read : List Char) : List Char → Option (String × List Char)
  | [] => none
  | c :: rest =>
    if c = '\'' then some (String.ofList read.reverse, rest)
    else if isPlain c then readLiteral (c :: read) rest
    else none

/-- Ends a text of several lines behind its three closing quotes. Up to two more quotes belong to the
text. -/
def closeLines (quote : Char) (read : List Char) : List Char → String × List Char
  | a :: b :: rest =>
    if a = quote then
      if b = quote then (String.ofList (quote :: quote :: read).reverse, rest)
      else (String.ofList (quote :: read).reverse, b :: rest)
    else (String.ofList read.reverse, a :: b :: rest)
  | [a] =>
    if a = quote then (String.ofList (quote :: read).reverse, []) else (String.ofList read.reverse, [a])
  | [] => (String.ofList read.reverse, [])

/-- Reads a text of several lines between double quotes. A backslash at the end of a line joins it with
the next character that is neither blank nor line end. -/
def readQuotedLines (joining : Bool) (read : List Char) : List Char → Option (String × List Char)
  | [] => none
  | '"' :: '"' :: '"' :: rest => some (closeLines '"' read rest)
  | '\\' :: 'u' :: a :: b :: c :: d :: rest => do
    readQuotedLines false ((← hexEscape? [a, b, c, d]) :: read) rest
  | '\\' :: 'U' :: a :: b :: c :: d :: e :: f :: g :: h :: rest => do
    readQuotedLines false ((← hexEscape? [a, b, c, d, e, f, g, h]) :: read) rest
  | '\r' :: '\n' :: rest => readQuotedLines joining (if joining then read else '\n' :: read) rest
  | '\\' :: c :: rest =>
    if (dropLineEnd? (dropBlanks (c :: rest))).isSome then readQuotedLines true read (c :: rest)
    else do readQuotedLines false ((← escape? c) :: read) rest
  | c :: rest =>
    if c = '\n' ∨ c = ' ' ∨ c = '\t' then readQuotedLines joining (if joining then read else c :: read) rest
    else if isPlain c ∧ c ≠ '\\' then readQuotedLines false (c :: read) rest
    else none

/-- Reads a text of several lines between single quotes. -/
def readLiteralLines (read : List Char) : List Char → Option (String × List Char)
  | [] => none
  | '\'' :: '\'' :: '\'' :: rest => some (closeLines '\'' read rest)
  | '\r' :: '\n' :: rest => readLiteralLines ('\n' :: read) rest
  | c :: rest => if isPlain c ∨ c = '\n' then readLiteralLines (c :: read) rest else none

/-- Reads a quoted text, if a quote stands in front. A line end behind three opening quotes is no part
of the text. -/
def readText (cs : List Char) : Option (String × List Char) :=
  match cs with
  | '"' :: '"' :: '"' :: rest => readQuotedLines false [] ((dropLineEnd? rest).getD rest)
  | '\'' :: '\'' :: '\'' :: rest => readLiteralLines [] ((dropLineEnd? rest).getD rest)
  | '"' :: rest => readQuoted [] rest
  | '\'' :: rest => readLiteral [] rest
  | _ => none

/-! ## Keys -/

/-- Whether a character may stand in a key without quotes. -/
def isBareKey (c : Char) : Bool := c.isAlphanum || c = '-' || c = '_'

def readKey : List Char → Option (String × List Char)
  | '"' :: rest => readQuoted [] rest
  | '\'' :: rest => readLiteral [] rest
  | cs =>
    match cs.takeWhile isBareKey with
    | [] => none
    | key => some (String.ofList key, cs.dropWhile isBareKey)

/-- The deepest nesting of brackets and the greatest number of keys with dots between them. -/
def maxDepth : Nat := 79

/-- Reads keys with dots between them, at most so many. -/
def readKeys : Nat → List Char → Option (List String × List Char)
  | 0, _ => none
  | n + 1, cs => do
    let (key, rest) ← readKey (dropBlanks cs)
    match dropBlanks rest with
    | '.' :: rest =>
      let (keys, rest) ← readKeys n rest
      return (key :: keys, rest)
    | rest => return ([key], rest)

/-! ## Values -/

def endsWord (c : Char) : Bool :=
  c = ' ' || c = '\t' || c = '\n' || c = '\r' || c = ',' || c = ']' || c = '}' || c = '#'

/-- Reads a word. A date goes on behind a blank with a time. -/
def readWord (cs : List Char) : Option (Toml × List Char) :=
  let word := cs.takeWhile fun c => !endsWord c
  let rest := cs.dropWhile fun c => !endsWord c
  match dropDate? word, rest with
  | some [], ' ' :: d :: rest =>
    if isDigit d then do
      let time := (d :: rest).takeWhile fun c => !endsWord c
      return (← ofWord? (word ++ ' ' :: time), (d :: rest).dropWhile fun c => !endsWord c)
    else do return (← ofWord? word, ' ' :: d :: rest)
  | _, rest => do return (← ofWord? word, rest)

mutual

/-- Reads a value that may nest some levels deeper. The fuel bounds the number of values and parts. -/
def readValue (fuel depth : Nat) (cs : List Char) : Option (Toml × List Char) :=
  match fuel with
  | 0 => none
  | n + 1 =>
    match cs, depth with
    | '[' :: rest, d + 1 => do
      let (items, rest) ← readItems n d rest
      return (.array items, rest)
    | '{' :: rest, d + 1 =>
      match dropBlanks rest with
      | '}' :: rest => some (.table .braces .empty, rest)
      | rest => do
        let (assignments, rest) ← readAssignments n d rest
        return (.table .braces (← assignAll assignments .empty), rest)
    | '[' :: _, 0 => none
    | '{' :: _, 0 => none
    | '"' :: _, _ => do
      let (s, rest) ← readText cs
      return (.string s, rest)
    | '\'' :: _, _ => do
      let (s, rest) ← readText cs
      return (.string s, rest)
    | _, _ => readWord cs

/-- Reads items up to the closing bracket, in front of which a comma may stand. -/
def readItems (fuel depth : Nat) (cs : List Char) : Option (List Toml × List Char) :=
  match fuel with
  | 0 => none
  | n + 1 => do
    match ← dropLines false cs with
    | ']' :: rest => return ([], rest)
    | cs =>
      let (item, rest) ← readValue n depth cs
      match ← dropLines false rest with
      | ']' :: rest => return ([item], rest)
      | ',' :: rest =>
        let (items, rest) ← readItems n depth rest
        return (item :: items, rest)
      | _ => none

/-- Reads assignments up to the closing brace. All stand on one line. -/
def readAssignments (fuel depth : Nat) (cs : List Char) : Option (List Assignment × List Char) :=
  match fuel with
  | 0 => none
  | n + 1 => do
    let (a, rest) ← readAssignment n depth cs
    match dropBlanks rest with
    | '}' :: rest => return ([a], rest)
    | ',' :: rest =>
      let (as, rest) ← readAssignments n depth rest
      return (a :: as, rest)
    | _ => none

/-- Reads a dotted key, an equals sign and a value. -/
def readAssignment (fuel depth : Nat) (cs : List Char) : Option (Assignment × List Char) :=
  match fuel with
  | 0 => none
  | n + 1 => do
    let (path, rest) ← readKeys maxDepth cs
    match rest with
    | '=' :: rest =>
      let (value, rest) ← readValue n depth (dropBlanks rest)
      return ((path, value), rest)
    | _ => none

end

/-! ## Texts -/

/-- What a line holds. -/
inductive Line
  | empty
  | assignment (a : Assignment)
  | header (repeated : Bool) (path : List String)

def readLine (cs : List Char) : Option (Line × List Char) :=
  match dropBlanks cs with
  | [] => some (.empty, [])
  | '#' :: rest => do return (.empty, ← endLine? ('#' :: rest))
  | '\n' :: rest => some (.empty, rest)
  | '\r' :: '\n' :: rest => some (.empty, rest)
  | '[' :: '[' :: rest => do
    let (path, rest) ← readKeys maxDepth rest
    match rest with
    | ']' :: ']' :: rest => return (.header true path, ← endLine? rest)
    | _ => none
  | '[' :: rest => do
    let (path, rest) ← readKeys maxDepth rest
    match rest with
    | ']' :: rest => return (.header false path, ← endLine? rest)
    | _ => none
  | cs => do
    let (a, rest) ← readAssignment (2 * cs.length + 2) maxDepth cs
    return (.assignment a, ← endLine? rest)

/-- Reads lines to the end of the text. The fuel bounds their number. -/
def readLines (fuel : Nat) (cs : List Char) : Option (List Line) :=
  match fuel, cs with
  | _, [] => some []
  | 0, _ => none
  | n + 1, cs => do
    let (line, rest) ← readLine cs
    return line :: (← readLines n rest)

/-- Parts lines into the first assignments and the sections. -/
def partLines : List Line → List Assignment × List Section
  | [] => ([], [])
  | line :: rest =>
    let (first, sections) := partLines rest
    match line with
    | .empty => (first, sections)
    | .assignment a => (a :: first, sections)
    | .header repeated path => ([], ⟨repeated, path.dropLast, path.getLastD "", first⟩ :: sections)

/-- The table that a text holds. A byte order mark may stand in front. -/
def ofChars? (cs : List Char) : Option Fields := do
  let cs := match cs with
    | '\ufeff' :: rest => rest
    | cs => cs
  let (first, sections) := partLines (← readLines (cs.length + 1) cs)
  assemble first sections

end LedgerHistory.Toml
