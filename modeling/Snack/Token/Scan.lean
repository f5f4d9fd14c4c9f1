import Snack.Token.Basic

/-! Reading a source text into tokens. At every place the longest spelling wins: a number takes its
fraction and exponent, a word all its letters and digits, and an operator of three characters comes
before one of two. Blanks, variation selectors and comments separate tokens and leave no trace but in
the places of what follows. -/

namespace Snack.Token

/-! ### Characters -/

def isDigit (c : Char) : Bool := '0' ≤ c && c ≤ '9'

def isLetter (c : Char) : Bool := ('a' ≤ c && c ≤ 'z') || ('A' ≤ c && c ≤ 'Z') || c == '_'

def isWordChar (c : Char) : Bool := isLetter c || isDigit c

/-- The variation selector that editors put behind an emoji. -/
def selector : Char := '\uFE0F'

def isBlank (c : Char) : Bool := c == ' ' || c == '\t' || c == '\r' || c == '\n' || c == selector

def lineComment : Char := '🍦'

def blockComment : Char := '🍨'

/-- The operators, a longer one before its prefixes. -/
def operators : List (List Char) :=
  [['.', '.', '.'], ['.', '.', '<'], ['*', '*'], ['&', '&'], ['|', '|'], ['?', '?'], ['?', '.'],
   ['<', '='], ['>', '='], ['=', '='], ['!', '='], ['+', '='], ['+', '+'], ['-', '-'], ['-', '>'],
   ['+'], ['-'], ['*'], ['/'], ['%'], ['<'], ['>'], ['!'], ['='], ['.'], ['('], [')'], ['['], [']'],
   ['\x7b'], ['\x7d'], [','], [':'], [';'], ['?']]

/-- What a character means behind a backslash in a string literal. -/
def escape? : Char → Option Char
  | 'n' => some '\n'
  | 'r' => some '\r'
  | 't' => some '\t'
  | '\\' => some '\\'
  | '"' => some '"'
  | '\'' => some '\''
  | _ => none

/-! ### Failures -/

inductive Cause where
  | unterminatedComment
  | unterminatedString
  | badExponent
  | badEscape (c : Char)
  | unexpected (c : Char)
  deriving DecidableEq

def Cause.message : Cause → String
  | unterminatedComment => "unterminated block comment"
  | unterminatedString => "unterminated string literal"
  | badExponent => "invalid float exponent"
  | badEscape c => "invalid escape: \\" ++ c.toString
  | unexpected c => "unexpected character '" ++ c.toString ++ "'"

abbrev Error := Located Cause

/-! ### Lexemes -/

/-- A point and the digits behind it, if a digit follows the point. -/
def fraction : List Char → List Char × List Char
  | '.' :: d :: rest =>
    if isDigit d then ('.' :: d :: rest.takeWhile isDigit, rest.dropWhile isDigit)
    else ([], '.' :: d :: rest)
  | rest => ([], rest)

/-- The sign of an exponent, if there is one. -/
def exponentSign : List Char → List Char × List Char
  | c :: rest => if c == '+' || c == '-' then ([c], rest) else ([], c :: rest)
  | [] => ([], [])

/-- An exponent mark with its sign and digits. Nothing if there is a mark and no digit. -/
def exponent? : List Char → Option (List Char × List Char)
  | c :: rest =>
    if c == 'e' || c == 'E' then
      let (sign, rest) := exponentSign rest
      let digits := rest.takeWhile isDigit
      if digits.isEmpty then none else some (c :: sign ++ digits, rest.dropWhile isDigit)
    else some ([], c :: rest)
  | [] => some ([], [])

/-- A number: digits, then a fraction, then an exponent. -/
def number? (cs : List Char) : Option (List Char × List Char) :=
  let whole := cs.takeWhile isDigit
  let (frac, rest) := fraction (cs.dropWhile isDigit)
  (exponent? rest).map fun (exp, rest) => (whole ++ frac ++ exp, rest)

/-- The rest of a string literal that was opened at `start`: what it stands for, the place behind its
closing quote, and what follows. -/
def stringTail (start : Pos) (p : Pos) : List Char → Except Error (List Char × Pos × List Char)
  | [] => .error ⟨.unterminatedString, start⟩
  | '"' :: rest => .ok ([], p.after '"', rest)
  | '\n' :: _ => .error ⟨.unterminatedString, start⟩
  | ['\\'] => .error ⟨.unterminatedString, start⟩
  | '\\' :: c :: rest =>
    match escape? c with
    | some d => (stringTail start ⟨p.line, p.col + 2⟩ rest).map fun (cs, q, rest) => (d :: cs, q, rest)
    | none => .error ⟨.badEscape c, p⟩
  | c :: rest => (stringTail start (p.after c) rest).map fun (cs, q, rest) => (c :: cs, q, rest)

/-- The rest of a block comment: the place behind it and what follows. -/
def commentTail (p : Pos) : List Char → Option (Pos × List Char)
  | [] => none
  | c :: rest => if c == blockComment then some (p.after c, rest) else commentTail (p.after c) rest

/-- The first operator of the list that starts the text. -/
def operator? (cs : List Char) : Option (List Char × List Char) :=
  (operators.find? fun op => op.isPrefixOf cs).map fun op => (op, cs.drop op.length)

/-! ### Scanning -/

/-- What stands at the head of a text. -/
inductive Piece where
  /-- Nothing but trivia; reading goes on at the place and text given. -/
  | gap (p : Pos) (rest : List Char)
  | token (t : Token) (p : Pos) (rest : List Char)

/-- A lexeme that holds no line feed, as a token. -/
def Piece.lexeme (kind : Kind) (p : Pos) (cs rest : List Char) : Piece :=
  .token ⟨kind, String.ofList cs, p⟩ ⟨p.line, p.col + cs.length⟩ rest

/-- An emoji token. It takes a variation selector behind it along. -/
def Piece.emoji (kind : Kind) (p : Pos) (c : Char) (rest : List Char) : Piece :=
  match rest with
  | d :: rest' =>
    if d == selector then .token ⟨kind, c.toString, p⟩ ⟨p.line, p.col + 2⟩ rest'
    else .token ⟨kind, c.toString, p⟩ ⟨p.line, p.col + 1⟩ rest
  | [] => .token ⟨kind, c.toString, p⟩ ⟨p.line, p.col + 1⟩ []

/-- The first piece of the text `c :: cs` that starts at `p`. A line comment does not move the column,
which shows only where a text ends in one. -/
def piece (p : Pos) (c : Char) (cs : List Char) : Except Error Piece :=
  if isBlank c then .ok (.gap (p.after c) cs)
  else if c == lineComment then .ok (.gap p (cs.dropWhile (· != '\n')))
  else if c == blockComment then
    match commentTail (p.after c) cs with
    | some (q, rest) => .ok (.gap q rest)
    | none => .error ⟨.unterminatedComment, p⟩
  else if isDigit c then
    match number? (c :: cs) with
    | some (lexeme, rest) => .ok (.lexeme .number p lexeme rest)
    | none => .error ⟨.badExponent, p⟩
  else if c == '"' then
    (stringTail p (p.after c) cs).map fun (value, q, rest) =>
      .token ⟨.string, String.ofList value, p⟩ q rest
  else if isLetter c then
    let word := c :: cs.takeWhile isWordChar
    let kind := if word == ['i', 'n'] then .keyword else .ident
    .ok (.lexeme kind p word (cs.dropWhile isWordChar))
  else if Keyword.symbols.contains c then .ok (.emoji .keyword p c cs)
  else if (Prim.ofSymbol? c).isSome then .ok (.emoji .type p c cs)
  else
    match operator? (c :: cs) with
    | some (lexeme, rest) => .ok (.lexeme .op p lexeme rest)
    | none => .error ⟨.unexpected c, p⟩

/-- The tokens of a text that starts at `p`, read in at most `n` pieces. Every piece takes a character,
so the length of the text is enough. -/
def scanFrom : (n : Nat) → Pos → List Char → Except Error (List Token)
  | _, p, [] => .ok [endAt p]
  | 0, p, _ :: _ => .ok [endAt p]
  | n + 1, p, c :: cs =>
    match piece p c cs with
    | .error e => .error e
    | .ok (.gap q rest) => scanFrom n q rest
    | .ok (.token t q rest) => (scanFrom n q rest).map (t :: ·)

/-- The tokens of a source text. -/
def scan (source : String) : Except Error (List Token) :=
  let cs := source.toList
  scanFrom cs.length .start cs

end Snack.Token
