import FrontEnd.Source
import FrontEnd.Token.Basic

/-!
# Scanning

The scanner reads items one at a time and answers with tokens and errors.  It is
either between two lexemes, inside one, or discarding the rest of a line after an
error.  A lexeme ends when the item after it has been seen, so a token is answered
together with what that item starts.

An unreadable line loses the lexeme in progress, reports one error, and discards
what follows up to the next line feed.  At the end of the items the last lexeme is
closed and the end of the input is answered once.

## Main definitions

* `Lexeme.step`: what the next character does to a lexeme.
* `Scanner.feed`, `Scanner.finish`: one item, and the end of the items.
* `scan`: all answers to a list of items.
* `tokens`: the tokens of a list of items, or all of its errors.
-/

namespace FrontEnd

/-- Why scanning failed. -/
inductive LexicalError
  /-- A line could not be read. -/
  | input
  /-- No lexeme may hold this character here. -/
  | badChar (c : Char)
  /-- Another character was required. -/
  | expected (c : Char)
  /-- An integer literal is out of range. -/
  | integerOverflow
  /-- A character literal has an unknown escape. -/
  | badEscape (c : Char)
deriving DecidableEq

/-- The greatest integer literal. -/
def maxInteger : Nat := Nat.pow 2 63 - 1

/-- The wording of a lexical error. -/
def LexicalError.message : LexicalError → String
  | .input => "I/O error"
  | .badChar c => "Bad character " ++ Text.quoted c ++ " in input stream"
  | .expected c => "Expected " ++ Text.quoted c
  | .integerOverflow =>
    "Integer literal overflow, valid range is [0, " ++ toString maxInteger ++ "]"
  | .badEscape c => "Unknown escape sequence '\\" ++ String.singleton c ++ "'"

/-! ## Character classes -/

/-- The characters that may start a word. -/
def isWordStart (c : Char) : Bool := c.isAlpha || c == '_'

/-- The characters that may continue a word. -/
def isWordChar (c : Char) : Bool := c.isAlphanum || c == '_'

/-- The characters skipped between lexemes. -/
def isBlank (c : Char) : Bool :=
  c == ' ' || c == '\t' || c == '\n' || c == '\x0c' || c == '\r'

/-- The value of a decimal digit. -/
def digitValue (c : Char) : Nat := c.toNat - '0'.toNat

/-- The symbol that a character is on its own, whatever follows it. -/
def Symbol.ofChar? (c : Char) : Option Symbol :=
  if c = ',' then some .comma
  else if c = '+' then some .plus
  else if c = '*' then some .times
  else if c = '%' then some .percent
  else if c = '^' then some .caret
  else if c = '<' then some .less
  else if c = '>' then some .greater
  else if c = '@' then some .atSign
  else if c = ';' then some .semicolon
  else if c = '(' then some .openParen
  else if c = '\x7b' then some .openCurly
  else if c = ')' then some .closeParen
  else if c = '\x7d' then some .closeCurly
  else if c = '=' then some .assign
  else none

/-- The character that an escape stands for. -/
def unescape? (c : Char) : Option Char :=
  if c = 'n' then some '\n'
  else if c = 't' then some '\t'
  else if c = '0' then some '\x00'
  else if c = '\\' then some '\\'
  else if c = '\x27' then some '\x27'
  else none

/-- The token of a word: its keyword, or else the word as a name. -/
def Token.ofWord (word : String) : Token :=
  match Keyword.ofWord? ⟨word⟩ with
  | some reserved => .keyword reserved
  | none => .ident ⟨word⟩

/-! ## Lexemes in progress -/

/-- What was read of a lexeme. -/
inductive Lexeme
  /-- A whole token; the next item only closes it. -/
  | complete (token : Token)
  /-- A slash, alone or the start of a comment. -/
  | slash
  /-- A comment, up to the end of its line. -/
  | comment
  /-- A dash, alone or the start of an arrow. -/
  | dash
  /-- The first dot of three. -/
  | dot
  /-- Two dots of three. -/
  | twoDots
  /-- The digits read so far, as a value. -/
  | integer (value : Nat)
  /-- The opening quote of a character literal. -/
  | quote
  /-- A quote and a backslash. -/
  | escape
  /-- A character literal that lacks its closing quote. -/
  | quoted (c : Char)
  /-- The characters of a word. -/
  | word (text : String)
deriving DecidableEq

/-- What a character does to a lexeme in progress. -/
inductive Step
  /-- It belongs to the lexeme. -/
  | extend (lexeme : Lexeme)
  /-- It ends a lexeme that yields no token. -/
  | close
  /-- It comes after a lexeme that yields a token. -/
  | emit (token : Token)
  /-- It may not come here. -/
  | fail (error : LexicalError)

/-- A character met between two lexemes: it is skipped, starts a lexeme, or fails. -/
def Lexeme.start (c : Char) : Except LexicalError (Option Lexeme) :=
  match Symbol.ofChar? c with
  | some symbol => .ok (some (.complete (.symbol symbol)))
  | none =>
    if c = '/' then .ok (some .slash)
    else if c = '-' then .ok (some .dash)
    else if c = '.' then .ok (some .dot)
    else if c = '\x27' then .ok (some .quote)
    else if isWordStart c then .ok (some (.word (String.singleton c)))
    else if c.isDigit then .ok (some (.integer (digitValue c)))
    else if isBlank c then .ok none
    else .error (.badChar c)

/-- A character met inside a lexeme. -/
def Lexeme.step (lexeme : Lexeme) (c : Char) : Step :=
  match lexeme with
  | .complete token => .emit token
  | .slash => if c = '/' then .extend .comment else .emit (.symbol .slash)
  | .comment => if c = '\n' then .close else .extend .comment
  | .dash => if c = '>' then .extend (.complete (.symbol .arrow)) else .emit (.symbol .minus)
  | .dot => if c = '.' then .extend .twoDots else .fail (.expected '.')
  | .twoDots =>
    if c = '.' then .extend (.complete (.symbol .ellipsis)) else .fail (.expected '.')
  | .integer value =>
    if c.isDigit then
      if value * 10 + digitValue c ≤ maxInteger then
        .extend (.integer (value * 10 + digitValue c))
      else .fail .integerOverflow
    else .emit (.integer value)
  | .quote =>
    if c = '\\' then .extend .escape
    else if c = '\x27' ∨ c = '\n' then .fail (.badChar c)
    else .extend (.quoted c)
  | .escape =>
    match unescape? c with
    | some value => .extend (.quoted value)
    | none => .fail (.badEscape c)
  | .quoted value =>
    if c = '\x27' then .extend (.complete (.character value)) else .fail (.expected '\x27')
  | .word text =>
    if isWordChar c then .extend (.word (text.push c)) else .emit (Token.ofWord text)

/-- The end of the items met inside a lexeme: the token or error that it leaves. -/
def Lexeme.finish : Lexeme → Option (Except LexicalError Token)
  | .complete token => some (.ok token)
  | .slash => some (.ok (.symbol .slash))
  | .comment => none
  | .dash => some (.ok (.symbol .minus))
  | .dot | .twoDots => some (.error (.expected '.'))
  | .integer value => some (.ok (.integer value))
  | .quote | .escape | .quoted _ => some (.error (.expected '\x27'))
  | .word text => some (.ok (Token.ofWord text))

/-! ## The scanner -/

/-- Where the scanner stands. -/
inductive Phase
  /-- Between two lexemes. -/
  | between
  /-- Inside a lexeme that started at `start` and whose last character stands at
  `last`. -/
  | within (lexeme : Lexeme) (start last : Position)
  /-- After an error, up to the next line feed. -/
  | skipping
deriving DecidableEq

/-- A scanner: its phase, and the position of the next character. -/
structure Scanner where
  phase : Phase
  next : Position
deriving DecidableEq

/-- An answer of the scanner. -/
abbrev Answer := Except (Located LexicalError) (Located Token)

/-- A token answer. -/
def Answer.token (token : Token) (span : Span) : Answer := .ok ⟨token, span⟩

/-- An error answer. -/
def Answer.failure (error : LexicalError) (span : Span) : Answer := .error ⟨error, span⟩

namespace Scanner

/-- A scanner before the first item. -/
def initial : Scanner := ⟨.between, .origin⟩

/-- Pass over a character of a discarded line. -/
def discard (c : Char) (after : Position) : Scanner :=
  ⟨if c = '\n' then .between else .skipping, after⟩

/-- A character met between two lexemes. -/
def enter (m : Scanner) (c : Char) (after : Position) : Scanner × List Answer :=
  match Lexeme.start c with
  | .ok none => (⟨.between, after⟩, [])
  | .ok (some lexeme) => (⟨.within lexeme m.next m.next, after⟩, [])
  | .error error => (discard c after, [.failure error m.next.cell])

/-- A character met in any phase. -/
def feedChar (m : Scanner) (c : Char) (after : Position) : Scanner × List Answer :=
  match m.phase with
  | .between => m.enter c after
  | .skipping => (discard c after, [])
  | .within lexeme start last =>
    match lexeme.step c with
    | .extend longer => (⟨.within longer start m.next, after⟩, [])
    | .close => (⟨.between, after⟩, [])
    | .fail error => (discard c after, [.failure error m.next.cell])
    | .emit token =>
      let (m', answers) := m.enter c after
      (m', .token token ⟨start, last.advance⟩ :: answers)

/-- Read one item. -/
def feed (m : Scanner) : Item → Scanner × List Answer
  | .char c after => m.feedChar c after
  | .failure => (⟨.skipping, m.next⟩, [.failure .input m.next.cell])

/-- The answers left at the end of the items. -/
def finish (m : Scanner) : List Answer :=
  match m.phase with
  | .between | .skipping => [.token .eof m.next.cell]
  | .within lexeme start last =>
    match lexeme.finish with
    | none => [.token .eof m.next.cell]
    | some (.ok token) => [.token token ⟨start, last.advance⟩, .token .eof m.next.cell]
    | some (.error error) => [.failure error m.next.cell, .token .eof m.next.cell]

/-- All answers of a scanner to a list of items. -/
def run (m : Scanner) : List Item → List Answer
  | [] => m.finish
  | item :: rest => (m.feed item).2 ++ run (m.feed item).1 rest

end Scanner

/-- All answers to a list of items. -/
def scan (items : List Item) : List Answer := Scanner.initial.run items

/-- The errors among the answers. -/
def Answer.errors (answers : List Answer) : List (Located LexicalError) :=
  answers.filterMap fun
    | .error error => some error
    | .ok _ => none

/-- The tokens among the answers. -/
def Answer.tokens (answers : List Answer) : List (Located Token) :=
  answers.filterMap fun
    | .ok token => some token
    | .error _ => none

/-- The tokens of a list of items if none of its answers is an error, else all of
its errors. -/
def tokens (items : List Item) : Except (List (Located LexicalError)) (List (Located Token)) :=
  let answers := scan items
  match Answer.errors answers with
  | [] => .ok (Answer.tokens answers)
  | errors => .error errors

/-- The tokens of a source, or all of its lexical errors. -/
def Source.tokens (source : Source) :
    Except (List (Located LexicalError)) (List (Located Token)) :=
  FrontEnd.tokens source.items

end FrontEnd
