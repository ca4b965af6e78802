import FrontEnd.Ident
import FrontEnd.Text.Quoted

/-!
# Tokens

A token is a name, a keyword, a literal, a symbol or the end of the input.  Its
kind forgets names and values; that is the grain at which a grammar compares and
reports tokens.
-/

namespace FrontEnd

/-- The width of an integer type. -/
inductive Width
  | w8
  | w16
  | w32
  | w64
deriving DecidableEq

/-- The number of bits of a width. -/
def Width.bits : Width → Nat
  | .w8 => 8
  | .w16 => 16
  | .w32 => 32
  | .w64 => 64

/-- The width of a number of bits. -/
def Width.ofBits? (bits : Nat) : Option Width :=
  [Width.w8, .w16, .w32, .w64].find? fun width => width.bits = bits

/-- Whether a value lies in the signed range of a number of bits. -/
def fitsSigned (bits : Nat) (value : Int) : Bool :=
  -Int.pow 2 (bits - 1) ≤ value && value < Int.pow 2 (bits - 1)

/-- The width of an integer literal: 32 bits if the value fits, else 64. -/
def Width.fitting (value : Int) : Width := if fitsSigned 32 value then .w32 else .w64

/-- The types that have a keyword. -/
inductive Prim
  | int (width : Width)
  | bool
  | char
  | void
deriving DecidableEq

/-- The keyword of a primitive type. -/
def Prim.text : Prim → String
  | .int width => "i" ++ toString width.bits
  | .bool => "bool"
  | .char => "char"
  | .void => "void"

/-- The primitive type of a keyword. -/
def Prim.ofText? (text : String) : Option Prim :=
  [Prim.int .w8, .int .w16, .int .w32, .int .w64, .bool, .char, .void].find? fun type =>
    type.text = text

/-- The reserved words. -/
inductive Keyword
  | module
  | fn
  | external
  | global
  | struct
  | binding
  | ret
  | truth (value : Bool)
  | prim (type : Prim)
deriving DecidableEq

namespace Keyword

/-- The spelling of a keyword. -/
def text : Keyword → String
  | .module => "module"
  | .fn => "fn"
  | .external => "extern"
  | .global => "global"
  | .struct => "struct"
  | .binding => "let"
  | .ret => "return"
  | .truth true => "true"
  | .truth false => "false"
  | .prim type => type.text

/-- Every keyword once. -/
def all : List Keyword :=
  [.module, .fn, .external, .global, .struct, .binding, .ret, .truth true, .truth false,
    .prim (.int .w8), .prim (.int .w16), .prim (.int .w32), .prim (.int .w64),
    .prim .bool, .prim .char, .prim .void]

/-- The keyword that a word spells, in any mix of cases. -/
def ofWord? (word : Ident) : Option Keyword :=
  all.find? fun keyword => word.same ⟨keyword.text⟩

end Keyword

/-- Operators and punctuation. -/
inductive Symbol
  | assign
  | comma
  | plus
  | minus
  | times
  | slash
  | percent
  | caret
  | less
  | greater
  | arrow
  | ellipsis
  | atSign
  | semicolon
  | openParen
  | openCurly
  | closeParen
  | closeCurly
deriving DecidableEq

/-- The characters of a symbol. -/
def Symbol.text : Symbol → String
  | .assign => "="
  | .comma => ","
  | .plus => "+"
  | .minus => "-"
  | .times => "*"
  | .slash => "/"
  | .percent => "%"
  | .caret => "^"
  | .less => "<"
  | .greater => ">"
  | .arrow => "->"
  | .ellipsis => "..."
  | .atSign => "@"
  | .semicolon => ";"
  | .openParen => "("
  | .openCurly => "\x7b"
  | .closeParen => ")"
  | .closeCurly => "\x7d"

/-- A lexical unit.  An integer has no sign: a minus before it is a unit of its own. -/
inductive Token
  | ident (name : Ident)
  | keyword (word : Keyword)
  | integer (value : Nat)
  | character (value : Char)
  | symbol (sign : Symbol)
  | eof
deriving DecidableEq

/-- A token without its name or value. -/
inductive TokenKind
  | ident
  | keyword (word : Keyword)
  | integer
  | character
  | symbol (sign : Symbol)
  | eof
deriving DecidableEq

/-- The wording of a token kind. -/
def TokenKind.describe : TokenKind → String
  | .ident => "identifier"
  | .keyword word => "keyword `" ++ word.text ++ "`"
  | .integer => "integer literal"
  | .character => "character literal"
  | .symbol sign => "`" ++ sign.text ++ "`"
  | .eof => "end of input"

namespace Token

/-- The kind of a token. -/
def kind : Token → TokenKind
  | .ident _ => .ident
  | .keyword word => .keyword word
  | .integer _ => .integer
  | .character _ => .character
  | .symbol sign => .symbol sign
  | .eof => .eof

/-- The wording of a token, with its name or value. -/
def describe : Token → String
  | .ident name => "identifier `" ++ name.text ++ "`"
  | .integer value => "literal `" ++ toString value ++ "`"
  | .character value => "literal " ++ Text.quoted value
  | token => token.kind.describe

/-- Whether two tokens are the same unit; names are compared as names. -/
def same : Token → Token → Bool
  | .ident name, .ident other => name.same other
  | token, other => token == other

end Token

end FrontEnd
