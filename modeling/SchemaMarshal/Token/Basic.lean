/-! Tokens of schema text and where they stand.

Lines and columns count from one. A column counts characters, and only a line feed ends a line.
-/

set_option autoImplicit false

namespace SchemaMarshal

structure Position where
  line : Nat
  column : Nat
  deriving DecidableEq, Repr

namespace Position

def start : Position := ⟨1, 1⟩

def advance (position : Position) (c : Char) : Position :=
  if c = '\n' then ⟨position.line + 1, 1⟩ else ⟨position.line, position.column + 1⟩

def after (position : Position) (text : List Char) : Position :=
  text.foldl advance position

@[simp] theorem after_nil (position : Position) : position.after [] = position := rfl

@[simp] theorem after_cons (position : Position) (c : Char) (text : List Char) :
    position.after (c :: text) = (position.advance c).after text := rfl

theorem after_append (position : Position) (first second : List Char) :
    position.after (first ++ second) = (position.after first).after second :=
  List.foldl_append

end Position

namespace Token

inductive Kind where
  | identifier (text : String)
  /-- An integer literal as written, without its sign. -/
  | integer (literal : String)
  | decimal (literal : String)
  /-- A string literal with its escapes resolved. -/
  | quoted (value : String)
  | symbol (character : Char)
  deriving DecidableEq, Repr

def Kind.describe : Kind → String
  | .identifier text => "identifier '" ++ text ++ "'"
  | .integer literal => "number '" ++ literal ++ "'"
  | .decimal literal => "number '" ++ literal ++ "'"
  | .quoted value => "string \"" ++ value ++ "\""
  | .symbol character => "'" ++ character.toString ++ "'"

end Token

structure Token where
  kind : Token.Kind
  position : Position
  deriving DecidableEq, Repr

namespace Token

def isSymbol (token : Token) (character : Char) : Bool :=
  token.kind = .symbol character

def isIdentifier (token : Token) (text : String) : Bool :=
  token.kind = .identifier text

end Token

end SchemaMarshal
