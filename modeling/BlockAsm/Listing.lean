/-
  BlockAsm: listings.

  The tokens of a source with the numbers of their forms, and a macro table, are
  listed as nested records, one field or entry to a line, with the values of a
  record or table in one column.  A listing is plain or coloured; colours are
  terminal sequences around names, numbers and the pieces of quoted texts.
-/
import BlockAsm.Macros
import BlockAsm.Numeral
import BlockAsm.Statement.Form
import BlockAsm.Text.Quoted

namespace BlockAsm.Listing

/-- Whether a listing is coloured. -/
inductive Style where
  | plain
  | coloured
  deriving DecidableEq, Repr

/-- The text in a colour. -/
def paint (style : Style) (colour : Nat) (t : Text) : Text :=
  match style with
  | .plain => t
  | .coloured => utf8 "\x1b[" ++ Numeral.ofNat colour ++ utf8 "m" ++ t ++ utf8 "\x1b[0m"

/-- The text in a colour and bold. -/
def paintBold (style : Style) (colour : Nat) (t : Text) : Text :=
  match style with
  | .plain => t
  | .coloured =>
    utf8 "\x1b[" ++ Numeral.ofNat colour ++ utf8 "m\x1b[1m" ++ t ++ utf8 "\x1b[0m"

/-- The pieces with neighbouring plain ones joined. -/
def joinPlain : List Quoted.Piece → List Quoted.Piece
  | [] => []
  | .escape t :: rest => .escape t :: joinPlain rest
  | .plain t :: rest =>
    match joinPlain rest with
    | .plain t' :: rest => .plain (t ++ t') :: rest
    | rest => .plain t :: rest

/-- A piece of a quoted text in its colour. -/
def paintPiece (style : Style) : Quoted.Piece → Text
  | .plain t => paint style 31 t
  | .escape t => paintBold style 35 t

/-- A quoted text. -/
def string (style : Style) (t : Text) : Text :=
  let mark := paintBold style 31 [Byte.doubleQuote]
  mark ++ (joinPlain t.quotedPieces).flatMap (paintPiece style) ++ mark

/-- A list of more tokens than this is folded. -/
def foldLimit : Nat := 1024

/-- The record of one token. -/
def record (style : Style) (tok : Token) (f : Form) : Text :=
  utf8 "  translator." ++ paint style 32 (utf8 "Classified") ++ utf8 "\x7b\n" ++
  utf8 "    " ++ paint style 33 (utf8 "Token") ++ utf8 ": " ++ string style tok ++ utf8 ",\n" ++
  utf8 "    " ++ paint style 33 (utf8 "Kind") ++ utf8 ":  " ++
    paintBold style 34 (Numeral.ofNat f.number) ++ utf8 ",\n" ++
  utf8 "  \x7d,\n"

/-- The listing of classified tokens. -/
def tokens (style : Style) (ts : List (Token × Form)) : Text :=
  let body :=
    if ts = [] then []
    else if foldLimit < ts.length then utf8 "..."
    else utf8 "\n" ++ ts.flatMap fun (tok, f) => record style tok f
  utf8 "[]translator." ++ paint style 32 (utf8 "Classified") ++ utf8 "\x7b" ++ body ++
    utf8 "\x7d\n"

/-- The number of characters of a printed text, colour sequences included. -/
def width (t : Text) : Nat := t.runes.length

/-- The listing of a macro table. -/
def macros (style : Style) (m : Macros) : Text :=
  let rows := m.entries.map fun (name, value) => (string style name, string style value)
  let column := (rows.map fun (key, _) => width key).foldl max 0
  let row := fun (key, value) =>
    utf8 "  " ++ key ++ utf8 ":" ++ List.replicate (column - width key + 1) Byte.space ++ value ++
      utf8 ",\n"
  let body := if rows = [] then [] else utf8 "\n" ++ rows.flatMap row
  paint style 32 (utf8 "map[string]string") ++ utf8 "\x7b" ++ body ++ utf8 "\x7d\n"

end BlockAsm.Listing
