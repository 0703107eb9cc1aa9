/-
  BlockAsm: tokens.

  A source is cut at its blanks; a brace is always a token of its own, and a
  longest run of other units is a token.  Tokens carry no position.
-/
import BlockAsm.Text.Blank

namespace BlockAsm

/-- A token: a brace, or a run of units that are neither braces nor blanks. -/
abbrev Token := Text

/-- Whether a unit is a brace. -/
def Rune.isBrace (r : Rune) : Bool :=
  r == .scalar (Char.ofNat 0x7B) || r == .scalar (Char.ofNat 0x7D)

namespace Token

/-- The token that opens a block. -/
abbrev lbrace : Token := [Byte.lbrace]

/-- The token that closes a block. -/
abbrev rbrace : Token := [Byte.rbrace]

/-- The token between the destination and the source of an assignment. -/
def arrow : Token := utf8 "<-"

/-- Put the word in front of the tokens, unless it is empty. -/
def consWord (word : Text) (tokens : List Token) : List Token :=
  if word = [] then tokens else word :: tokens

/-- The word that the units start with, and the tokens behind it. -/
def cut : List Rune → Text × List Token
  | [] => ([], [])
  | r :: rest =>
    let (word, tokens) := cut rest
    if r.isBlank then ([], consWord word tokens)
    else if r.isBrace then ([], r.bytes :: consWord word tokens)
    else (r.bytes ++ word, tokens)

/-- The tokens with single spaces between them. -/
def unwords (tokens : List Token) : Text := Text.join [Byte.space] tokens

/-- The tokens up to and with the first that `closes`, and what stands behind
    it; nothing stands behind if no token closes. -/
def upTo (closes : Token → Bool) : List Token → List Token × Option (List Token)
  | [] => ([], none)
  | tok :: rest =>
    if closes tok then ([tok], some rest)
    else
      let (taken, behind) := upTo closes rest
      (tok :: taken, behind)

theorem append_of_upTo {closes : Token → Bool} {toks taken behind : List Token}
    (h : upTo closes toks = (taken, some behind)) : taken ++ behind = toks := by
  induction toks generalizing taken with
  | nil => simp [upTo] at h
  | cons tok rest ih => grind [upTo]

theorem exists_of_upTo {closes : Token → Bool} {tok : Token} {rest taken : List Token}
    {behind : Option (List Token)} (h : upTo closes (tok :: rest) = (taken, behind)) :
    ∃ tok' taken', taken = tok' :: taken' := by
  grind [upTo]

end Token

/-- The tokens of a source. -/
def Text.tokens (source : Text) : List Token :=
  let (word, tokens) := Token.cut source.runes
  Token.consWord word tokens

end BlockAsm
