/-
  BlockAsm: reading statements.

  `Statement.read` takes the tokens of one statement off the front of a list.
  Which tokens those are depends on the tokens and, for a generic word, on the
  macro table, and on nothing else.  A failure consumes tokens too: those it had
  already taken, or all of them at the end of the input.

  * `suffix_read`: what is left is a suffix of what stood behind the first token;
  * `length_body_le`: the block of a statement is no longer than that.
-/
import BlockAsm.Macros
import BlockAsm.Statement.Basic
import BlockAsm.Statement.Form

namespace BlockAsm

namespace Call

/-- The name in front of the first opening parenthesis, and the arguments up to
    the last closing one: cut at commas, trimmed, and the empty ones dropped. -/
def parse? (text : Text) : Option (Text × List Text) := do
  let (name, behind) ← text.cutFirst? Byte.lparen
  let (inside, _) ← behind.cutLast? Byte.rparen
  some (name, ((inside.split Byte.comma).map Text.trim).filter (· ≠ []))

end Call

namespace Statement

/-- A statement or the reason why there is none, and the tokens left. -/
abbrev Reading := Except Error Statement × List Token

/-- The input ends before an operand of the directive. -/
def missingOperand (directive : Token) : Reading :=
  (.error (.ofFault (.missingOperand directive)), [])

/-- Read the operands of a move; any token may stand for the arrow. -/
def readMove : List Token → Reading
  | dest :: _ :: src :: rest => (.ok (.move dest src.dropTerminator), rest)
  | _ => missingOperand Form.moveWord

/-- Read a section; its header stands even if its block cannot be read. -/
def readSection (directive : Token) : List Token → Reading
  | kind :: rest =>
    match Block.read rest with
    | (.ok b, rest) => (.ok (.sectionBlock kind b), rest)
    | (.error f, rest) => (.ok (.sectionHeader kind f), rest)
  | [] => missingOperand directive

/-- Read a label and its block. -/
def readLabel (directive : Token) : List Token → Reading
  | name :: rest =>
    match Block.read rest with
    | (.ok b, rest) => (.ok (.label name b), rest)
    | (.error f, rest) => (.error ⟨[.directive directive], f⟩, rest)
  | [] => missingOperand directive

/-- Read a comment, to the first token that closes it. -/
def readComment (tok : Token) (rest : List Token) : Reading :=
  match tok.dropFront? Form.commentOpen with
  | none => (.error (.ofFault (.malformed tok)), rest)
  | some inside =>
    if inside.includes Form.commentClose then (.ok .comment, rest)
    else match Token.upTo (·.includes Form.commentClose) rest with
      | (_, some rest) => (.ok .comment, rest)
      | (_, none) => (.error (.ofFault .unterminatedComment), [])

/-- Read a string, to the first token that has its quote again. -/
def readString (tok : Token) (rest : List Token) : Reading :=
  match tok with
  | [] => (.error (.ofFault (.malformed tok)), rest)
  | quote :: inside =>
    if quote ∈ inside then (.ok (.string tok), rest)
    else match Token.upTo (quote ∈ ·) rest with
      | (taken, some rest) => (.ok (.string (Token.unwords (tok :: taken))), rest)
      | (taken, none) =>
        (.error (.ofFault (.unterminatedString (Token.unwords (tok :: taken)))), [])

/-- The call that a text spells. -/
def ofCallText (text : Text) : Except Error Statement :=
  match Call.parse? text with
  | some (name, args) => .ok (.call name args)
  | none => .error (.ofFault (.malformed text))

/-- Read a call, to the first token with a closing parenthesis. -/
def readCall (tok : Token) (rest : List Token) : Reading :=
  match Token.upTo (Byte.rparen ∈ ·) (tok :: rest) with
  | (taken, some rest) => (ofCallText (Token.unwords taken), rest)
  | (taken, none) => (.error (.ofFault (.unterminatedCall (Token.unwords taken))), [])

/-- The generic statement of a resolved word. -/
def ofCore (core : Text) (terminated : Bool) : Statement :=
  if core = Token.lbrace ∨ core = Token.rbrace then .brace core else .word core terminated

/-- Read a generic statement.  A word that resolves to `move` is a move, and a
    word in front of an arrow is a destination. -/
def readGeneric (m : Macros) (tok : Token) (rest : List Token) : Reading :=
  let core := m.resolveOperand tok.dropTerminator
  if core = Form.moveWord ∧ ¬ tok.isTerminated then readMove rest
  else match rest with
    | [] => (.ok (ofCore core tok.isTerminated), [])
    | next :: behind =>
      if next = Token.arrow then (.ok (.destination core), behind)
      else (.ok (ofCore core tok.isTerminated), next :: behind)

/-- Read the statement that `tok` opens. -/
def read (m : Macros) (tok : Token) (rest : List Token) : Reading :=
  match Form.ofToken tok with
  | .define =>
    match rest with
    | name :: value :: rest => (.ok (.define name value.dropTerminator), rest)
    | _ => missingOperand tok
  | .undefine =>
    match rest with
    | name :: rest => (.ok (.undefine name.dropTerminator), rest)
    | [] => missingOperand tok
  | .global =>
    match rest with
    | name :: rest => (.ok (.global name.dropTerminator), rest)
    | [] => missingOperand tok
  | .sectionBlock => readSection tok rest
  | .label | .constant => readLabel tok rest
  | .prologue => (.ok .prologue, rest)
  | .epilogue => (.ok .epilogue, rest)
  | .ret => (.ok .ret, rest)
  | .comment => readComment tok rest
  | .string => readString tok rest
  | .move => readMove rest
  | .call => readCall tok rest
  | .generic => readGeneric m tok rest

/-! ## What reading leaves -/

theorem suffix_missingOperand (directive : Token) (rest : List Token) :
    (missingOperand directive).2 <:+ rest := List.nil_suffix

theorem suffix_readMove (rest : List Token) : (readMove rest).2 <:+ rest := by
  unfold readMove
  split
  · exact ⟨[_, _, _], rfl⟩
  · exact suffix_missingOperand _ _

theorem suffix_readSection (directive : Token) (rest : List Token) :
    (readSection directive rest).2 <:+ rest := by
  unfold readSection
  split
  · rename_i kind behind
    have h := (Block.suffix_read behind).trans (List.suffix_cons kind behind)
    split <;> simp_all
  · exact suffix_missingOperand _ _

theorem suffix_readLabel (directive : Token) (rest : List Token) :
    (readLabel directive rest).2 <:+ rest := by
  unfold readLabel
  split
  · rename_i name behind
    have h := (Block.suffix_read behind).trans (List.suffix_cons name behind)
    split <;> simp_all
  · exact suffix_missingOperand _ _

theorem suffix_readComment (tok : Token) (rest : List Token) :
    (readComment tok rest).2 <:+ rest := by
  unfold readComment
  split
  · exact List.suffix_refl _
  · split
    · exact List.suffix_refl _
    · split
      · rename_i h; exact ⟨_, Token.append_of_upTo h⟩
      · exact List.nil_suffix

theorem suffix_readString (tok : Token) (rest : List Token) :
    (readString tok rest).2 <:+ rest := by
  unfold readString
  split
  · exact List.suffix_refl _
  · split
    · exact List.suffix_refl _
    · split
      · rename_i h; exact ⟨_, Token.append_of_upTo h⟩
      · exact List.nil_suffix

theorem suffix_readCall (tok : Token) (rest : List Token) : (readCall tok rest).2 <:+ rest := by
  unfold readCall
  split
  · rename_i taken behind h
    obtain ⟨tok', taken', rfl⟩ := Token.exists_of_upTo h
    have := Token.append_of_upTo h
    exact ⟨taken', (List.cons.inj this).2⟩
  · exact List.nil_suffix

theorem suffix_readGeneric (m : Macros) (tok : Token) (rest : List Token) :
    (readGeneric m tok rest).2 <:+ rest := by
  unfold readGeneric
  dsimp only
  split
  · exact suffix_readMove rest
  · split
    · exact List.suffix_refl _
    · split
      · exact List.suffix_cons _ _
      · exact List.suffix_refl _

/-- What is left is a suffix of what stood behind the first token. -/
theorem suffix_read (m : Macros) (tok : Token) (rest : List Token) :
    (read m tok rest).2 <:+ rest := by
  unfold read
  split
  · split
    · exact ⟨[_, _], rfl⟩
    · exact suffix_missingOperand _ _
  · split
    · exact List.suffix_cons _ _
    · exact suffix_missingOperand _ _
  · split
    · exact List.suffix_cons _ _
    · exact suffix_missingOperand _ _
  · exact suffix_readSection tok rest
  · exact suffix_readLabel tok rest
  · exact suffix_readLabel tok rest
  · exact List.suffix_refl _
  · exact List.suffix_refl _
  · exact List.suffix_refl _
  · exact suffix_readComment tok rest
  · exact suffix_readString tok rest
  · exact suffix_readMove rest
  · exact suffix_readCall tok rest
  · exact suffix_readGeneric m tok rest

/-! ## The blocks of statements -/

theorem body_ofCore (core : Text) (terminated : Bool) : (ofCore core terminated).body = [] := by
  unfold ofCore; split <;> rfl

theorem body_of_readMove {rest : List Token} {s : Statement} (h : (readMove rest).1 = .ok s) :
    s.body = [] := by
  unfold readMove missingOperand at h
  split at h <;> cases h
  rfl

theorem body_of_readComment {tok : Token} {rest : List Token} {s : Statement}
    (h : (readComment tok rest).1 = .ok s) : s.body = [] := by
  unfold readComment at h
  grind [body]

theorem body_of_readString {tok : Token} {rest : List Token} {s : Statement}
    (h : (readString tok rest).1 = .ok s) : s.body = [] := by
  unfold readString at h
  grind [body]

theorem body_of_readCall {tok : Token} {rest : List Token} {s : Statement}
    (h : (readCall tok rest).1 = .ok s) : s.body = [] := by
  unfold readCall ofCallText at h
  grind [body]

theorem body_of_readGeneric {m : Macros} {tok : Token} {rest : List Token} {s : Statement}
    (h : (readGeneric m tok rest).1 = .ok s) : s.body = [] := by
  unfold readGeneric at h
  grind [body, body_ofCore, body_of_readMove]

theorem length_body_of_readSection {directive : Token} {rest : List Token} {s : Statement}
    (h : (readSection directive rest).1 = .ok s) : s.body.length ≤ rest.length := by
  unfold readSection missingOperand at h
  split at h
  · rename_i kind behind
    split at h
    · rename_i b behind' hb
      cases h
      have : b.tokens.length ≤ behind.length := Block.length_of_read (by rw [hb])
      simp only [body, List.length_cons]
      omega
    · cases h
      simp [body]
  · cases h

theorem length_body_of_readLabel {directive : Token} {rest : List Token} {s : Statement}
    (h : (readLabel directive rest).1 = .ok s) : s.body.length ≤ rest.length := by
  unfold readLabel missingOperand at h
  split at h
  · rename_i name behind
    split at h
    · rename_i b behind' hb
      cases h
      have : b.tokens.length ≤ behind.length := Block.length_of_read (by rw [hb])
      simp only [body, List.length_cons]
      omega
    · cases h
  · cases h

/-- The block of a statement is no longer than what stood behind its first token. -/
theorem length_body_le {m : Macros} {tok : Token} {rest : List Token} {s : Statement}
    (h : (read m tok rest).1 = .ok s) : s.body.length ≤ rest.length := by
  unfold read missingOperand at h
  split at h
  case h_1 | h_2 | h_3 => split at h <;> cases h; simp [body]
  case h_4 => exact length_body_of_readSection h
  case h_5 => exact length_body_of_readLabel h
  case h_6 => exact length_body_of_readLabel h
  case h_10 => simp [body_of_readComment h]
  case h_11 => simp [body_of_readString h]
  case h_12 => simp [body_of_readMove h]
  case h_13 => simp [body_of_readCall h]
  case h_14 => simp [body_of_readGeneric h]
  all_goals
    cases h
    simp [body]

end Statement

end BlockAsm
