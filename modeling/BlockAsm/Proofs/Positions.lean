/-
  BlockAsm: cutting texts at positions.

  Comments, strings, calls and operands are taken apart by the bytes that they are known to have.
  The same can be done at positions that are computed first, such as those of the parentheses of a
  call.  Such a cut fails if its positions are not in order or not in the text.

  * `Text.slice`: what stands between two positions, if they are in range;
  * `Positional.read`, `Positional.lower`, `Positional.run`: reading, operands and whole runs that
    cut every text at positions and give up at the first cut that is out of range;
  * `Positional.run_eq`: none is, and such a run ends as any run does;
  * `InRange`: what this rests on, at every statement of a run.
-/
import BlockAsm.Proofs.Failures
import BlockAsm.Proofs.Points
import Mathlib.Data.List.Infix

namespace BlockAsm

/-! ## Positions -/

/-- Two positions that a text cannot be cut at. -/
structure Text.OutOfRange where
  text : Text
  first : Int
  last : Int
  deriving DecidableEq, Repr

namespace Text

/-- What stands from the first position on and before the last one. -/
def slice (t : Text) (first last : Int) : Except OutOfRange Text :=
  if 0 ≤ first ∧ first ≤ last ∧ last ≤ t.length then
    .ok ((t.take last.toNat).drop first.toNat)
  else .error ⟨t, first, last⟩

/-- The position of the first `b`, or `-1` if there is none. -/
def firstAt (t : Text) (b : UInt8) : Int := if b ∈ t then t.idxOf b else -1

/-- The position of the last `b`, or `-1` if there is none. -/
def lastAt (t : Text) (b : UInt8) : Int :=
  if b ∈ t then (t.length : Int) - 1 - t.reverse.idxOf b else -1

/-- A cut at the ends of a part gives the part. -/
theorem slice_of_append {t : Text} {first last : Int} (front part back : Text)
    (ht : t = front ++ part ++ back) (hf : first = front.length)
    (hl : last = front.length + part.length) : t.slice first last = .ok part := by
  subst ht hf hl
  have hrange : 0 ≤ (front.length : Int) ∧ (front.length : Int) ≤ front.length + part.length ∧
      (front.length : Int) + part.length ≤ (front ++ part ++ back).length := by
    simp only [List.length_append]
    omega
  rw [slice, if_pos hrange]
  have htake : (front ++ part ++ back).take ((front.length : Int) + part.length).toNat =
      front ++ part := List.take_left' (by simp only [List.length_append]; omega)
  rw [htake, Int.toNat_natCast, List.drop_left]

theorem slice_behind (front part : Text) :
    (front ++ part).slice front.length (front ++ part).length = .ok part :=
  slice_of_append front part [] (List.append_nil _).symm rfl (by simp)

theorem firstAt_append {b : UInt8} {front : Text} (h : b ∉ front) (back : Text) :
    (front ++ b :: back).firstAt b = front.length := by
  rw [firstAt, if_pos (by simp), List.idxOf_append_of_notMem h, List.idxOf_cons_self, Nat.add_zero]

theorem firstAt_of_not_mem {b : UInt8} {t : Text} (h : b ∉ t) : t.firstAt b = -1 := if_neg h

theorem lastAt_append {b : UInt8} (front : Text) {back : Text} (h : b ∉ back) :
    (front ++ b :: back).lastAt b = front.length := by
  have hreverse : (front ++ b :: back).reverse = back.reverse ++ b :: front.reverse := by simp
  rw [lastAt, if_pos (by simp), hreverse, List.idxOf_append_of_notMem (by simpa using h),
    List.idxOf_cons_self]
  simp only [List.length_append, List.length_cons, List.length_reverse]
  omega

end Text

namespace Positional

open Statement (Reading Effect done fail)
open Text (OutOfRange)

/-! ## Forms and statements -/

/-- Whether an opening parenthesis stands right behind an identifier. -/
def isCallHead (t : Text) : Except OutOfRange Bool :=
  if t.firstAt Byte.lparen ≤ 0 then .ok false
  else do return (← t.slice 0 (t.firstAt Byte.lparen)).isIdentifier

/-- The form that the first bytes of a token tell. -/
def ofShape (tok : Token) : Except OutOfRange Form := do
  if Form.commentOpen.isPrefixOf tok then return .comment
  else if [Byte.singleQuote].isPrefixOf tok || [Byte.doubleQuote].isPrefixOf tok then
    return .string
  else if ← isCallHead tok then return .call
  else return .generic

/-- The form of the statement that a token opens. -/
def ofToken (tok : Token) : Except OutOfRange Form :=
  match Form.ofDirective? tok with
  | some f => .ok f
  | none =>
    match (Form.ofDirective? tok.dropTerminator).filter Form.takesTerminator with
    | some f => .ok f
    | none => ofShape tok

/-- Read a comment, to the first token that closes it. -/
def readComment (tok : Token) (rest : List Token) : Except OutOfRange Reading := do
  let inside ← tok.slice 2 tok.length
  if inside.includes Form.commentClose then return (.ok .comment, rest)
  else match Token.upTo (·.includes Form.commentClose) rest with
    | (_, some rest) => return (.ok .comment, rest)
    | (_, none) => return (.error (.ofFault .unterminatedComment), [])

/-- Read a string, to the first token that has its quote again. -/
def readString (tok : Token) (rest : List Token) : Except OutOfRange Reading := do
  let quote ← tok.slice 0 1
  let inside ← tok.slice 1 tok.length
  if inside.includes quote then return (.ok (.string tok), rest)
  else match Token.upTo (·.includes quote) rest with
    | (taken, some rest) => return (.ok (.string (Token.unwords (tok :: taken))), rest)
    | (taken, none) =>
      return (.error (.ofFault (.unterminatedString (Token.unwords (tok :: taken)))), [])

/-- The name in front of the first opening parenthesis, and the arguments up to the last closing
    one; what stands behind that is cut off as well. -/
def parse (text : Text) : Except OutOfRange (Text × List Text) := do
  let opening := text.firstAt Byte.lparen
  let closing := text.lastAt Byte.rparen
  let name ← text.slice 0 opening
  let _ ← text.slice (closing + 1) text.length
  let inside ← text.slice (opening + 1) closing
  return (name, ((inside.split Byte.comma).map Text.trim).filter (· ≠ []))

/-- Read a call, to the first token with a closing parenthesis. -/
def readCall (tok : Token) (rest : List Token) : Except OutOfRange Reading :=
  match Token.upTo (Byte.rparen ∈ ·) (tok :: rest) with
  | (taken, some rest) => do
    let (name, args) ← parse (Token.unwords taken)
    return (.ok (.call name args), rest)
  | (taken, none) => .ok (.error (.ofFault (.unterminatedCall (Token.unwords taken))), [])

/-- Read the statement that `tok` opens.  The other forms cut no token. -/
def read (m : Macros) (tok : Token) (rest : List Token) : Except OutOfRange Reading := do
  match ← ofToken tok with
  | .comment => readComment tok rest
  | .string => readString tok rest
  | .call => readCall tok rest
  | _ => return Statement.read m tok rest

/-! ## Operands -/

/-- The text behind `front`, if the text starts with it. -/
def dropFront? (t front : Text) : Except OutOfRange (Option Text) := do
  if front.isPrefixOf t then return some (← t.slice front.length t.length)
  else return none

/-- The radix that a text is marked with, and the text behind the mark. -/
def cut? (t : Text) : Except OutOfRange (Option (Radix × Text)) :=
  [Radix.binary, .octal, .hexadecimal].findSomeM? fun r => do
    return (← dropFront? t r.mark).map (r, ·)

/-- The value of a literal. -/
def value (t : Text) : Except OutOfRange (Except Literal.Fault Int64) := do
  match ← cut? t with
  | some (radix, digits) =>
    match Numeral.readUnsigned radix.base digits with
    | .ok n => return .ok (Int64.ofNat n)
    | .error _ => return .error (.badDigits t radix)
  | none =>
    match Numeral.readSigned t with
    | .ok v => return .ok (Int64.ofInt v)
    | .error _ => return .error (.notDecimal t)

/-- Whether a text is shaped like a number. -/
def isNumeric (t : Text) : Except OutOfRange Bool := do
  return (← cut? t).isSome || (Numeral.readSigned t).isOk

/-- The target form of an operand. -/
def lower (t : Text) : Except OutOfRange (Except Literal.Fault Text) := do
  match ← dropFront? t [Byte.ampersand] with
  | some name => return .ok (utf8 "[" ++ name ++ utf8 "]")
  | none =>
    if ← isNumeric t then return (← value t).map fun v => Numeral.ofInt v.toInt
    else return .ok t

/-- Push the operands in the given order, up to the first that is no operand. -/
def pushAll (s : State) : List Text → Except OutOfRange (State × Option Literal.Fault)
  | [] => .ok (s, none)
  | arg :: rest => do
    match ← lower (s.macros.resolveOperand arg) with
    | .ok op => pushAll (s.line (utf8 "push " ++ op)) rest
    | .error f => return (s, some f)

/-- Execute a statement, given the outcome of its block.  Only operands are cut. -/
def execute (opts : Options) (inner : Except Error Text) (s : State) :
    Statement → Except OutOfRange Effect
  | .move dest src => do
    match ← lower (s.macros.resolveOperand src) with
    | .ok op => return done (s.line (utf8 "mov " ++ s.macros.resolve dest ++ utf8 ", " ++ op))
    | .error f => return fail s ⟨[.moveTo dest], .badLiteral f⟩
  | .call name args => do
    match ← pushAll s args.reverse with
    | (s, none) => return done (s.line (utf8 "call " ++ s.macros.resolve name))
    | (s, some f) => return fail s ⟨[.callOf name], .badLiteral f⟩
  | .word core terminated => do
    match ← lower core with
    | .ok op => return done (s.fragment (if terminated then op ++ [Byte.semicolon] else op))
    | .error f => return fail s (.ofFault (.badLiteral f))
  | stmt => return stmt.execute opts inner s

/-! ## Every cut is in range -/

theorem isCallHead_eq (t : Text) : isCallHead t = .ok t.isCallHead := by
  by_cases h : Byte.lparen ∈ t
  · obtain ⟨name, behind, rfl, hname⟩ := List.eq_append_cons_of_mem h
    have hat := Text.firstAt_append hname behind
    have hslice : Text.slice (name ++ Byte.lparen :: behind) 0 name.length = .ok name :=
      Text.slice_of_append [] name (Byte.lparen :: behind) rfl rfl (by simp)
    rw [isCallHead, hat, hslice, Text.isCallHead, Text.cutFirst?_append hname]
    cases name with
    | nil => rfl
    | cons b name => rfl
  · have hcut : t.cutFirst? Byte.lparen = none := by
      cases hc : t.cutFirst? Byte.lparen with
      | none => rfl
      | some p => exact absurd (by rw [(Text.eq_of_cutFirst? hc).1]; simp) h
    rw [isCallHead, Text.firstAt_of_not_mem h, Text.isCallHead, hcut]
    rfl

theorem ofShape_eq (tok : Token) : ofShape tok = .ok (Form.ofShape tok) := by
  rw [ofShape, Form.ofShape, isCallHead_eq]
  split
  · rfl
  · split
    · rfl
    · cases tok.isCallHead <;> rfl

theorem ofToken_eq (tok : Token) : ofToken tok = .ok (Form.ofToken tok) := by
  rw [ofToken, Form.ofToken]
  cases Form.ofDirective? tok with
  | some f => rfl
  | none =>
    cases (Form.ofDirective? tok.dropTerminator).filter Form.takesTerminator with
    | some f => rfl
    | none => exact ofShape_eq tok

theorem readComment_eq {tok : Token} (h : Form.commentOpen <+: tok) (rest : List Token) :
    readComment tok rest = .ok (Statement.readComment tok rest) := by
  obtain ⟨inside, rfl⟩ := h
  have hslice : (Form.commentOpen ++ inside).slice 2 (Form.commentOpen ++ inside).length =
      .ok inside := Text.slice_behind Form.commentOpen inside
  rw [readComment, hslice, Statement.readComment, Text.dropFront?_eq_some_iff.2 rfl]
  simp only [bind, Except.bind, pure, Except.pure]
  split
  · rfl
  · rcases Token.upTo (·.includes Form.commentClose) rest with ⟨taken, _ | left⟩ <;> rfl

theorem readString_eq {tok : Token} (h : tok ≠ []) (rest : List Token) :
    readString tok rest = .ok (Statement.readString tok rest) := by
  obtain ⟨quote, inside, rfl⟩ := List.exists_cons_of_ne_nil h
  have hquote : Text.slice (quote :: inside) 0 1 = .ok [quote] :=
    Text.slice_of_append [] [quote] inside rfl rfl rfl
  have hinside : Text.slice (quote :: inside) 1 (quote :: inside).length = .ok inside :=
    Text.slice_behind [quote] inside
  have hincludes : ∀ t : Text, t.includes [quote] = decide (quote ∈ t) := by
    intro t
    rw [Bool.eq_iff_iff, Text.includes_iff, decide_eq_true_iff, List.singleton_infix_iff]
  rw [readString, hquote, hinside, Statement.readString]
  simp only [bind, Except.bind, pure, Except.pure, hincludes, decide_eq_true_iff]
  split
  · rfl
  · rcases Token.upTo (quote ∈ ·) rest with ⟨taken, _ | left⟩ <;> rfl

theorem parse_eq {name behind : Text} (hn : Byte.lparen ∉ name) (inside : Text)
    (hb : Byte.rparen ∉ behind) :
    parse (name ++ Byte.lparen :: (inside ++ Byte.rparen :: behind)) =
      .ok (name, ((inside.split Byte.comma).map Text.trim).filter (· ≠ [])) := by
  have hparts : name ++ Byte.lparen :: (inside ++ Byte.rparen :: behind) =
      (name ++ Byte.lparen :: inside) ++ Byte.rparen :: behind := by simp
  have hopening := Text.firstAt_append hn (inside ++ Byte.rparen :: behind)
  have hclosing := Text.lastAt_append (name ++ Byte.lparen :: inside) hb
  rw [← hparts] at hclosing
  generalize ht : name ++ Byte.lparen :: (inside ++ Byte.rparen :: behind) = text at *
  have hname : text.slice 0 (text.firstAt Byte.lparen) = .ok name :=
    Text.slice_of_append [] name _ ht.symm rfl (by simp [hopening])
  have hbehind : text.slice (text.lastAt Byte.rparen + 1) text.length = .ok behind :=
    Text.slice_of_append (name ++ Byte.lparen :: inside ++ [Byte.rparen]) behind [] (by simp [← ht])
      (by simp [hclosing]; omega) (by simp [← ht]; omega)
  have hinside : text.slice (text.firstAt Byte.lparen + 1) (text.lastAt Byte.rparen) =
      .ok inside :=
    Text.slice_of_append (name ++ [Byte.lparen]) inside (Byte.rparen :: behind) (by simp [← ht])
      (by simp [hopening]) (by simp [hclosing]; omega)
  rw [parse]
  simp only [hname, hbehind, hinside, bind, Except.bind, pure, Except.pure]

theorem readCall_eq {tok : Token} (h : tok.isCallHead = true) (rest : List Token) :
    readCall tok rest = .ok (Statement.readCall tok rest) := by
  rw [readCall, Statement.readCall]
  rcases hu : Token.upTo (Byte.rparen ∈ ·) (tok :: rest) with ⟨taken, _ | left⟩
  · rfl
  · obtain ⟨tok', taken, rfl⟩ := Token.exists_of_upTo hu
    obtain ⟨rfl, -⟩ := List.cons.inj (Token.append_of_upTo hu)
    obtain ⟨name, inside, behind, hparts, -, hn, hb⟩ := Call.exists_parts h
      (by simpa using Token.exists_closing_of_upTo hu)
    simp only [hparts, parse_eq hn inside hb, Statement.ofCallText,
      Call.parse?_parts hn inside hb, bind, Except.bind, pure, Except.pure]

/-- **Statements are read within range.**  The form of a token vouches for the bytes that are cut
    off. -/
theorem read_eq (m : Macros) (tok : Token) (rest : List Token) :
    read m tok rest = .ok (Statement.read m tok rest) := by
  rw [read, ofToken_eq]
  cases hf : Form.ofToken tok with
  | comment =>
    simp only [Statement.read, hf]
    exact readComment_eq (Form.commentOpen_prefix_of_ofToken hf) rest
  | string =>
    simp only [Statement.read, hf]
    exact readString_eq (Form.ne_nil_of_ofToken hf) rest
  | call =>
    simp only [Statement.read, hf]
    exact readCall_eq (Form.isCallHead_of_ofToken hf) rest
  | _ => rfl

theorem dropFront?_eq (t front : Text) : dropFront? t front = .ok (t.dropFront? front) := by
  rw [dropFront?]
  by_cases hp : front <+: t
  · rw [if_pos (List.isPrefixOf_iff_prefix.2 hp)]
    obtain ⟨rest, rfl⟩ := hp
    rw [Text.slice_behind, Text.dropFront?_eq_some_iff.2 rfl]
    rfl
  · rw [if_neg (mt List.isPrefixOf_iff_prefix.1 hp), Text.dropFront?_eq_none_iff.2 hp]
    rfl

theorem cut?_eq (t : Text) : cut? t = .ok (Radix.cut? t) := by
  simp only [cut?, dropFront?_eq]
  exact List.findSomeM?_pure

theorem value_eq (t : Text) : value t = .ok (Literal.value t) := by
  rw [value, cut?_eq, Literal.value]
  rcases Radix.cut? t with _ | ⟨radix, digits⟩
  · cases Numeral.readSigned t <;> rfl
  · simp only [bind, Except.bind]
    cases Numeral.readUnsigned radix.base digits <;> rfl

theorem isNumeric_eq (t : Text) : isNumeric t = .ok (Literal.isNumeric t) := by
  rw [isNumeric, cut?_eq]
  rfl

/-- **Operands are lowered within range.**  What is cut off is a mark that was found there. -/
theorem lower_eq (t : Text) : lower t = .ok (Operand.lower t) := by
  rw [lower, Operand.lower, dropFront?_eq]
  cases t.dropFront? [Byte.ampersand] with
  | some name => rfl
  | none =>
    simp only [isNumeric_eq, value_eq]
    cases Literal.isNumeric t <;> rfl

theorem pushAll_eq (args : List Text) : ∀ s : State, pushAll s args = .ok (s.pushAll args) := by
  induction args with
  | nil => intro s; rfl
  | cons arg args ih =>
    intro s
    rw [pushAll, lower_eq, State.pushAll]
    cases Operand.lower (s.macros.resolveOperand arg) with
    | ok op => exact ih _
    | error f => rfl

theorem execute_eq (opts : Options) (r : Except Error Text) (s : State) (stmt : Statement) :
    execute opts r s stmt = .ok (stmt.execute opts r s) := by
  cases stmt with
  | move dest src =>
    rw [execute, lower_eq, Statement.execute]
    cases Operand.lower (s.macros.resolveOperand src) <;> rfl
  | call name args =>
    rw [execute, pushAll_eq, Statement.execute]
    rcases s.pushAll args.reverse with ⟨s', _ | f⟩ <;> rfl
  | word core terminated =>
    rw [execute, lower_eq, Statement.execute]
    cases Operand.lower core <;> rfl
  | _ => rfl

/-! ## Runs -/

/-- Execute the statements of the tokens, from the given state. -/
def run (opts : Options) (toks : List Token) (s : State) : Except OutOfRange Lowering.Ending :=
  match toks with
  | [] => .ok ⟨[], s, none⟩
  | tok :: rest =>
    match _h : read s.macros tok rest with
    | .error cut => .error cut
    | .ok (.error e, left) => .ok ⟨left, s, some e⟩
    | .ok (.ok stmt, left) => do
      let ending ← run opts stmt.body (s.child opts)
      match ← execute opts ending.result s stmt with
      | (s', some e) => return ⟨left, s', some e⟩
      | (s', none) => run opts left s'
termination_by toks.length
decreasing_by
  all_goals
    rw [read_eq] at _h
    have hr := Except.ok.inj _h
  · have : stmt.body.length ≤ rest.length := Statement.length_body_le (by rw [hr])
    simp only [List.length_cons]
    omega
  · have : left.length ≤ rest.length := by
      have h := (Statement.suffix_read s.macros tok rest).length_le
      rwa [hr] at h
    simp only [List.length_cons]
    omega

/-- **Runs stay within range.** -/
theorem run_eq (opts : Options) (toks : List Token) :
    ∀ s : State, run opts toks s = .ok (Lowering.run opts toks s) := by
  induction toks using Lowering.reading_induction with
  | nil => intro s; rw [run, Lowering.run_nil]
  | cons tok rest ih =>
    intro s
    rw [run]
    split
    · rename_i cut h
      rw [read_eq] at h
      cases h
    · rename_i e left h
      rw [read_eq] at h
      rw [Lowering.run_cons_error (Except.ok.inj h)]
    · rename_i stmt left h
      rw [read_eq] at h
      have hr := Except.ok.inj h
      rw [(ih _ _ _ hr).1]
      show (execute opts (Lowering.inner opts stmt s) s stmt >>= _) = _
      rw [execute_eq]
      rcases hx : stmt.execute opts (Lowering.inner opts stmt s) s with ⟨s', _ | e⟩
      · rw [Lowering.run_cons_done hr hx]
        exact (ih _ _ _ hr).2 s'
      · rw [Lowering.run_cons_fail hr hx]
        rfl

end Positional

/-! ## Statements at the points of a run -/

namespace Lowering

open Statement (read)

/-- What the cuts of a statement rest on, where `tok` opens it and `rest` stands behind. -/
structure InRange (m : Macros) (tok : Token) (rest : List Token) : Prop where
  /-- a call has an opening parenthesis, and the first one stands before the last closing one -/
  call : Form.ofToken tok = .call → ∀ taken left,
    Token.upTo (Byte.rparen ∈ ·) (tok :: rest) = (taken, some left) →
      let text := Token.unwords taken
      0 ≤ text.firstAt Byte.lparen ∧ text.firstAt Byte.lparen < text.lastAt Byte.rparen ∧
        text.lastAt Byte.rparen < text.length
  comment : Form.ofToken tok = .comment → 2 ≤ tok.length
  string : Form.ofToken tok = .string → 1 ≤ tok.length
  /-- an operand has the ampersand or the base mark that is cut off -/
  operand : ∀ stmt left, read m tok rest = (.ok stmt, left) → ∀ t ∈ stmt.operands m,
    ([Byte.ampersand].isPrefixOf t → 1 ≤ t.length) ∧
      ∀ r : Radix, r.mark.isPrefixOf t → r.mark.length ≤ t.length
  /-- a statement that cannot be read has the shape that its form tells all the same -/
  shaped : ∀ e left, read m tok rest = (.error e, left) → e.category ≠ .malformed

theorem inRange (m : Macros) (tok : Token) (rest : List Token) : InRange m tok rest where
  call hf taken left hu := by
    intro text
    obtain ⟨tok', taken, rfl⟩ := Token.exists_of_upTo hu
    obtain ⟨rfl, -⟩ := List.cons.inj (Token.append_of_upTo hu)
    obtain ⟨name, inside, behind, hparts, -, hn, hb⟩ := Call.exists_parts
      (Form.isCallHead_of_ofToken hf) (by simpa using Token.exists_closing_of_upTo hu)
    have hopening := Text.firstAt_append hn (inside ++ Byte.rparen :: behind)
    have hclosing := Text.lastAt_append (name ++ Byte.lparen :: inside) hb
    rw [List.append_assoc, List.cons_append, ← hparts] at hclosing
    rw [← hparts] at hopening
    have hlength := congrArg List.length hparts
    simp only [List.length_append, List.length_cons] at hclosing hlength
    simp only [text, hopening, hclosing]
    omega
  comment hf := (Form.commentOpen_prefix_of_ofToken hf).length_le
  string hf := List.length_pos_iff.2 (Form.ne_nil_of_ofToken hf)
  operand stmt left _ t _ :=
    ⟨fun h => (List.isPrefixOf_iff_prefix.1 h).length_le,
      fun r h => (List.isPrefixOf_iff_prefix.1 h).length_le⟩
  shaped e left hr := by
    rcases Statement.category_of_read hr with hc | ⟨hc, -⟩ <;> rw [hc] <;> decide

/-- **No cut is out of range.**  At every point of a run, in blocks or not, the positions that the
    next statement is cut at are in the text: the first opening parenthesis of a call stands before
    the last closing one, a comment and a string have the bytes that open them, and an operand has
    the mark that is cut off.  So a run that checks every cut never gives up at one, and ends as the
    run does; and no source is reported as malformed. -/
theorem lowering_in_range (opts : Options) (source : Text) :
    (∀ p tok rest, Visits opts source.tokens .initial p → p.ahead = tok :: rest →
      InRange p.state.macros tok rest) ∧
    Positional.run opts source.tokens .initial = .ok (ofSource opts source) ∧
    ∀ e, lower opts source = .error e → e.category ≠ .malformed := by
  refine ⟨fun p tok rest _ _ => inRange p.state.macros tok rest,
    Positional.run_eq opts source.tokens .initial, fun e h => ?_⟩
  have htraced := traced_of_run source.tokens (fun _ ht => ht) .initial (.empty _) e
    (Ending.result_eq_error.1 h)
  exact htraced.shaped

/-- A call in a block, with an argument that has parentheses of its own, and a call that the input
    ends in. -/
theorem lowering_in_range_call :
    let opts : Options := ⟨true, false, []⟩
    let source := utf8 "label n \x7b f( a ,b(0x1F ) ); \x7d"
    let taken := [utf8 "a", utf8 ",b(0x1F", utf8 ")"]
    let p : Point := ⟨[Form.labelWord, utf8 "n", Token.lbrace], utf8 "f(" :: (taken ++ [utf8 ");"]),
      [Token.rbrace], .initial⟩
    let text := Token.unwords (utf8 "f(" :: taken)
    let e : Error := .ofFault (.unterminatedCall (utf8 "g(1 2"))
    (Visits opts source.tokens .initial p ∧ Form.ofToken (utf8 "f(") = .call ∧
      lower opts (utf8 "g(1 2") = .error e) ∧
    (text.firstAt Byte.lparen = 1 ∧ text.lastAt Byte.rparen = 13 ∧
      text.firstAt Byte.lparen < text.lastAt Byte.rparen ∧
      text.lastAt Byte.rparen < text.length) ∧
    Positional.run opts source.tokens .initial = .ok (ofSource opts source) ∧
    e.category ≠ .malformed := by
  intro opts source taken p text e
  have hp : Visits opts source.tokens .initial p := by
    let b : Block := ⟨utf8 "f(" :: (taken ++ [utf8 ");"]), true⟩
    have htoks : source.tokens =
        Form.labelWord :: utf8 "n" :: Token.lbrace :: (b.tokens ++ b.behind []) := by decide +kernel
    rw [htoks]
    exact @Visits.block opts Form.labelWord (utf8 "n") [] .initial (.label (utf8 "n") b) b _
      rfl rfl (fun _ => rfl) (.here _ _)
  have hf : Form.ofToken (utf8 "f(") = .call := by decide +kernel
  have hu : Token.upTo (Byte.rparen ∈ ·) (utf8 "f(" :: (taken ++ [utf8 ");"])) =
      (utf8 "f(" :: taken, some [utf8 ");"]) := by decide +kernel
  have he : lower opts (utf8 "g(1 2") = .error e := Ending.result_eq_error.2 (by decide +kernel)
  have hfirst : text.firstAt Byte.lparen = 1 := by decide +kernel
  have hlast : text.lastAt Byte.rparen = 13 := by decide +kernel
  obtain ⟨hrange, hrun, -⟩ := lowering_in_range opts source
  obtain ⟨-, hlt, hlength⟩ := (hrange p _ _ hp rfl).call hf _ _ hu
  obtain ⟨-, -, hshaped⟩ := lowering_in_range opts (utf8 "g(1 2")
  exact ⟨⟨hp, hf, he⟩, ⟨hfirst, hlast, hlt, hlength⟩, hrun, hshaped e he⟩

end Lowering

end BlockAsm
