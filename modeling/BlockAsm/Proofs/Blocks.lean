/-
  BlockAsm: reading blocks.

  * `Balanced`: tokens that open and close their braces in pairs;
  * `read_balanced`: balanced tokens between two braces are a block;
  * `read_eq_ok_iff`, `eq_of_read_error`: what a block is, closed or open, and what is taken where
    none is.
-/
import BlockAsm.Statement.Reader

namespace BlockAsm

namespace Block

/-! ## One token at a time -/

section
variable (depth : Nat) (rest : List Token)

theorem scan_rbrace_zero : scan 0 (Token.rbrace :: rest) = (⟨[], true⟩, rest) := rfl

theorem scan_rbrace_succ : scan (depth + 1) (Token.rbrace :: rest) =
    ((scan depth rest).1.cons Token.rbrace, (scan depth rest).2) := rfl

theorem scan_lbrace : scan depth (Token.lbrace :: rest) =
    ((scan (depth + 1) rest).1.cons Token.lbrace, (scan (depth + 1) rest).2) := by
  have h : Token.lbrace ≠ Token.rbrace := by decide
  simp [scan, h]

theorem scan_cons {tok : Token} (hl : tok ≠ Token.lbrace) (hr : tok ≠ Token.rbrace) :
    scan depth (tok :: rest) = ((scan depth rest).1.cons tok, (scan depth rest).2) := by
  simp [scan, hr, hl]

theorem read_lbrace : read (Token.lbrace :: rest) = (.ok (scan 0 rest).1, (scan 0 rest).2) := by
  rw [read, if_pos rfl]

theorem read_cons {tok : Token} (h : tok ≠ Token.lbrace) :
    read (tok :: rest) = (.error (.noBlock (some tok)), rest) := by
  rw [read, if_neg h]

end

end Block

/-! ## Balanced tokens -/

namespace Token

/-- How many braces are open behind the tokens, with `depth` open in front of them; none if
    a brace closes nothing. -/
def depth? : Nat → List Token → Option Nat
  | depth, [] => some depth
  | depth, tok :: rest =>
    if tok = lbrace then depth? (depth + 1) rest
    else if tok = rbrace then
      match depth with
      | 0 => none
      | depth + 1 => depth? depth rest
    else depth? depth rest

/-- No brace closes nothing, and no brace stays open. -/
def Balanced (toks : List Token) : Prop := depth? 0 toks = some 0

section
variable (depth : Nat) (rest : List Token)

theorem depth?_lbrace : depth? depth (lbrace :: rest) = depth? (depth + 1) rest := by
  simp [depth?]

theorem depth?_rbrace_succ : depth? (depth + 1) (rbrace :: rest) = depth? depth rest := rfl

theorem depth?_cons {tok : Token} (hl : tok ≠ lbrace) (hr : tok ≠ rbrace) :
    depth? depth (tok :: rest) = depth? depth rest := by
  simp [depth?, hl, hr]

end

theorem depth?_append (toks toks' : List Token) :
    ∀ depth, depth? depth (toks ++ toks') = (depth? depth toks).bind (depth? · toks') := by
  induction toks with
  | nil => intro depth; rfl
  | cons tok toks ih =>
    intro depth
    rw [List.cons_append]
    by_cases hl : tok = lbrace
    · subst hl
      rw [depth?_lbrace, depth?_lbrace, ih]
    · by_cases hr : tok = rbrace
      · subst hr
        cases depth with
        | zero => rfl
        | succ depth => rw [depth?_rbrace_succ, depth?_rbrace_succ, ih]
      · rw [depth?_cons _ _ hl hr, depth?_cons _ _ hl hr, ih]

/-- Braces that are open around the tokens stay open. -/
theorem depth?_add {toks : List Token} (n : Nat) : ∀ {depth depth' : Nat},
    depth? depth toks = some depth' → depth? (depth + n) toks = some (depth' + n) := by
  induction toks with
  | nil => rintro depth _ ⟨⟩; rfl
  | cons tok toks ih =>
    intro depth depth' h
    by_cases hl : tok = lbrace
    · subst hl
      rw [depth?_lbrace] at h ⊢
      rw [Nat.add_right_comm]
      exact ih h
    · by_cases hr : tok = rbrace
      · subst hr
        cases depth with
        | zero => cases h
        | succ depth =>
          rw [Nat.add_right_comm]
          exact ih h
      · rw [depth?_cons _ _ hl hr] at h ⊢
        exact ih h

theorem Balanced.nil : Balanced [] := rfl

theorem Balanced.cons {tok : Token} (hl : tok ≠ lbrace) (hr : tok ≠ rbrace) {toks : List Token}
    (h : Balanced toks) : Balanced (tok :: toks) := by
  rw [Balanced, depth?_cons _ _ hl hr]; exact h

theorem Balanced.append {toks toks' : List Token} (h : Balanced toks) (h' : Balanced toks') :
    Balanced (toks ++ toks') := by
  rw [Balanced, depth?_append, h]; exact h'

theorem Balanced.block {toks : List Token} (h : Balanced toks) :
    Balanced (lbrace :: toks ++ [rbrace]) := by
  have h1 : depth? 1 toks = some 1 := depth?_add 1 h
  rw [Balanced, List.cons_append, depth?_lbrace, depth?_append, h1]; rfl

end Token

namespace Block

/-- The tokens in front of a block that is read on `depth'` braces deep. -/
theorem scan_of_depth? (rest : List Token) : ∀ {toks : List Token} {depth depth' : Nat},
    Token.depth? depth toks = some depth' → scan depth (toks ++ rest) =
      (⟨toks ++ (scan depth' rest).1.tokens, (scan depth' rest).1.closed⟩, (scan depth' rest).2)
  | [], _, _, h => by cases h; rfl
  | tok :: toks, depth, depth', h => by
    rw [List.cons_append]
    by_cases hl : tok = Token.lbrace
    · subst hl
      rw [Token.depth?_lbrace] at h
      rw [scan_lbrace, scan_of_depth? rest h]; rfl
    · by_cases hr : tok = Token.rbrace
      · subst hr
        cases depth with
        | zero => cases h
        | succ depth =>
          rw [Token.depth?_rbrace_succ] at h
          rw [scan_rbrace_succ, scan_of_depth? rest h]; rfl
      · rw [Token.depth?_cons _ _ hl hr] at h
        rw [scan_cons _ _ hl hr, scan_of_depth? rest h]; rfl

/-- Balanced tokens between two braces are a block. -/
theorem read_balanced {toks : List Token} (h : Token.Balanced toks) (rest : List Token) :
    read (Token.lbrace :: toks ++ Token.rbrace :: rest) = (.ok ⟨toks, true⟩, rest) := by
  rw [List.cons_append, read_lbrace, scan_of_depth? _ h, scan_rbrace_zero, List.append_nil]

/-- What stands behind the tokens of a block: its closing brace and the tokens left, or nothing
    if the block is open. -/
def behind (b : Block) (left : List Token) : List Token :=
  if b.closed then Token.rbrace :: left else []

/-- No brace of the tokens closes nothing, and none stays open if the block is closed. -/
def IsFormed (b : Block) : Prop :=
  ∃ depth, Token.depth? 0 b.tokens = some depth ∧ (b.closed = true → depth = 0)

theorem eq_of_scan : ∀ {toks left : List Token} {depth : Nat} {b : Block},
    scan depth toks = (b, left) → toks = b.tokens ++ b.behind left ∧
      (b.closed = false → left = []) ∧
      ∃ depth', Token.depth? depth b.tokens = some depth' ∧ (b.closed = true → depth' = 0)
  | [], left, depth, b, h => by
    cases h
    exact ⟨rfl, fun _ => rfl, depth, rfl, nofun⟩
  | tok :: toks, left, depth, b, h => by
    by_cases hr : tok = Token.rbrace
    · subst hr
      cases depth with
      | zero => cases h; exact ⟨rfl, nofun, 0, rfl, fun _ => rfl⟩
      | succ depth =>
        rw [scan_rbrace_succ] at h
        cases h
        obtain ⟨h1, h2, depth', h3, h4⟩ := eq_of_scan (Prod.ext rfl rfl : scan depth toks = _)
        exact ⟨congrArg _ h1, h2, depth', h3, h4⟩
    · by_cases hl : tok = Token.lbrace
      · subst hl
        rw [scan_lbrace] at h
        cases h
        obtain ⟨h1, h2, depth', h3, h4⟩ := eq_of_scan (Prod.ext rfl rfl : scan (depth + 1) toks = _)
        exact ⟨congrArg _ h1, h2, depth', (Token.depth?_lbrace ..).trans h3, h4⟩
      · rw [scan_cons _ _ hl hr] at h
        cases h
        obtain ⟨h1, h2, depth', h3, h4⟩ := eq_of_scan (Prod.ext rfl rfl : scan depth toks = _)
        exact ⟨congrArg _ h1, h2, depth', (Token.depth?_cons _ _ hl hr).trans h3, h4⟩

/-- **What a block is.**  The tokens start with a brace, and the block is what stands between it
    and the brace that closes it, or all the rest if none does. -/
theorem read_eq_ok_iff {toks left : List Token} {b : Block} : read toks = (.ok b, left) ↔
    toks = Token.lbrace :: (b.tokens ++ b.behind left) ∧ b.IsFormed ∧
      (b.closed = false → left = []) := by
  constructor
  · intro h
    cases toks with
    | nil => cases h
    | cons tok toks =>
      by_cases ht : tok = Token.lbrace
      · subst ht
        rw [read_lbrace] at h
        cases h
        obtain ⟨h1, h2, h3⟩ := eq_of_scan (Prod.ext rfl rfl : scan 0 toks = _)
        exact ⟨congrArg _ h1, h3, h2⟩
      · rw [read_cons _ ht] at h; cases h
  · obtain ⟨toks', closed⟩ := b
    rintro ⟨rfl, ⟨depth, hd, hc⟩, ho⟩
    cases closed with
    | true => obtain rfl := hc rfl; exact read_balanced hd left
    | false =>
      obtain rfl := ho rfl
      rw [read_lbrace, scan_of_depth? _ hd]
      simp [behind, scan]

/-- Where no block stands, the token that does is taken. -/
theorem eq_of_read_error {toks left : List Token} {f : Fault}
    (h : read toks = (.error f, left)) : f = .noBlock toks.head? ∧ left = toks.tail := by
  cases toks with
  | nil => cases h; exact ⟨rfl, rfl⟩
  | cons tok rest =>
    by_cases ht : tok = Token.lbrace
    · subst ht
      rw [read_lbrace] at h
      cases h
    · rw [read_cons rest ht] at h
      cases h
      exact ⟨rfl, rfl⟩

/-- A closed block is the same whatever stands behind it. -/
theorem eq_of_read_closed {toks left : List Token} {b : Block} (h : read toks = (.ok b, left))
    (hb : b.closed = true) :
    toks = Token.lbrace :: b.tokens ++ [Token.rbrace] ++ left ∧ ∀ left' : List Token,
      read (Token.lbrace :: b.tokens ++ [Token.rbrace] ++ left') = (.ok b, left') := by
  obtain ⟨rfl, hf, -⟩ := read_eq_ok_iff.1 h
  have hbehind : ∀ left' : List Token, Token.lbrace :: (b.tokens ++ b.behind left') =
      Token.lbrace :: b.tokens ++ [Token.rbrace] ++ left' := by
    intro left'
    simp [behind, hb]
  refine ⟨hbehind left, fun left' => read_eq_ok_iff.2 ⟨(hbehind left').symm, hf, fun ho => ?_⟩⟩
  rw [hb] at ho
  cases ho

end Block

/-! ## Sections and labels -/

namespace Statement

section
variable {directive kind : Token} {rest left : List Token} {b : Block} {f : Fault}

theorem readSection_ok (h : Block.read rest = (.ok b, left)) :
    readSection directive (kind :: rest) = (.ok (.sectionBlock kind b), left) := by
  rw [readSection, h]

theorem readSection_error (h : Block.read rest = (.error f, left)) :
    readSection directive (kind :: rest) = (.ok (.sectionHeader kind f), left) := by
  rw [readSection, h]

theorem readLabel_ok (h : Block.read rest = (.ok b, left)) :
    readLabel directive (kind :: rest) = (.ok (.label kind b), left) := by
  rw [readLabel, h]

theorem readLabel_error (h : Block.read rest = (.error f, left)) :
    readLabel directive (kind :: rest) = (.error ⟨[.directive directive], f⟩, left) := by
  rw [readLabel, h]

end

end Statement

end BlockAsm
