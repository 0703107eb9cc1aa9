/-
  BlockAsm: sessions that are taken up again.

  A statement adds to the output and takes nothing away, whether it fails or not
  (`prefix_execute`).  So a run only adds to the output and only takes tokens, and one that fails
  has taken at least one (`progress_run`).  A session is asked to go on, to define macros or to take
  them away, in any order (`Request`); what holds of one request holds of a list of them:

  * `failures_add_remaining_le`: every failure costs a token;
  * `after_of_finished`: a session at the end of its source stays there, with its text.
-/
import BlockAsm.Proofs.Run
import BlockAsm.Session

namespace BlockAsm

/-! ## Output only grows -/

namespace Output

theorem prefix_line (out l : Text) : out <+: line out l := by
  have hclose : out <+: closeLine out := by
    unfold closeLine
    split
    · exact List.prefix_refl out
    · exact List.prefix_append out _
  rw [line, List.append_assoc]
  exact hclose.trans (List.prefix_append _ _)

theorem prefix_fragment (out t : Text) : out <+: fragment out t := by
  unfold fragment
  split <;> simp only [List.append_assoc, List.prefix_append]

theorem prefix_splice (indentation out inner : Text) : out <+: splice indentation out inner := by
  unfold splice
  split
  · exact List.prefix_refl out
  · simp only [List.append_assoc, List.prefix_append]

end Output

namespace State

theorem prefix_line (s : State) (l : Text) : s.out <+: (s.line l).out := Output.prefix_line s.out l

theorem prefix_splice (s : State) (opts : Options) (t : Text) : s.out <+: (s.splice opts t).out :=
  Output.prefix_splice opts.indentation s.out t

theorem prefix_pushAll (args : List Text) : ∀ s : State, s.out <+: (s.pushAll args).1.out := by
  induction args with
  | nil => intro s; exact List.prefix_refl s.out
  | cons arg args ih =>
    intro s
    rw [pushAll]
    split
    · exact (s.prefix_line _).trans (ih _)
    · exact List.prefix_refl s.out

end State

namespace Statement

theorem prefix_withBlock {out : Text} {s : State} {next : Text → State} (hs : out <+: s.out)
    (hn : ∀ text, out <+: (next text).out) (opts : Options) (directive : Token) (scope : Scope)
    (b : Block) (r : Except Error Text) :
    out <+: (withBlock opts s directive scope b r next).1.out := by
  by_cases hb : Admits opts b
  · rcases r with e | text
    · rw [withBlock_error _ _ _ _ hb]; exact hs
    · rw [withBlock_ok _ _ _ _ hb]; exact hn text
  · rw [withBlock_refused _ _ _ _ hb]; exact hs

/-- Whether it fails or not, a statement only adds to the output. -/
theorem prefix_execute (opts : Options) (r : Except Error Text) (s : State) (stmt : Statement) :
    s.out <+: (stmt.execute opts r s).1.out := by
  cases stmt with
  | sectionBlock kind b =>
    have hheader := s.prefix_line (utf8 "section ." ++ kind.toLower)
    exact prefix_withBlock hheader (fun _ => hheader.trans (State.prefix_splice _ _ _)) opts _ _ b r
  | label name b =>
    refine prefix_withBlock (List.prefix_refl _) (fun text => ?_) opts _ _ b r
    split
    · exact s.prefix_line _
    · exact (s.prefix_line _).trans (State.prefix_splice _ _ _)
  | global | sectionHeader | ret => exact s.prefix_line _
  | prologue | epilogue => exact (s.prefix_line _).trans (State.prefix_line _ _)
  | string t => exact Output.prefix_fragment s.out t
  | move dest src =>
    rw [execute]
    split
    · exact s.prefix_line _
    · exact List.prefix_refl _
  | call name args =>
    have hpush := State.prefix_pushAll args.reverse s
    rw [execute]
    split
    · rename_i s' he
      rw [he] at hpush
      exact hpush.trans (s'.prefix_line _)
    · rename_i s' f he
      rw [he] at hpush
      exact hpush
  | destination core =>
    show s.out <+: s.out ++ core ++ utf8 ", "
    simp only [List.append_assoc, List.prefix_append]
  | brace core =>
    rw [execute]
    split <;> exact List.prefix_refl _
  | word core terminated =>
    rw [execute]
    split
    · exact Output.prefix_fragment s.out _
    · exact List.prefix_refl _
  | define | undefine | comment => exact List.prefix_refl _

end Statement

namespace Lowering

open Statement (read)

/-- Where a run over the tokens, from the given state, may end: with more output and fewer tokens.
    None are left if it succeeds, and at least one is taken if it fails. -/
structure Ending.Progress (toks : List Token) (s : State) (e : Ending) : Prop where
  grows : s.out <+: e.state.out
  taken : e.rest <:+ toks
  finished : e.error? = none → e.rest = []
  advances : e.error? ≠ none → e.rest.length < toks.length

/-- What a run makes of the tokens behind its first statement, it makes of all tokens. -/
theorem Ending.Progress.cons {tok : Token} {rest left : List Token} {s s' : State} {e : Ending}
    (hs : s.out <+: s'.out) (hl : left <:+ rest) (h : e.Progress left s') :
    e.Progress (tok :: rest) s where
  grows := hs.trans h.grows
  taken := (h.taken.trans hl).trans (List.suffix_cons tok rest)
  finished := h.finished
  advances _ := by
    have := (h.taken.trans hl).length_le
    rw [List.length_cons]
    omega

theorem progress_run (opts : Options) (toks : List Token) :
    ∀ s : State, (run opts toks s).Progress toks s := by
  induction toks using reading_induction with
  | nil =>
    intro s
    rw [run_nil]
    exact ⟨List.prefix_refl _, List.suffix_refl _, fun _ => rfl, fun h => absurd rfl h⟩
  | cons tok rest ih =>
    intro s
    have hleft : ∀ {r : Except Error Statement} {left : List Token},
        read s.macros tok rest = (r, left) → left <:+ rest := fun hr => by
      have := Statement.suffix_read s.macros tok rest
      rwa [hr] at this
    have hout := fun stmt => Statement.prefix_execute opts (inner opts stmt s) s stmt
    -- a failing statement ends the run with the tokens behind it left
    have hfail : ∀ {left : List Token} {s' : State} {e : Error}, s.out <+: s'.out →
        left <:+ rest → Ending.Progress (tok :: rest) s ⟨left, s', some e⟩ := fun hs hl =>
      ⟨hs, hl.trans (List.suffix_cons tok rest), nofun, fun _ => Nat.lt_succ_of_le hl.length_le⟩
    rcases run_cons_cases opts tok rest s with
      ⟨e, left, hr⟩ | ⟨stmt, left, hr, ⟨s', e, hx⟩ | ⟨s', hx⟩⟩
    · rw [run_cons_error hr]
      exact hfail (List.prefix_refl _) (hleft hr)
    · rw [run_cons_fail hr hx]
      have := hout stmt
      rw [hx] at this
      exact hfail this (hleft hr)
    · rw [run_cons_done hr hx]
      have := hout stmt
      rw [hx] at this
      exact .cons this (hleft hr) ((ih _ _ _ hr).2 s')

end Lowering

/-! ## Requests -/

namespace Session

/-- What a session can be asked for. -/
inductive Request where
  /-- lower what is left -/
  | resume
  /-- define a macro from outside -/
  | define (name value : Text)
  /-- take a macro away from outside -/
  | undefine (name : Text)
  deriving DecidableEq, Repr

/-- The session after a request. -/
def serve (s : Session) : Request → Session
  | .resume => s.resume.2
  | .define name value => s.define name value
  | .undefine name => s.undefine name

/-- The session after some requests. -/
def after (s : Session) (requests : List Request) : Session := requests.foldl serve s

/-- What the session answers when it is asked to go on, one answer after the other. -/
def answers (s : Session) : List Request → List (Except Error Text)
  | [] => []
  | .resume :: requests => s.resume.1 :: s.resume.2.answers requests
  | .define name value :: requests => (s.define name value).answers requests
  | .undefine name :: requests => (s.undefine name).answers requests

/-- How many tokens are left. -/
def remaining (s : Session) : Nat := s.rest.length

/-- How often the session fails. -/
def failures (s : Session) (requests : List Request) : Nat :=
  (s.answers requests).countP fun answer => !answer.isOk

variable (s : Session)

theorem progress_resume :
    (Lowering.run s.options s.rest s.state).Progress s.rest s.state :=
  Lowering.progress_run s.options s.rest s.state

/-- Whatever is asked for, the output only grows. -/
theorem prefix_serve (r : Request) : s.state.out <+: (s.serve r).state.out := by
  cases r with
  | resume => exact s.progress_resume.grows
  | define | undefine => exact List.prefix_refl _

/-- Whatever is asked for, tokens are only taken. -/
theorem suffix_serve (r : Request) : (s.serve r).rest <:+ s.rest := by
  cases r with
  | resume => exact s.progress_resume.taken
  | define | undefine => exact List.suffix_refl _

variable {s}

theorem resume_eq_error {e : Error} :
    s.resume.1 = .error e ↔ (Lowering.run s.options s.rest s.state).error? = some e :=
  Lowering.Ending.result_eq_error

/-- A failure takes a token. -/
theorem remaining_lt_of_error {e : Error} (h : s.resume.1 = .error e) :
    s.resume.2.remaining < s.remaining :=
  s.progress_resume.advances (by rw [resume_eq_error.1 h]; exact Option.some_ne_none e)

/-- A session that succeeds is at the end of its source, and its text is that of its output. -/
theorem finished_of_ok {text : Text} (h : s.resume.1 = .ok text) :
    s.resume.2.rest = [] ∧ text = Layout.tidy s.resume.2.state.out := by
  obtain ⟨hnone, htext⟩ := Lowering.Ending.result_eq_ok.1 h
  exact ⟨s.progress_resume.finished hnone, htext⟩

/-- Every failure costs a token. -/
theorem failures_add_remaining_le (requests : List Request) :
    ∀ s : Session, s.failures requests + (s.after requests).remaining ≤ s.remaining := by
  induction requests with
  | nil =>
    intro s
    exact Nat.le_of_eq (Nat.zero_add _)
  | cons r requests ih =>
    intro s
    have hih := ih (s.serve r)
    have hle : (s.serve r).remaining ≤ s.remaining := (s.suffix_serve r).length_le
    have hafter : s.after (r :: requests) = (s.serve r).after requests := rfl
    rw [hafter]
    cases r with
    | define | undefine => exact Nat.le_trans hih hle
    | resume =>
      have hfailures : s.failures (.resume :: requests) =
          s.resume.2.failures requests + if !s.resume.1.isOk then 1 else 0 := List.countP_cons
      rw [hfailures]
      cases hr : s.resume.1 with
      | ok text => exact Nat.le_trans hih hle
      | error e =>
        have hlt := remaining_lt_of_error hr
        simp only [serve] at hih
        simp only [Except.isOk, Except.toBool, Bool.not_false, if_true, serve]
        omega

/-! ## Finished sessions -/

theorem resume_of_finished (h : s.rest = []) :
    s.resume = (.ok (Layout.tidy s.state.out), s) := by
  obtain ⟨opts, rest, st⟩ := s
  obtain rfl : rest = [] := h
  simp only [resume, Lowering.run_nil]
  rfl

/-- A finished session keeps its output, whatever it is asked for. -/
theorem serve_of_finished (h : s.rest = []) (r : Request) :
    (s.serve r).rest = [] ∧ (s.serve r).state.out = s.state.out := by
  cases r with
  | resume => rw [serve, resume_of_finished h]; exact ⟨h, rfl⟩
  | define | undefine => exact ⟨h, rfl⟩

theorem after_of_finished (requests : List Request) : ∀ {s : Session}, s.rest = [] →
    (s.after requests).rest = [] ∧ (s.after requests).state.out = s.state.out := by
  induction requests with
  | nil => intro s h; exact ⟨h, rfl⟩
  | cons r requests ih =>
    intro s h
    obtain ⟨hrest, hout⟩ := serve_of_finished h r
    obtain ⟨hrest', hout'⟩ := ih hrest
    exact ⟨hrest', hout'.trans hout⟩

/-- **A session that is taken up again makes progress and loses no text.**  At every point of it,
    whatever was asked for before, any request only adds to the output and leaves no more tokens than
    there were, and fewer if it fails.  So a session fails at most once for each token of its source.
    Once it succeeds, it succeeds ever after, with the same text and without a change to the
    macros, whatever is defined or taken away in between. -/
theorem session_makes_progress (opts : Options) (source : Text) (requests : List Request) :
    let start := ofSource opts source
    let s := start.after requests
    (∀ r, s.state.out <+: (s.serve r).state.out ∧ (s.serve r).remaining ≤ s.remaining) ∧
    (∀ e, s.resume.1 = .error e → s.resume.2.remaining < s.remaining) ∧
    start.failures requests + s.remaining ≤ source.tokens.length ∧
    ∀ text, s.resume.1 = .ok text → ∀ later,
      let s' := s.resume.2.after later
      s'.resume.1 = .ok text ∧ s'.resume.2.macros = s'.macros := by
  intro start s
  refine ⟨fun r => ⟨s.prefix_serve r, (s.suffix_serve r).length_le⟩, fun e => remaining_lt_of_error,
    failures_add_remaining_le requests start, fun text h later => ?_⟩
  obtain ⟨hrest, rfl⟩ := finished_of_ok h
  obtain ⟨hrest', hout⟩ := after_of_finished later hrest
  simp only [resume_of_finished hrest', hout, and_self]

/-- A section without a block, a word and an argument with bad values from outside: the session fails
    three times, each time behind some text, and then drops a brace and succeeds. -/
theorem session_makes_progress_thrice :
    let start := ofSource {} (utf8 "$section text move rax <- X; f(Y, 1); \x7d")
    let requests : List Request :=
      [.resume, .define (utf8 "X") (utf8 "0xZ"), .resume, .define (utf8 "Y") (utf8 "0b2")]
    let s := start.after requests
    let last := start.after (requests ++ [.resume])
    let e : Error := ⟨[.callOf (utf8 "f")], .badLiteral (.badDigits (utf8 "0b2") .binary)⟩
    let text := utf8 "section .text\nrax,\npush 1\n"
    (s.resume.1 = .error e ∧ last.resume.1 = .ok text) ∧
    (s.state.out = utf8 "section .text\nrax, " ∧ s.state.out <+: s.resume.2.state.out) ∧
    last.remaining < s.remaining ∧
    (start.failures (requests ++ [.resume]) = 3 ∧ 3 + last.remaining ≤ 9) ∧
    ∀ later, (last.resume.2.after later).resume.1 = .ok text ∧
      (last.resume.2.after later).resume.2.macros = (last.resume.2.after later).macros := by
  intro start requests s last e text
  have he : s.resume.1 = .error e := resume_eq_error.2 (by decide +kernel)
  have ht : last.resume.1 = .ok text := Lowering.Ending.result_eq_ok.2 (by decide +kernel)
  have hout : s.state.out = utf8 "section .text\nrax, " := by decide +kernel
  have hfailures : start.failures (requests ++ [.resume]) = 3 := by decide +kernel
  obtain ⟨hserve, hfail, -⟩ := session_makes_progress {} _ requests
  obtain ⟨-, -, hcount, hok⟩ := session_makes_progress {} _ (requests ++ [.resume])
  rw [hfailures] at hcount
  exact ⟨⟨he, ht⟩, ⟨hout, (hserve .resume).1⟩, hfail e he, ⟨hfailures, hcount⟩, hok text ht⟩

end Session

end BlockAsm
