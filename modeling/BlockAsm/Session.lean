/-
  BlockAsm: sessions.

  A session lowers one source and can be taken up again: after a failure it goes
  on behind the tokens it had consumed, with the macros and the text it had by
  then, and macros may be defined from outside in between.
-/
import BlockAsm.Lowering.Run

namespace BlockAsm

/-- The lowering of a source, at some point of it. -/
structure Session where
  options : Options
  /-- the tokens not yet consumed -/
  rest : List Token
  state : State

namespace Session

/-- The session at the start of a source. -/
def ofSource (options : Options) (source : Text) : Session := ⟨options, source.tokens, .initial⟩

/-- Lower what is left.  On success the text is that of everything written so far. -/
def resume (s : Session) : Except Error Text × Session :=
  let ending := Lowering.run s.options s.rest s.state
  (ending.result, ⟨s.options, ending.rest, ending.state⟩)

/-- The macros defined so far. -/
def macros (s : Session) : Macros := s.state.macros

/-- Define a macro from outside. -/
def define (s : Session) (name value : Text) : Session :=
  { s with state := { s.state with macros := s.macros.define name value } }

/-- Take a macro away from outside. -/
def undefine (s : Session) (name : Text) : Session :=
  { s with state := { s.state with macros := s.macros.undefine name } }

end Session

end BlockAsm
