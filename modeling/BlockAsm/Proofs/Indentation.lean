/-
  BlockAsm: indentation puts nothing but prefixes in front of lines.

  A run is followed for all indentations of spaces and tabulators at once: its output is a
  function of the indentation.  `Shifted` compares two texts line by line, `Uniform` says
  that the depths of the lines do not depend on the indentation and that the first line has
  none.  The output of a run is at every point a uniform text with all its lines finished
  and, behind it, a text that is the same for all indentations (`Steady`).

  * `steady_execute`, `steady_run`: statements and runs keep that;
  * `indentation_shifts`: so two outputs differ in the prefixes of their lines only.
-/
import BlockAsm.Proofs.Frame
import BlockAsm.Proofs.Layout
import Mathlib.Data.List.TakeWhile

namespace BlockAsm

namespace Layout

/-- A line behind `depth` indentations; an empty line stays empty. -/
def shift (i : Text) (depth : Nat) (l : Text) : Text :=
  if l = [] then [] else (List.replicate depth i).flatten ++ l

/-- The lines of `t'` are the lines of `t`, each shifted by its depth. -/
def Shifted (i : Text) (depths : List Nat) (t t' : Text) : Prop :=
  depths.length = (lines t).length ∧ lines t' = List.zipWith (shift i) depths (lines t)

/-! ## Shifting lines -/

@[simp]
theorem shift_zero (i l : Text) : shift i 0 l = l := indentLine_nil l

theorem indentLine_shift (i : Text) (d : Nat) (l : Text) :
    indentLine i (shift i d l) = shift i (d + 1) l :=
  indentLine_indentLine i (List.replicate d i).flatten l

/-- Spacing in front of a line does not keep its end from being trimmed. -/
theorem trimRight_spacing_append {i : Text} (hi : IsSpacing i) (l : Text) :
    (i ++ l).trimRight = if l.trimRight = [] then [] else i ++ l.trimRight := by
  split
  · rename_i h
    obtain ⟨-, gap, rfl, hgap⟩ := trimRight_eq_iff.1 h
    exact trimRight_append_spacing [] (hi.append hgap)
  · rename_i h; exact trimRight_append h

/-- Tidying a line goes past the spacing in front of it. -/
theorem tidyLine_spacing_append {i : Text} (hi : IsSpacing i) (l : Text) :
    tidyLine (i ++ l) = if tidyLine l = [] then [] else i ++ tidyLine l := by
  unfold tidyLine
  rw [trimRight_spacing_append hi l]
  split
  · rename_i h; rw [h]; rfl
  · rename_i h
    rw [Text.dropTerminator, Text.dropEnd_append i h, trimRight_spacing_append hi]
    rfl

theorem isSpacing_flatten {i : Text} (hi : IsSpacing i) (d : Nat) :
    IsSpacing (List.replicate d i).flatten := fun b hb => hi b (mem_of_mem_levels hb)

theorem tidied_shift {i : Text} (hi : IsSpacing i) (d : Nat) (l : Text) :
    tidied (shift i d l) = shift i d (tidied l) := by
  by_cases hl : l = []
  · subst hl; rfl
  · have hs := isSpacing_flatten hi d
    have hb : dropBraces (List.replicate d i).flatten = (List.replicate d i).flatten := by
      refine dropBraces_of_forall fun b hb => ?_
      have := hs b hb
      simp only [Byte.isSpacing, Bool.or_eq_true, beq_iff_eq] at this
      rcases this with rfl | rfl <;> rfl
    rw [shift, if_neg hl, tidied, dropBraces_append, hb, tidyLine_spacing_append hs]
    rfl

namespace Shifted

variable {i : Text} {ds es : List Nat} {t t' u u' : Text}

theorem refl (i t : Text) : Shifted i (List.replicate (lines t).length 0) t t := by
  refine ⟨by simp, ?_⟩
  generalize lines t = ls
  induction ls with
  | nil => rfl
  | cons l ls ih =>
    rw [List.length_cons, List.replicate_succ, List.zipWith_cons_cons, ← ih, shift_zero]

theorem append (h : Shifted i ds t t') (k : Shifted i es u u') :
    Shifted i (ds ++ es) (t ++ Byte.newline :: u) (t' ++ Byte.newline :: u') := by
  refine ⟨by simp [lines_append_newline, h.1, k.1], ?_⟩
  rw [lines_append_newline, lines_append_newline, List.zipWith_append h.1, h.2, k.2]

theorem tidy (hi : IsSpacing i) (h : Shifted i ds t t') :
    Shifted i ds (Layout.tidy t) (Layout.tidy t') := by
  refine ⟨by rw [lines_tidy, List.length_map, h.1], ?_⟩
  rw [lines_tidy, lines_tidy, h.2, List.map_zipWith, List.zipWith_map_right]
  simp only [tidied_shift hi]

theorem indent (hi : IsSpacing i) (h : Shifted i ds t t') :
    Shifted i (ds.map (· + 1)) t (Layout.indent i t') := by
  refine ⟨by rw [List.length_map, h.1], ?_⟩
  rw [lines_indent (hi.not_mem (by decide)), h.2, List.map_zipWith, List.zipWith_map_left]
  simp only [indentLine_shift]

theorem cons (h : Shifted i (0 :: ds) t t') {b : UInt8} (hb : b ≠ Byte.newline) :
    Shifted i (0 :: ds) (b :: t) (b :: t') := by
  obtain ⟨l, ls, ht⟩ := List.exists_cons_of_ne_nil (lines_ne_nil t)
  obtain ⟨hlen, hls⟩ := h
  rw [ht, List.zipWith_cons_cons, shift_zero] at hls
  rw [ht] at hlen
  rw [Shifted, lines_cons hb ht, lines_cons hb hls, List.zipWith_cons_cons, shift_zero]
  exact ⟨hlen, rfl⟩

end Shifted

/-! ## Texts that depend on the indentation -/

/-- The lines have the same depths for all indentations. -/
def Even (f : Text → Text) : Prop := ∃ ds, ∀ i, IsSpacing i → Shifted i ds (f []) (f i)

/-- The lines have the same depths for all indentations, and the first has none. -/
def Uniform (f : Text → Text) : Prop := ∃ ds, ∀ i, IsSpacing i → Shifted i (0 :: ds) (f []) (f i)

theorem Even.indent {f : Text → Text} (h : Even f) : Even fun i => Layout.indent i (f i) := by
  obtain ⟨ds, h⟩ := h
  refine ⟨ds.map (· + 1), fun i hi => ?_⟩
  simp only [indent_nil_left]
  exact (h i hi).indent hi

namespace Uniform

variable {f g : Text → Text}

theorem even (h : Uniform f) : Even f := by
  obtain ⟨ds, h⟩ := h
  exact ⟨0 :: ds, h⟩

theorem congr (h : Uniform f) (hfg : ∀ i, IsSpacing i → g i = f i) : Uniform g := by
  obtain ⟨ds, h⟩ := h
  refine ⟨ds, fun i hi => ?_⟩
  rw [hfg i hi, hfg [] isSpacing_nil]
  exact h i hi

theorem const (t : Text) : Uniform fun _ => t := by
  obtain ⟨l, ls, ht⟩ := List.exists_cons_of_ne_nil (lines_ne_nil t)
  refine ⟨List.replicate ls.length 0, fun i _ => ?_⟩
  have := Shifted.refl i t
  rwa [ht, List.length_cons, List.replicate_succ] at this

theorem append (hf : Uniform f) (hg : Even g) : Uniform fun i => f i ++ Byte.newline :: g i := by
  obtain ⟨ds, hf⟩ := hf
  obtain ⟨es, hg⟩ := hg
  exact ⟨ds ++ es, fun i hi => (hf i hi).append (hg i hi)⟩

theorem tidy (h : Uniform f) : Uniform fun i => Layout.tidy (f i) := by
  obtain ⟨ds, h⟩ := h
  exact ⟨ds, fun i hi => (h i hi).tidy hi⟩

theorem prepend (h : Uniform f) (t : Text) : Uniform fun i => t ++ f i := by
  induction t with
  | nil => exact h
  | cons b t ih =>
    by_cases hb : b = Byte.newline
    · subst hb
      exact (Uniform.const []).append ih.even
    · obtain ⟨ds, ih⟩ := ih
      exact ⟨ds, fun i hi => (ih i hi).cons hb⟩

end Uniform

/-- Finished lines of depths that are the same for all indentations. -/
def Front (f : Text → Text) : Prop :=
  (∀ i, IsSpacing i → f i = []) ∨
    ∃ g, Uniform g ∧ ∀ i, IsSpacing i → f i = g i ++ [Byte.newline]

/-- Finished lines of the same depths for all indentations, and a text that is the same for
    all indentations behind them. -/
def Steady (f : Text → Text) : Prop :=
  ∃ front t, Front front ∧ ∀ i, IsSpacing i → f i = front i ++ t

namespace Front

variable {f g : Text → Text}

theorem closed (h : Front f) {i : Text} (hi : IsSpacing i) : Output.Closed (f i) := by
  rcases h with h | ⟨g, -, h⟩
  · exact Or.inl (h i hi)
  · exact Output.closed_iff.2 (Or.inr ⟨g i, h i hi⟩)

theorem uniform_append (hf : Front f) (hg : Uniform g) : Uniform fun i => f i ++ g i := by
  rcases hf with hf | ⟨k, hk, hf⟩
  · exact hg.congr fun i hi => by rw [hf i hi, List.nil_append]
  · exact (hk.append hg.even).congr fun i hi => by rw [hf i hi, List.append_assoc]; rfl

theorem append (hf : Front f) (hg : Front g) : Front fun i => f i ++ g i := by
  rcases hg with hg | ⟨k, hk, hg⟩
  · rcases hf with hf | ⟨j, hj, hf⟩
    · exact Or.inl fun i hi => by simp only [hf i hi, hg i hi, List.append_nil]
    · exact Or.inr ⟨j, hj, fun i hi => by simp only [hf i hi, hg i hi, List.append_nil]⟩
  · exact Or.inr ⟨_, hf.uniform_append hk, fun i hi => by simp only [hg i hi, List.append_assoc]⟩

theorem tidy (h : Front f) : Front fun i => Layout.tidy (f i) := by
  rcases h with h | ⟨g, hg, h⟩
  · exact Or.inl fun i hi => by simp only [h i hi, tidy_nil]
  · exact Or.inr ⟨_, hg.tidy, fun i hi => by simp only [h i hi, tidy_append_newline, tidy_nil]⟩

theorem steady (h : Front f) : Steady f := ⟨f, [], h, fun i _ => (List.append_nil (f i)).symm⟩

end Front

namespace Steady

variable {f g : Text → Text}

theorem const (t : Text) : Steady fun _ => t :=
  ⟨fun _ => [], t, Or.inl fun _ _ => rfl, fun _ _ => rfl⟩

theorem uniform (h : Steady f) : Uniform f := by
  obtain ⟨front, t, hf, h⟩ := h
  exact (hf.uniform_append (Uniform.const t)).congr h

theorem prepend (hf : Front f) (hg : Steady g) : Steady fun i => f i ++ g i := by
  obtain ⟨front, t, hk, hg⟩ := hg
  exact ⟨_, t, hf.append hk, fun i hi => by simp only [hg i hi, List.append_assoc]⟩

theorem tidy (h : Steady f) : Steady fun i => Layout.tidy (f i) := by
  obtain ⟨front, t, hf, h⟩ := h
  exact ⟨_, Layout.tidy t, hf.tidy, fun i hi => by
    simp only [h i hi, Output.tidy_append_of_closed (hf.closed hi)]⟩

theorem empty_or_nonempty (h : Steady f) :
    (∀ i, IsSpacing i → f i = []) ∨ ∀ i, IsSpacing i → f i ≠ [] := by
  obtain ⟨front, t, hf, h⟩ := h
  by_cases ht : t = []
  · rcases hf with hf | ⟨g, -, hf⟩
    · exact Or.inl fun i hi => by rw [h i hi, hf i hi, ht]; rfl
    · exact Or.inr fun i hi => by rw [h i hi, hf i hi]; simp
  · exact Or.inr fun i hi => by rw [h i hi]; simp [ht]

theorem dropEnd (h : Steady f) : Uniform fun i => (f i).dropEnd Byte.newline := by
  obtain ⟨front, t, hf, h⟩ := h
  by_cases ht : t = []
  · subst ht
    rcases hf with hf | ⟨g, hg, hf⟩
    · exact (Uniform.const []).congr fun i hi => by simp only [h i hi, hf i hi]; rfl
    · refine hg.congr fun i hi => ?_
      simp only [h i hi, hf i hi, List.append_nil, Text.dropEnd_append_singleton]
  · refine (hf.uniform_append (Uniform.const (t.dropEnd Byte.newline))).congr fun i hi => ?_
    simp only [h i hi, Text.dropEnd_append _ ht]

/-- A block behind a finished line. -/
theorem splice (h : Steady f) {out : Text} (ho : out.endsIn Byte.newline = true) :
    Steady fun i => Output.splice i out (f i) := by
  obtain ⟨front, rfl⟩ := Text.endsIn_iff.1 ho
  rcases h.empty_or_nonempty with he | hne
  · refine ⟨fun _ => [], front ++ [Byte.newline], Or.inl fun _ _ => rfl, fun i hi => ?_⟩
    simp only [Output.splice, he i hi, if_true, List.nil_append]
  · refine Front.steady (Or.inr
      ⟨_, (Uniform.const front).append h.dropEnd.even.indent, fun i hi => ?_⟩)
    simp only [Output.splice_of_ne_nil _ _ (hne i hi), List.append_assoc, List.cons_append,
      List.nil_append]

/-- A block on the line of its label. -/
theorem line (h : Steady f) (out head : Text) :
    Steady fun i => Output.line out (head ++ (f i).dropEnd Byte.newline) := by
  refine Front.steady (Or.inr
    ⟨_, h.dropEnd.prepend (Output.closeLine out ++ head), fun i _ => ?_⟩)
  simp only [Output.line, List.append_assoc]

end Steady

end Layout

/-! ## Statements and runs -/

open Layout (IsSpacing Steady Front)

namespace Statement

/-- An outcome that is a steady text, or the same error for all indentations. -/
def SteadyOutcome (r : Text → Except Error Text) : Prop :=
  (∃ e, ∀ i, IsSpacing i → r i = .error e) ∨
    ∃ f, Steady f ∧ ∀ i, IsSpacing i → r i = .ok (f i)

/-- Effects with the same macros and error, and steady output, for all indentations. -/
def SteadyEffect (x : Text → Effect) : Prop :=
  ∃ m f e, Steady f ∧ ∀ i, IsSpacing i → x i = (⟨m, f i⟩, e)

theorem steadyEffect_const (x : Effect) : SteadyEffect fun _ => x :=
  ⟨x.1.macros, fun _ => x.1.out, x.2, Steady.const _, fun _ _ => rfl⟩

section
variable (inh str : Bool) {r : Text → Except Error Text}

theorem steady_withBlock (hr : SteadyOutcome r) (s : State) (directive : Token) (scope : Scope)
    (b : Block) {next : Text → Text → State} {m : Macros}
    (hn : ∀ f, Steady f → ∃ g, Steady g ∧ ∀ i, IsSpacing i → next i (f i) = ⟨m, g i⟩) :
    SteadyEffect fun i => withBlock ⟨inh, str, i⟩ s directive scope b (r i) (next i) := by
  by_cases hb : str = true → b.closed = true
  · have ha : ∀ i, Admits ⟨inh, str, i⟩ b := fun _ => hb
    rcases hr with ⟨e, hr⟩ | ⟨f, hf, hr⟩
    · refine ⟨s.macros, fun _ => s.out, some (e.within scope), Steady.const _, fun i hi => ?_⟩
      simp only [hr i hi, withBlock_error _ _ _ _ (ha i)]; rfl
    · obtain ⟨g, hg, hn⟩ := hn f hf
      refine ⟨m, g, none, hg, fun i hi => ?_⟩
      simp only [hr i hi, withBlock_ok _ _ _ _ (ha i), hn i hi]; rfl
  · have ha : ∀ i, ¬ Admits ⟨inh, str, i⟩ b := fun _ => hb
    refine ⟨s.macros, fun _ => s.out, some (.ofFault (.unclosedBlock directive)),
      Steady.const _, fun i _ => ?_⟩
    simp only [withBlock_refused _ _ _ _ (ha i)]; rfl

/-- From one output for all indentations, a statement makes a steady one. -/
theorem steady_execute_const (hr : SteadyOutcome r) (s : State) (stmt : Statement) :
    SteadyEffect fun i => stmt.execute ⟨inh, str, i⟩ (r i) s := by
  have hsplice : ∀ (l : Text) f, Steady f → ∃ g, Steady g ∧ ∀ i, IsSpacing i →
      (s.line l).splice ⟨inh, str, i⟩ (f i) = ⟨s.macros, g i⟩ := by
    intro l f hf
    have he : (Output.line s.out l).endsIn Byte.newline = true :=
      Text.endsIn_iff.2 ⟨Output.closeLine s.out ++ l, rfl⟩
    exact ⟨_, hf.splice he, fun i _ => rfl⟩
  cases stmt with
  | sectionBlock kind b => exact steady_withBlock inh str hr _ _ _ b (hsplice _)
  | label name b =>
    refine steady_withBlock inh str hr s _ _ b (m := s.macros) fun f hf => ?_
    split
    · exact ⟨_, hf.line s.out (name ++ utf8 " "), fun i _ => rfl⟩
    · exact hsplice _ f hf
  -- the other statements use neither the indentation nor a block
  | brace core =>
    cases str with
    | true => exact steadyEffect_const (fail s (.ofFault (.strayBrace core)))
    | false => exact steadyEffect_const (done s)
  | _ => exact steadyEffect_const _

/-- A statement keeps the output steady. -/
theorem steady_execute (hr : SteadyOutcome r) (m : Macros) {out : Text → Text} (ho : Steady out)
    (stmt : Statement) : SteadyEffect fun i => stmt.execute ⟨inh, str, i⟩ (r i) ⟨m, out i⟩ := by
  obtain ⟨front, t, hf, ho⟩ := ho
  obtain ⟨m', g, e, hg, hx⟩ := steady_execute_const inh str hr ⟨m, t⟩ stmt
  refine ⟨m', _, e, hg.prepend hf, fun i hi => ?_⟩
  have hs : (⟨m, out i⟩ : State) = State.prepend (front i) ⟨m, t⟩ := by rw [ho i hi]; rfl
  simp only [hs, execute_prepend (hf.closed hi), hx i hi]; rfl

end

end Statement

namespace Lowering

open Statement (SteadyOutcome SteadyEffect)

/-- Endings that agree for all indentations but for the depths of the lines of their output. -/
def SteadyEnding (x : Text → Ending) : Prop :=
  ∃ left m f e, Steady f ∧ ∀ i, IsSpacing i → x i = ⟨left, ⟨m, f i⟩, e⟩

theorem SteadyEnding.result {x : Text → Ending} (h : SteadyEnding x) :
    SteadyOutcome fun i => (x i).result := by
  obtain ⟨left, m, f, e, hf, h⟩ := h
  cases e with
  | some e => exact Or.inl ⟨e, fun i hi => by simp only [h i hi, Ending.result]⟩
  | none => exact Or.inr ⟨_, hf.tidy, fun i hi => by simp only [h i hi, Ending.result]⟩

/-- A run keeps the output steady. -/
theorem steady_run (inh str : Bool) (toks : List Token) : ∀ (m : Macros) (out : Text → Text),
    Steady out → SteadyEnding fun i => run ⟨inh, str, i⟩ toks ⟨m, out i⟩ := by
  induction toks using reading_induction with
  | nil => intro m out ho; exact ⟨[], m, out, none, ho, fun i _ => run_nil _ _⟩
  | cons tok rest ih =>
    intro m out ho
    rcases hr : Statement.read m tok rest with ⟨e | stmt, left⟩
    · exact ⟨left, m, out, some e, ho, fun i _ => run_cons_error hr⟩
    · obtain ⟨hbody, hleft⟩ := ih _ _ _ hr
      have hi : SteadyOutcome fun i => inner ⟨inh, str, i⟩ stmt ⟨m, out i⟩ :=
        (hbody (if inh = true then m else .empty) _ (Steady.const [])).result
      obtain ⟨m', f, e, hf, hx⟩ := Statement.steady_execute inh str hi m ho stmt
      cases e with
      | some e => exact ⟨left, m', f, some e, hf, fun i hi => run_cons_fail hr (hx i hi)⟩
      | none =>
        obtain ⟨left', m'', g, e, hg, hy⟩ := hleft m' f hf
        exact ⟨left', m'', g, e, hg, fun i hi => (run_cons_done hr (hx i hi)).trans (hy i hi)⟩

/-- **Indentation changes nothing but the prefixes of lines.**  The depths of the lines depend
    on the source alone: with every indentation of spaces and tabulators, the run fails with the
    error it fails with when there is none, or each line that is not empty stands behind the
    indentation, as often as its depth says; the macros are the same. -/
theorem indentation_shifts (inh str : Bool) (source : Text) :
    ∃ depths : List Nat, ∀ i, IsSpacing i →
      (ofSource ⟨inh, str, i⟩ source).state.macros =
          (ofSource ⟨inh, str, []⟩ source).state.macros ∧
      ((∃ e, lower ⟨inh, str, []⟩ source = .error e ∧ lower ⟨inh, str, i⟩ source = .error e) ∨
        ∃ text text', lower ⟨inh, str, []⟩ source = .ok text ∧
          lower ⟨inh, str, i⟩ source = .ok text' ∧
          (Layout.lines text).length = depths.length ∧
          Layout.lines text' = List.zipWith (Layout.shift i) depths (Layout.lines text)) := by
  have h : SteadyEnding fun i => ofSource ⟨inh, str, i⟩ source :=
    steady_run inh str source.tokens .empty _ (Steady.const [])
  have hm : ∀ i, IsSpacing i → (ofSource ⟨inh, str, i⟩ source).state.macros =
      (ofSource ⟨inh, str, []⟩ source).state.macros := by
    obtain ⟨left, m, f, e, -, h⟩ := h
    intro i hi
    simp only [h i hi, h [] Layout.isSpacing_nil]
  rcases h.result with ⟨e, he⟩ | ⟨f, hf, hok⟩
  · exact ⟨[], fun i hi => ⟨hm i hi, Or.inl ⟨e, he [] Layout.isSpacing_nil, he i hi⟩⟩⟩
  · obtain ⟨ds, hd⟩ := hf.uniform.even
    refine ⟨ds, fun i hi => ⟨hm i hi, Or.inr ⟨f [], f i, hok [] Layout.isSpacing_nil, hok i hi,
      (hd i hi).1.symm, (hd i hi).2⟩⟩⟩

/-- A tabulator in front of the lines of two nested blocks and a constant, with an empty line. -/
theorem indentation_shifts_nested :
    let source :=
      utf8 "$section data \x7b label n \x7b db 0x1; ; \x7d label k \x7b equ 2; \x7d \x7d"
    Layout.IsSpacing [Byte.tab] ∧
    lower ⟨false, true, []⟩ source = .ok (utf8 "section .data\nn:\ndb 1\n\nk equ 2\n") ∧
    ∃ (depths : List Nat) (text : Text), lower ⟨false, true, [Byte.tab]⟩ source = .ok text ∧
      Layout.lines text = List.zipWith (Layout.shift [Byte.tab]) depths
        [utf8 "section .data", utf8 "n:", utf8 "db 1", [], utf8 "k equ 2", []] := by
  intro source
  have hs : Layout.IsSpacing [Byte.tab] := by simp [Layout.IsSpacing, Byte.isSpacing]
  have hp : lower ⟨false, true, []⟩ source =
      .ok (utf8 "section .data\nn:\ndb 1\n\nk equ 2\n") := by decide +kernel
  obtain ⟨depths, h⟩ := indentation_shifts false true source
  obtain ⟨-, ⟨e, he, -⟩ | ⟨text, text', ht, ht', -, hl⟩⟩ := h [Byte.tab] hs
  · rw [hp] at he; cases he
  · rw [hp] at ht
    cases ht
    exact ⟨hs, hp, depths, text', ht', hl⟩

end Lowering

end BlockAsm
