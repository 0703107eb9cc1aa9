/-
  BlockAsm: families of macro tables.

  A table is changed by defining and undefining names (`Change`), and a family of tables grows when
  one of them is cloned (`Operation`).  `History` tells what was done to a table, through the tables
  that it was cloned from.  An operation does to a table what it does to this table only
  (`getElem?_perform`), so that a table is what its history makes of the empty one
  (`History.getElem?_family`), and a name has the value of its last change (`lookup?_changeAll_iff`).
-/
import BlockAsm.Macros
import Mathlib.Data.List.Induction

namespace BlockAsm.Macros

/-! ## The changes to one table -/

/-- A change to a table. -/
inductive Change where
  | define (name value : Text)
  | undefine (name : Text)
  deriving DecidableEq, Repr

/-- The name that a change is about. -/
def Change.name : Change → Text
  | define name _ | undefine name => name

/-- The table after a change. -/
def change (m : Macros) : Change → Macros
  | .define name value => m.define name value
  | .undefine name => m.undefine name

/-- The table after some changes. -/
def changeAll (m : Macros) (changes : List Change) : Macros := changes.foldl change m

theorem changeAll_append (m : Macros) (changes later : List Change) :
    m.changeAll (changes ++ later) = (m.changeAll changes).changeAll later := List.foldl_append

/-- The last of the changes that is about the name gives it the value. -/
def LastDefines (changes : List Change) (name value : Text) : Prop :=
  ∃ earlier later, changes = earlier ++ .define name value :: later ∧ ∀ c ∈ later, c.name ≠ name

section
variable {name value : Text} {changes : List Change} {c : Change}

theorem lookup?_change_eq_some_iff {m : Macros} : (m.change c).lookup? name = some value ↔
    c = .define name value ∨ c.name ≠ name ∧ m.lookup? name = some value := by
  cases c with
  | define other v =>
    rw [change, lookup?_define, Change.name]
    by_cases h : name = other
    · simp [h]
    · simp [h, Ne.symm h]
  | undefine other =>
    rw [change, lookup?_undefine, Change.name]
    by_cases h : name = other
    · simp [h]
    · simp [h, Ne.symm h]

theorem lastDefines_concat_iff : LastDefines (changes ++ [c]) name value ↔
    c = .define name value ∨ c.name ≠ name ∧ LastDefines changes name value := by
  constructor
  · rintro ⟨earlier, later, heq, hlater⟩
    -- the added change is the definition itself, or the last of those behind it
    rcases List.eq_nil_or_concat later with rfl | ⟨later, d, rfl⟩
    · exact .inl (List.singleton_inj.1 (List.append_inj' heq rfl).2)
    · rw [List.concat_eq_append, ← List.cons_append, ← List.append_assoc] at heq
      obtain ⟨rfl, hc⟩ := List.append_inj' heq rfl
      obtain rfl := List.singleton_inj.1 hc
      exact .inr ⟨hlater c (by simp), earlier, later, rfl, fun d hd => hlater d (by simp [hd])⟩
  · rintro (rfl | ⟨hne, earlier, later, rfl, hlater⟩)
    · exact ⟨changes, [], rfl, fun c hc => absurd hc List.not_mem_nil⟩
    · refine ⟨earlier, later ++ [c], by simp, fun d hd => ?_⟩
      rcases List.mem_append.1 hd with hd | hd
      · exact hlater d hd
      · rwa [List.mem_singleton.1 hd]

/-- A name has the value that its last change gives it. -/
theorem lookup?_changeAll_iff :
    (empty.changeAll changes).lookup? name = some value ↔ LastDefines changes name value := by
  induction changes using List.reverseRecOn with
  | nil => simp [changeAll, lookup?, empty, LastDefines]
  | append_singleton changes c ih =>
    have hlast : (empty.changeAll changes).changeAll [c] = (empty.changeAll changes).change c := rfl
    rw [changeAll_append, hlast, lookup?_change_eq_some_iff, lastDefines_concat_iff, ih]

end

/-! ## A family of tables -/

/-- What can be done to the tables of a family, which are numbered in the order they came. -/
inductive Operation where
  /-- change one table -/
  | change (table : Nat) (c : Change)
  /-- make a new table, as one of them is -/
  | clone (table : Nat)
  deriving DecidableEq, Repr

/-- The tables after an operation; there is nothing to do to a table that is not there. -/
def perform (tables : List Macros) : Operation → List Macros
  | .change t c => tables.modify t (change · c)
  | .clone t => tables ++ tables[t]?.toList

/-- The tables after some operations. -/
def performAll (tables : List Macros) (ops : List Operation) : List Macros :=
  ops.foldl perform tables

/-- The family that some operations make of one empty table. -/
def family (ops : List Operation) : List Macros := performAll [empty] ops

/-- The change that an operation makes to the table. -/
def Operation.changeTo? (t : Nat) : Operation → Option Change
  | .change t' c => if t' = t then some c else none
  | .clone _ => none

/-- The changes that operations make to the table. -/
def changesTo (t : Nat) (ops : List Operation) : List Change := ops.filterMap (·.changeTo? t)

/-- What was done to a table of a family: to the first one, all that was done to it; to a table
    that was cloned, what had been done to its origin up to then, and what was done to it since. -/
inductive History : List Operation → Nat → List Change → Prop
  | first (ops : List Operation) : History ops 0 (changesTo 0 ops)
  | clone {before : List Operation} {origin : Nat} {changes : List Change}
      (h : History before origin changes) (later : List Operation) :
      History (before ++ .clone origin :: later) (family before).length
        (changes ++ changesTo (family before).length later)

section
variable {tables : List Macros} {t : Nat} {m : Macros}

/-- An operation does to a table what it does to this table only. -/
theorem getElem?_perform (h : tables[t]? = some m) (op : Operation) :
    (perform tables op)[t]? = some (m.changeAll (op.changeTo? t).toList) := by
  cases op with
  | change t' c =>
    rw [perform, List.getElem?_modify, h, Operation.changeTo?]
    split <;> rfl
  | clone t' =>
    have hlt := (List.getElem?_eq_some_iff.1 h).1
    rw [perform, List.getElem?_append_left hlt, h]
    rfl

theorem getElem?_performAll (ops : List Operation) :
    ∀ {tables : List Macros} {m : Macros}, tables[t]? = some m →
      (performAll tables ops)[t]? = some (m.changeAll (changesTo t ops)) := by
  induction ops with
  | nil => intro tables m h; exact h
  | cons op ops ih =>
    intro tables m h
    have hall : performAll tables (op :: ops) = performAll (perform tables op) ops := rfl
    have hchanges : changesTo t (op :: ops) = (op.changeTo? t).toList ++ changesTo t ops := by
      rw [changesTo, List.filterMap_cons]
      cases op.changeTo? t <;> rfl
    rw [hall, ih (getElem?_perform h op), hchanges, changeAll_append]

theorem family_append (ops later : List Operation) :
    family (ops ++ later) = performAll (family ops) later := List.foldl_append

/-- A table is what its history makes of the empty one. -/
theorem History.getElem?_family {ops : List Operation} {changes : List Change}
    (h : History ops t changes) : (family ops)[t]? = some (empty.changeAll changes) := by
  induction h with
  | first ops => exact getElem?_performAll ops rfl
  | @clone before origin changes _ later ih =>
    have hall : family (before ++ .clone origin :: later) =
        performAll (family before ++ [empty.changeAll changes]) later := by
      rw [family_append]
      show performAll (family before ++ (family before)[origin]?.toList) later = _
      rw [ih, Option.toList_some]
    rw [hall, getElem?_performAll later List.getElem?_concat_length, changeAll_append]

theorem History.append {ops : List Operation} {changes : List Change} (h : History ops t changes)
    (later : List Operation) : History (ops ++ later) t (changes ++ changesTo t later) := by
  cases h with
  | first ops =>
    rw [changesTo, changesTo, ← List.filterMap_append]
    exact .first (ops ++ later)
  | clone h later' =>
    have := h.clone (later' ++ later)
    rwa [changesTo, List.filterMap_append, ← List.append_assoc, ← List.cons_append,
      ← List.append_assoc] at this

/-- Every table of a family has a history. -/
theorem exists_history (ops : List Operation) :
    ∀ {t : Nat}, t < (family ops).length → ∃ changes, History ops t changes := by
  induction ops using List.reverseRecOn with
  | nil =>
    intro t ht
    obtain rfl : t = 0 := Nat.lt_one_iff.1 ht
    exact ⟨_, .first []⟩
  | append_singleton ops op ih =>
    intro t ht
    -- a table that was there before lives on; a new one was cloned by this very operation
    by_cases hold : t < (family ops).length
    · obtain ⟨changes, h⟩ := ih hold
      exact ⟨_, h.append [op]⟩
    · rw [family_append] at ht
      cases op with
      | change t' c =>
        have hlen : (performAll (family ops) [.change t' c]).length = (family ops).length :=
          List.length_modify ..
        omega
      | clone origin =>
        have hall : performAll (family ops) [.clone origin] =
            family ops ++ (family ops)[origin]?.toList := rfl
        rw [hall, List.length_append] at ht
        cases horigin : (family ops)[origin]? with
        | none => rw [horigin] at ht; exact absurd ht hold
        | some m =>
          rw [horigin] at ht
          obtain rfl : t = (family ops).length := by
            simp only [Option.toList_some, List.length_singleton] at ht
            omega
          obtain ⟨changes, h⟩ := ih (List.getElem?_eq_some_iff.1 horigin).1
          exact ⟨_, h.clone []⟩

end

/-- **Macro tables are independent maps.**  Whatever is done to a family of tables, each of them has
    a history, and a name has the value there that its last change in this history gives it.  What
    is done to other tables leaves a table as it is.  Its names are those that have a value, in
    increasing order; there are as many as its size, its entries are the names with their values,
    and resolving a token is looking it up once. -/
theorem tables_are_independent_maps (ops : List Operation) :
    (∀ t, t < (family ops).length ↔ ∃ changes, History ops t changes) ∧
    ∀ t m, (family ops)[t]? = some m →
      (∀ changes, History ops t changes → ∀ name value,
        m.lookup? name = some value ↔ LastDefines changes name value) ∧
      (∀ later, (∀ c, Operation.change t c ∉ later) → (family (ops ++ later))[t]? = some m) ∧
      (m.names.Pairwise (· < ·) ∧ ∀ name, name ∈ m.names ↔ ∃ value, m.lookup? name = some value) ∧
      m.size = m.names.length ∧
      (m.entries.map (·.1) = m.names ∧
        ∀ name value, (name, value) ∈ m.entries ↔ m.lookup? name = some value) ∧
      ∀ tok, m.resolve tok = (m.lookup? tok).getD tok := by
  refine ⟨fun t => ⟨exists_history ops, ?_⟩, fun t m hm => ⟨?_, ?_,
    ⟨pairwise_names m, fun _ => mem_names_iff⟩, List.length_map .. |>.symm,
    ⟨rfl, fun _ _ => mem_entries_iff⟩, fun _ => rfl⟩⟩
  · rintro ⟨changes, h⟩
    exact (List.getElem?_eq_some_iff.1 h.getElem?_family).1
  · intro changes h name value
    rw [h.getElem?_family] at hm
    cases hm
    exact lookup?_changeAll_iff
  · intro later hlater
    have hnone : changesTo t later = [] := by
      refine List.filterMap_eq_nil_iff.2 fun op hop => ?_
      cases op with
      | change t' c =>
        refine if_neg ?_
        rintro rfl
        exact hlater c hop
      | clone => rfl
    rw [family_append, getElem?_performAll later hm, hnone]
    rfl

/-- A table is changed, cloned and changed again, on both sides, and so is its clone. -/
theorem tables_are_independent_maps_twice_cloned :
    let x := utf8 "X"
    let y := utf8 "Y"
    let ops : List Operation := [.change 0 (.define x [1]), .clone 0, .change 1 (.define y [2]),
      .change 1 (.undefine x), .clone 1, .change 0 (.define y [3]), .change 2 (.define x [4])]
    let changes : List Change := [.define x [1], .define y [2], .undefine x, .define x [4]]
    let later : List Operation := [.change 0 (.undefine x), .clone 2, .change 3 (.define y [5])]
    let m := (empty.define y [2]).define x [4]
    ((family ops)[2]? = some m ∧ History ops 2 changes ∧ ∀ c, Operation.change 2 c ∉ later) ∧
    (m.lookup? x = some [4] ↔ LastDefines changes x [4]) ∧ (family (ops ++ later))[2]? = some m ∧
    (m.names = [x, y] ∧ m.names.Pairwise (· < ·) ∧ (y ∈ m.names ↔ ∃ v, m.lookup? y = some v)) ∧
    m.size = m.names.length ∧ ((x, [4]) ∈ m.entries ↔ m.lookup? x = some [4]) ∧
    m.resolve x = (m.lookup? x).getD x := by
  intro x y ops changes later m
  have hm : (family ops)[2]? = some m := by decide +kernel
  have hhistory : History ops 2 changes :=
    .clone (.clone (.first [.change 0 (.define x [1])])
      [.change 1 (.define y [2]), .change 1 (.undefine x)])
      [.change 0 (.define y [3]), .change 2 (.define x [4])]
  have hlater : ∀ c, Operation.change 2 c ∉ later := fun c => by simp [later]
  obtain ⟨hlookup, hstill, ⟨hpair, hnames⟩, hsize, ⟨-, hentries⟩, hresolve⟩ :=
    (tables_are_independent_maps ops).2 2 m hm
  exact ⟨⟨hm, hhistory, hlater⟩, hlookup changes hhistory x [4], hstill later hlater,
    ⟨by decide +kernel, hpair, hnames y⟩, hsize, hentries x [4], hresolve x⟩

end BlockAsm.Macros
