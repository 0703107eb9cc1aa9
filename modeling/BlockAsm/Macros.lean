/-
  BlockAsm: macros.

  A table of macros is a finite map from names to values, kept as a list of entries
  that strictly increases by name, bytewise.  Equal maps are therefore equal
  tables, and the names come out in order.

  * `define`, `undefine`: the operations;
  * `lookup?`, `resolve`, `names`, `size`: the views; `resolve` looks a token up
    once and leaves it as it is if it is not defined.
-/
import BlockAsm.Text.Basic

namespace BlockAsm

namespace Macros

/-- A name and its value. -/
abbrev Entry := Text × Text

/-- Entries that strictly increase by name. -/
def Increasing (entries : List Entry) : Prop := entries.Pairwise fun a b => a.1 < b.1

/-- Set the value of a name, keeping the entries in order. -/
def insertEntry (name value : Text) : List Entry → List Entry
  | [] => [(name, value)]
  | e :: rest =>
    if name < e.1 then (name, value) :: e :: rest
    else if name = e.1 then (name, value) :: rest
    else e :: insertEntry name value rest

theorem mem_insertEntry {name value : Text} {entries : List Entry} {e : Entry}
    (h : e ∈ insertEntry name value entries) : e = (name, value) ∨ e ∈ entries := by
  induction entries with
  | nil => simpa [insertEntry] using h
  | cons a rest ih => grind [insertEntry]

theorem Increasing.insertEntry {name value : Text} {entries : List Entry} (h : Increasing entries) :
    Increasing (Macros.insertEntry name value entries) := by
  induction entries with
  | nil => simp [Macros.insertEntry, Increasing]
  | cons a rest ih =>
    obtain ⟨ha, hrest⟩ := List.pairwise_cons.1 h
    unfold Macros.insertEntry
    split
    case isTrue hlt =>
      refine List.pairwise_cons.2 ⟨fun e he => ?_, h⟩
      rcases List.mem_cons.1 he with rfl | he
      · exact hlt
      · exact List.lt_trans hlt (ha e he)
    case isFalse hlt =>
      split
      case isTrue heq => exact List.pairwise_cons.2 ⟨fun e he => heq ▸ ha e he, hrest⟩
      case isFalse hne =>
        refine List.pairwise_cons.2 ⟨fun e he => ?_, ih hrest⟩
        rcases mem_insertEntry he with rfl | he
        · rcases Std.lt_trichotomy name a.1 with h' | h' | h'
          · exact absurd h' hlt
          · exact absurd h' hne
          · exact h'
        · exact ha e he

end Macros

/-- A finite map from names to values. -/
structure Macros where
  entries : List Macros.Entry
  increasing : Macros.Increasing entries
  deriving DecidableEq

namespace Macros

/-- The table that defines nothing. -/
def empty : Macros := ⟨[], List.Pairwise.nil⟩

/-- The table in which `name` has the given value and all else is as before. -/
def define (m : Macros) (name value : Text) : Macros :=
  ⟨insertEntry name value m.entries, m.increasing.insertEntry⟩

/-- The table in which `name` is not defined and all else is as before. -/
def undefine (m : Macros) (name : Text) : Macros :=
  ⟨m.entries.filter fun e => e.1 ≠ name, m.increasing.sublist List.filter_sublist⟩

/-- The value of a name. -/
def lookup? (m : Macros) (name : Text) : Option Text :=
  (m.entries.find? fun e => e.1 = name).map (·.2)

/-- The value of a token, or the token itself if it is not defined. -/
def resolve (m : Macros) (tok : Text) : Text := (m.lookup? tok).getD tok

/-- The value of an operand: of the name behind `&` if it has one, of the whole otherwise. -/
def resolveOperand (m : Macros) (t : Text) : Text :=
  match t.dropFront? [Byte.ampersand] with
  | some name => Byte.ampersand :: m.resolve name
  | none => m.resolve t

/-- The defined names, in order. -/
def names (m : Macros) : List Text := m.entries.map (·.1)

/-- The number of defined names. -/
def size (m : Macros) : Nat := m.entries.length

/-! ## The views of the operations -/

theorem find?_insertEntry (name value other : Text) (entries : List Entry) :
    (insertEntry name value entries).find? (fun e => e.1 = other) =
      if other = name then some (name, value) else entries.find? fun e => e.1 = other := by
  induction entries with
  | nil => grind [insertEntry]
  | cons e rest ih => grind [insertEntry]

theorem lookup?_define (m : Macros) (name value other : Text) :
    (m.define name value).lookup? other = if other = name then some value else m.lookup? other := by
  unfold lookup? define
  rw [find?_insertEntry]
  split <;> rfl

theorem lookup?_undefine (m : Macros) (name other : Text) :
    (m.undefine name).lookup? other = if other = name then none else m.lookup? other := by
  unfold lookup? undefine
  by_cases h : other = name
  · subst h
    simp
  · simp only [List.find?_filter, h, ↓reduceIte]
    congr 2
    funext e
    by_cases he : e.1 = other
    · simp [he, h]
    · simp [he]

/-! ## The views of one table -/

/-- The entries are the names with their values. -/
theorem mem_entries_iff {m : Macros} {name value : Text} :
    (name, value) ∈ m.entries ↔ m.lookup? name = some value := by
  unfold lookup?
  constructor
  · intro h
    have hfind : m.entries.find? (fun e => e.1 = name) = some (name, value) := by
      obtain ⟨entries, hinc⟩ := m
      induction entries with
      | nil => cases h
      | cons e rest ih =>
        obtain ⟨he, hrest⟩ := List.pairwise_cons.1 hinc
        rcases List.mem_cons.1 h with rfl | h
        · simp
        · have hne : e.1 ≠ name := fun hn => List.lt_irrefl _ (hn ▸ he _ h)
          rw [List.find?_cons_of_neg (by simpa using hne)]
          exact ih hrest h
    rw [hfind]; rfl
  · intro h
    obtain ⟨e, he, rfl⟩ := Option.map_eq_some_iff.1 h
    have hname : e.1 = name := by simpa using List.find?_some he
    exact hname ▸ List.mem_of_find?_eq_some he

theorem mem_names_iff {m : Macros} {name : Text} :
    name ∈ m.names ↔ ∃ value, m.lookup? name = some value := by
  simp only [names, List.mem_map, Prod.exists, exists_and_right, exists_eq_right, mem_entries_iff]

theorem pairwise_names (m : Macros) : m.names.Pairwise (· < ·) := List.pairwise_map.2 m.increasing

end Macros

end BlockAsm
