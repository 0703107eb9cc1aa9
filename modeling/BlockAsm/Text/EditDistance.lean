/-
  BlockAsm: edit distance.

  The least number of bytes to insert, delete or replace that turn one text into
  another, computed row by row: a row holds the distances from a front part of
  the first text to every front part of the second.
-/
import BlockAsm.Text.Basic

namespace BlockAsm.EditDistance

/-- The rest of a row behind the distance `left`, for the next byte `a` of the
    first text, the bytes of the second, and the row above. -/
def rowFrom (a : UInt8) (left : Nat) : Text → List Nat → List Nat
  | b :: t, diagonal :: above :: row =>
    let d := if a = b then diagonal else min (min left above) diagonal + 1
    d :: rowFrom a d t (above :: row)
  | _, _ => []

/-- The row below a row, for the next byte `a` of the first text. -/
def nextRow (t : Text) (row : List Nat) (a : UInt8) : List Nat :=
  let left := row.headD 0 + 1
  left :: rowFrom a left t row

/-- The edit distance of two texts. -/
def distance (s t : Text) : Nat :=
  (s.foldl (nextRow t) (List.range (t.length + 1))).getLastD 0

end BlockAsm.EditDistance
