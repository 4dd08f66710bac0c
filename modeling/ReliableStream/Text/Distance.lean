/-!
# Distance between texts

The distance between two texts is the least number of changes that make one of them the other,
where a change puts a character in, takes one out, or puts another in its place. It is found by a
table with a row for every tail of the first text. A row holds the distances to the second text
and to each of its tails, so the row for one character more needs the row before it and nothing
else. `editDistance_cons_cons` is the equation that the table solves.
-/

namespace ReliableStream.Text

/-- The row for a text with one character more in front. -/
def nextRow (c : Char) : List Char → List Nat → List Nat
  | d :: other, here :: below =>
    let row := nextRow c other below
    let kept := below.headD 0 + if c = d then 0 else 1
    min kept (min here (row.headD 0) + 1) :: row
  | _, row => row.map (· + 1)

/-- The distances of a text to another one and to each of its tails. -/
def distances (other : List Char) : List Char → List Nat
  | [] => (List.range (other.length + 1)).reverse
  | c :: rest => nextRow c other (distances other rest)

/-- The least number of changes that make one text the other. -/
def editDistance (text other : List Char) : Nat := (distances other text).headD 0

/-- A row starts with the distance to the whole text, and goes on with the row for its tail. -/
theorem distances_cons (d : Char) (other text : List Char) :
    distances (d :: other) text = editDistance text (d :: other) :: distances other text := by
  rw [editDistance]
  induction text with
  | nil => simp [distances, List.range_succ]
  | cons c rest ih => rw [distances, ih]; simp [nextRow, distances]

/-- The empty text becomes another one by putting in its characters. -/
@[simp]
theorem editDistance_nil (other : List Char) : editDistance [] other = other.length := by
  simp [editDistance, distances, List.range_succ]

/-- A text becomes empty by taking out its characters. -/
@[simp]
theorem editDistance_nil_right (text : List Char) : editDistance text [] = text.length := by
  suffices distances [] text = [text.length] by simp [editDistance, this]
  induction text with
  | nil => rfl
  | cons c rest ih => simp [distances, ih, nextRow]

/-- The first characters of two texts stand for each other, or the first one is taken out, or the
first one of the other text is put in. -/
theorem editDistance_cons_cons (c d : Char) (text other : List Char) :
    editDistance (c :: text) (d :: other) =
      min (editDistance text other + if c = d then 0 else 1)
        (min (editDistance text (d :: other)) (editDistance (c :: text) other) + 1) := by
  rw [editDistance, distances, distances_cons]
  rfl

/-- Nothing has to be changed between a text and itself. -/
@[simp]
theorem editDistance_self (text : List Char) : editDistance text text = 0 := by
  induction text with
  | nil => rfl
  | cons c rest ih => simp [editDistance_cons_cons, ih]

end ReliableStream.Text
