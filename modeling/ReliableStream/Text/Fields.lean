/-!
# Fields between separators

A text is cut at every occurrence of one separator character. There is always one field more than
there are separators, so the empty text has one empty field, and joining the fields with the
separator gives the text again.
-/

namespace ReliableStream.Text

/-- The parts of a text before, between and after its separators. -/
def fields (separator : Char) : List Char → List (List Char)
  | [] => [[]]
  | c :: rest =>
    if c = separator then [] :: fields separator rest
    else (fields separator rest).modifyHead (c :: ·)

theorem fields_ne_nil (separator : Char) (text : List Char) : fields separator text ≠ [] := by
  induction text with
  | nil => simp [fields]
  | cons c rest ih =>
    rw [fields]
    split
    · simp
    · cases h : fields separator rest with
      | nil => exact absurd h ih
      | cons => simp

/-- A text without separators is one field. -/
theorem fields_of_not_mem {separator : Char} {text : List Char} (h : separator ∉ text) :
    fields separator text = [text] := by
  induction text with
  | nil => rfl
  | cons c rest ih =>
    obtain ⟨hc, hrest⟩ := List.ne_and_not_mem_of_not_mem_cons h
    simp [fields, Ne.symm hc, ih hrest]

/-- The first separator ends the first field, and what is behind it is cut on its own. With this
equation texts that were joined are taken apart field by field. -/
theorem fields_append_cons {separator : Char} {first : List Char} (rest : List Char)
    (h : separator ∉ first) :
    fields separator (first ++ separator :: rest) = first :: fields separator rest := by
  induction first with
  | nil => simp [fields]
  | cons c tail ih =>
    obtain ⟨hc, htail⟩ := List.ne_and_not_mem_of_not_mem_cons h
    simp [fields, Ne.symm hc, ih htail]

end ReliableStream.Text
