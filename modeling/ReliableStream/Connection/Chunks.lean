/-!
# Cutting bytes into chunks

`chunks size l` cuts a list from the front into parts of `size` elements, the last of which may be
shorter. Joined together they are the list, and none is empty. The list is passed through once:
`cutAfter` continues a part that was begun and has room for some elements more.
-/

namespace ReliableStream

variable {α : Type}

/-- Cuts a list of which the first `room` elements belong to a part that was begun: those elements,
and the parts after them. -/
def cutAfter (size : Nat) : (room : Nat) → List α → List α × List (List α)
  | _, [] => ([], [])
  | 0, x :: rest =>
    let (part, more) := cutAfter size (size - 1) rest
    ([], (x :: part) :: more)
  | room + 1, x :: rest =>
    let (part, more) := cutAfter size room rest
    (x :: part, more)

/-- The parts of a list, of `size` elements each but for the last. A size of zero counts as one. -/
def chunks (size : Nat) (l : List α) : List (List α) := (cutAfter size 0 l).2

@[simp] theorem chunks_nil (size : Nat) : chunks size ([] : List α) = [] := rfl

/-- Cutting behind a part that was begun is cutting what is left when that part is full. This
carries the one pass through the list. -/
theorem cutAfter_eq (size room : Nat) (l : List α) :
    cutAfter size room l = (l.take room, chunks size (l.drop room)) := by
  induction l generalizing room with
  | nil => simp [cutAfter]
  | cons x rest ih =>
    cases room with
    | zero => simp [chunks, cutAfter]
    | succ room => simp [cutAfter, ih]

/-- The first part takes one element and `size - 1` more. -/
theorem chunks_cons (size : Nat) (x : α) (rest : List α) :
    chunks size (x :: rest) =
      (x :: rest.take (size - 1)) :: chunks size (rest.drop (size - 1)) := by
  rw [chunks, cutAfter, cutAfter_eq]

/-- **Cutting loses nothing**: joined together, the parts are the list. -/
theorem flatten_chunks (size : Nat) (l : List α) : (chunks size l).flatten = l := by
  induction h : l.length using Nat.strongRecOn generalizing l with
  | ind n ih =>
    cases l with
    | nil => rfl
    | cons x rest =>
      have shorter : (rest.drop (size - 1)).length < n := by
        simp only [List.length_drop, List.length_cons] at h ⊢
        omega
      rw [chunks_cons, List.flatten_cons, ih _ shorter _ rfl]
      simp

/-- No part is empty, and none is longer than it may be. -/
theorem length_of_mem_chunks {size : Nat} (hs : 0 < size) {l part : List α}
    (hp : part ∈ chunks size l) : 0 < part.length ∧ part.length ≤ size := by
  induction h : l.length using Nat.strongRecOn generalizing l with
  | ind n ih =>
    cases l with
    | nil => simp at hp
    | cons x rest =>
      rw [chunks_cons] at hp
      rcases List.mem_cons.1 hp with rfl | hp
      · simp only [List.length_cons, List.length_take]
        omega
      · have shorter : (rest.drop (size - 1)).length < n := by
          simp only [List.length_drop, List.length_cons] at h ⊢
          omega
        exact ih _ shorter hp rfl

/-- There are as many parts as it takes: the length divided by the size, rounded up. -/
theorem length_chunks {size : Nat} (hs : 0 < size) (l : List α) :
    (chunks size l).length = (l.length + size - 1) / size := by
  induction h : l.length using Nat.strongRecOn generalizing l with
  | ind n ih =>
    cases l with
    | nil =>
      obtain rfl : 0 = n := h
      rw [chunks_nil, List.length_nil, Nat.zero_add, Nat.div_eq_of_lt (Nat.sub_lt hs Nat.one_pos)]
    | cons x rest =>
      rw [List.length_cons] at h
      have hdrop : (rest.drop (size - 1)).length = rest.length - (size - 1) := List.length_drop
      rw [chunks_cons, List.length_cons, ih _ (by omega) _ rfl, hdrop, ← h,
        ← Nat.add_div_right _ hs]
      -- The rest may be shorter than a part.
      rcases Nat.lt_or_ge rest.length size with hlt | hge
      · rw [Nat.div_eq_of_lt_le (k := 1) (by omega) (by omega),
          Nat.div_eq_of_lt_le (k := 1) (by omega) (by omega)]
      · congr 1
        omega

end ReliableStream
