/-!
# Lists in ascending order of a key

A finite map from numbers to values that know their own key, kept as a list whose keys strictly
ascend. The order is a field of the type, so two such lists with the same elements are equal, and
no key is there twice. `insert` puts an element in its place, in place of one with the same key.

The interface is that of a set. What is in the list after an insertion is said by membership
(`mem_place`) and, where the order matters, by what stays the same of the list: an element in place
of one that looks alike (`map_place`), or a part of the list that the new element belongs to
(`filter_place`). Nothing else about the order of insertions is ever needed, since two such lists
with the same elements are equal.
-/

namespace ReliableStream

/-- A list whose elements have strictly ascending keys. -/
structure Ascending {α : Type} (key : α → Nat) where
  /-- The elements, in order. -/
  toList : List α
  /-- The keys strictly ascend. -/
  ordered : toList.Pairwise (key · < key ·)

namespace Ascending

variable {α : Type} {key : α → Nat}

instance : EmptyCollection (Ascending key) := ⟨⟨[], List.Pairwise.nil⟩⟩

instance [DecidableEq α] : DecidableEq (Ascending key) := fun s t ↦
  if h : s.toList = t.toList then
    isTrue (by cases s; cases t; simp_all)
  else isFalse fun hst ↦ h (hst ▸ rfl)

/-! ### Inserting into a list -/

/-- Puts an element in its place, in place of one with the same key. -/
def place (key : α → Nat) (x : α) : List α → List α
  | [] => [x]
  | y :: rest =>
    if key x < key y then x :: y :: rest
    else if key x = key y then x :: rest
    else y :: place key x rest

/-- Nothing gets into a list but the element that is put there. This direction needs no order. -/
theorem mem_of_mem_place {x z : α} {l : List α} (h : z ∈ place key x l) : z = x ∨ z ∈ l := by
  induction l with
  | nil => exact .inl (List.mem_singleton.1 h)
  | cons y rest ih =>
    rw [place] at h
    split at h
    · exact List.mem_cons.1 h
    · split at h
      · exact (List.mem_cons.1 h).imp_right (List.mem_cons_of_mem _)
      · rcases List.mem_cons.1 h with rfl | hz
        · exact .inr (List.mem_cons_self ..)
        · exact (ih hz).imp_right (List.mem_cons_of_mem _)

/-- **Putting an element in its place keeps the order.** That is why `insert` needs no condition. -/
theorem pairwise_place (x : α) {l : List α} (h : l.Pairwise (key · < key ·)) :
    (place key x l).Pairwise (key · < key ·) := by
  induction l with
  | nil => simp [place]
  | cons y rest ih =>
    obtain ⟨hy, hrest⟩ := List.pairwise_cons.1 h
    rw [place]
    split
    · next hlt =>
      refine List.pairwise_cons.2 ⟨fun z hz ↦ ?_, h⟩
      rcases List.mem_cons.1 hz with rfl | hz
      · exact hlt
      · exact Nat.lt_trans hlt (hy z hz)
    · split
      · next heq => exact List.pairwise_cons.2 ⟨fun z hz ↦ heq ▸ hy z hz, hrest⟩
      · refine List.pairwise_cons.2 ⟨fun z hz ↦ ?_, ih hrest⟩
        rcases mem_of_mem_place hz with rfl | hz
        · omega
        · exact hy z hz

/-- In an ordered list the new element takes the place of one with its key, and all others stay. The
order is needed: only the first element with the key is replaced, and no other may have it. -/
theorem mem_place {x z : α} {l : List α} (h : l.Pairwise (key · < key ·)) :
    z ∈ place key x l ↔ z = x ∨ z ∈ l ∧ key z ≠ key x := by
  induction l with
  | nil => simp [place]
  | cons y rest ih =>
    obtain ⟨hy, hrest⟩ := List.pairwise_cons.1 h
    rw [place]
    split
    · next hlt =>
      -- The new element comes first: no key in the list is as small.
      have hne : ∀ w ∈ y :: rest, key w ≠ key x := fun w hw ↦ by
        rcases List.mem_cons.1 hw with rfl | hw
        · omega
        · have := hy w hw
          omega
      rw [List.mem_cons]
      exact or_congr_right ⟨fun hz ↦ ⟨hz, hne z hz⟩, And.left⟩
    · split
      · next heq =>
        -- It replaces the first one, and no key behind that is the same.
        have hne : ∀ w ∈ rest, key w ≠ key x := fun w hw ↦ by
          have := hy w hw
          omega
        simp only [List.mem_cons]
        refine or_congr_right ⟨fun hz ↦ ⟨.inr hz, hne z hz⟩, ?_⟩
        rintro ⟨rfl | hz, hk⟩
        · exact absurd heq.symm hk
        · exact hz
      · next hne =>
        -- It belongs further back, and the first element stays.
        simp only [List.mem_cons, ih hrest]
        constructor
        · rintro (rfl | rfl | ⟨hz, hk⟩)
          · exact .inr ⟨.inl rfl, fun hk ↦ hne hk.symm⟩
          · exact .inl rfl
          · exact .inr ⟨.inr hz, hk⟩
        · rintro (rfl | ⟨rfl | hz, hk⟩)
          · exact .inr (.inl rfl)
          · exact .inl rfl
          · exact .inr (.inr ⟨hz, hk⟩)

/-- An element with a greater key than all others comes last. -/
theorem place_of_forall_lt {x : α} {l : List α} (h : ∀ y ∈ l, key y < key x) :
    place key x l = l ++ [x] := by
  induction l with
  | nil => rfl
  | cons y rest ih =>
    have hy := h y (List.mem_cons_self ..)
    rw [place, if_neg (by omega), if_neg (by omega), ih fun z hz ↦ h z (List.mem_cons_of_mem _ hz),
      List.cons_append]

/-- Replacing an element by one that looks the same changes nothing that is looked at. This is how a
segment that is sent again keeps its place and its bytes. -/
theorem map_place {β : Type} {f : α → β} {x y : α} {l : List α}
    (h : l.Pairwise (key · < key ·)) (hy : y ∈ l) (hk : key y = key x) (hf : f x = f y) :
    (place key x l).map f = l.map f := by
  induction l with
  | nil => exact absurd hy (List.not_mem_nil)
  | cons z rest ih =>
    obtain ⟨hz, hrest⟩ := List.pairwise_cons.1 h
    rcases List.mem_cons.1 hy with rfl | hy
    · rw [place, if_neg (by omega), if_pos hk.symm, List.map_cons, List.map_cons, hf]
    · have := hz y hy
      rw [place, if_neg (by omega), if_neg (by omega), List.map_cons, List.map_cons, ih hrest hy]

/-- An element is put in its place among those with no smaller a key than some number, too. So it
makes no difference whether a list is cut off before an insertion or after it. -/
theorem filter_place {x : α} {bound : Nat} (h : bound ≤ key x) (l : List α) :
    (place key x l).filter (bound ≤ key ·) = place key x (l.filter (bound ≤ key ·)) := by
  induction l with
  | nil => simp [place, h]
  | cons y rest ih =>
    rw [place]
    split
    · next hlt =>
      have hy : bound ≤ key y := by omega
      rw [List.filter_cons_of_pos (by simpa using h), List.filter_cons_of_pos (by simpa using hy),
        place, if_pos hlt]
    · next hnot =>
      split
      · next heq =>
        have hy : bound ≤ key y := by omega
        rw [List.filter_cons_of_pos (by simpa using h), List.filter_cons_of_pos (by simpa using hy),
          place, if_neg hnot, if_pos heq]
      · next hne =>
        by_cases hy : bound ≤ key y
        · rw [List.filter_cons_of_pos (by simpa using hy),
            List.filter_cons_of_pos (by simpa using hy), place, if_neg hnot, if_neg hne, ih]
        · rw [List.filter_cons_of_neg (by simpa using hy),
            List.filter_cons_of_neg (by simpa using hy), ih]

/-! ### Operations -/

/-- How many elements there are. -/
def size (s : Ascending key) : Nat := s.toList.length

/-- Whether there are none. -/
def isEmpty (s : Ascending key) : Bool := s.toList.isEmpty

/-- Puts an element in its place, in place of one with the same key. -/
def insert (x : α) (s : Ascending key) : Ascending key :=
  ⟨place key x s.toList, pairwise_place x s.ordered⟩

/-- The element with a given key. -/
def find? (k : Nat) (s : Ascending key) : Option α := s.toList.find? (key · = k)

/-- The smallest key. -/
def firstKey? (s : Ascending key) : Option Nat := s.toList.head?.map key

/-- The elements that satisfy a condition. -/
def filter (p : α → Bool) (s : Ascending key) : Ascending key :=
  ⟨s.toList.filter p, s.ordered.filter p⟩

/-- Some of the elements, in the order they have. -/
def restrict (s : Ascending key) (l : List α) (h : l.Sublist s.toList) : Ascending key :=
  ⟨l, s.ordered.sublist h⟩

@[ext] theorem ext {s t : Ascending key} (h : s.toList = t.toList) : s = t := by
  cases s; cases t; simp_all

@[simp] theorem toList_insert (x : α) (s : Ascending key) :
    (s.insert x).toList = place key x s.toList := rfl

@[simp] theorem toList_filter (p : α → Bool) (s : Ascending key) :
    (s.filter p).toList = s.toList.filter p := rfl

@[simp] theorem toList_restrict (s : Ascending key) (l : List α) (h : l.Sublist s.toList) :
    (s.restrict l h).toList = l := rfl

theorem filter_insert {x : α} {bound : Nat} (h : bound ≤ key x) (s : Ascending key) :
    (s.insert x).filter (bound ≤ key ·) = (s.filter (bound ≤ key ·)).insert x :=
  ext (filter_place h s.toList)

/-- Looking up a key finds the one element that has it, and finds it whenever there is one. -/
theorem find?_eq_some_iff {k : Nat} {s : Ascending key} {x : α} :
    s.find? k = some x ↔ x ∈ s.toList ∧ key x = k := by
  obtain ⟨l, ordered⟩ := s
  show l.find? (key · = k) = some x ↔ x ∈ l ∧ key x = k
  constructor
  · intro h
    exact ⟨List.mem_of_find?_eq_some h, by simpa using List.find?_some h⟩
  · rintro ⟨hmem, rfl⟩
    induction l with
    | nil => exact absurd hmem List.not_mem_nil
    | cons y rest ih =>
      obtain ⟨hy, hrest⟩ := List.pairwise_cons.1 ordered
      rcases List.mem_cons.1 hmem with rfl | hmem
      · simp
      · have hne : key y ≠ key x := Nat.ne_of_lt (hy x hmem)
        rw [List.find?_cons_of_neg (by simpa using hne)]
        exact ih hrest hmem

end Ascending

end ReliableStream
