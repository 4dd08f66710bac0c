/-!
# Bounded counting

Sequence numbers, instants and byte counts are natural numbers that fit in a 64-bit word; retry
counters fit in a 32-bit one. Two additions are used on them, and the place decides which:

* `saturatingAdd` stays at the largest word, for numbers that come from a peer or from a clock
  that may be asked to wait for ever;
* `addWithin` refuses a sum that does not fit, for the library's own counters. Its refusal is a
  value of `Overflow`, and a computation that may be refused is `Checked`.
-/

namespace ReliableStream

/-- How many 64-bit words there are. -/
abbrev wordCount : Nat := 0x10000000000000000

/-- The largest 64-bit word. -/
abbrev maxWord : Nat := 0xffffffffffffffff

/-- How many 32-bit words there are. -/
abbrev halfWordCount : Nat := 0x100000000

/-- The largest 32-bit word. -/
abbrev maxHalfWord : Nat := 0xffffffff

/-- Why a checked computation has no result. -/
inductive Overflow where
  /-- A sum does not fit in its word. -/
  | sum
  deriving DecidableEq

/-- The wording of an overflow. -/
def Overflow.message : Overflow → String
  | .sum => "attempt to add with overflow"

/-- A result, or the overflow that prevented it. -/
abbrev Checked := Except Overflow

/-- The sum of two words, held at the largest one. -/
def saturatingAdd (a b : Nat) : Nat := min (a + b) maxWord

/-- The sum of two numbers, refused above `limit`. -/
def addWithin (limit a b : Nat) : Checked Nat :=
  if a + b ≤ limit then .ok (a + b) else .error .sum

theorem saturatingAdd_le (a b : Nat) : saturatingAdd a b ≤ maxWord := Nat.min_le_right ..

theorem saturatingAdd_of_le {a b : Nat} (h : a + b ≤ maxWord) : saturatingAdd a b = a + b :=
  Nat.min_eq_left h

/-- Holding a sum at the largest word never makes it smaller than what is added to. -/
theorem le_saturatingAdd {a : Nat} (b : Nat) (h : a ≤ maxWord) : a ≤ saturatingAdd a b :=
  Nat.le_min.2 ⟨Nat.le_add_right a b, h⟩

/-- A sum is the true one, or it is refused: nothing ever wraps around. -/
theorem addWithin_eq_ok_iff {limit a b c : Nat} :
    addWithin limit a b = .ok c ↔ a + b ≤ limit ∧ c = a + b := by
  rw [addWithin]
  split
  · next h => simp [h, eq_comm]
  · next h => simp [h]

/-- A sequence of two computations has a result when the first one and then the second one have one.
With this lemma a computation is taken apart step by step, without unfolding the monad. -/
theorem Checked.bind_eq_ok_iff {α β : Type} {x : Checked α} {f : α → Checked β} {b : β} :
    (x >>= f) = .ok b ↔ ∃ a, x = .ok a ∧ f a = .ok b := by
  cases x with
  | error e => simp [bind, Except.bind]
  | ok a => simp [bind, Except.bind]

@[simp] theorem Checked.pure_eq_ok_iff {α : Type} {a b : α} :
    (pure a : Checked α) = .ok b ↔ a = b := by simp [pure, Except.pure]

theorem Checked.pure_prod_eq_ok {α β : Type} {a a' : α} {b b' : β}
    (h : (pure (a, b) : Checked (α × β)) = .ok (a', b')) : a = a' ∧ b = b' := by
  simpa using h

theorem toOption_eq_some_iff {ε α : Type} {x : Except ε α} {a : α} :
    x.toOption = some a ↔ x = .ok a := by cases x <;> simp [Except.toOption]

/-- What holds of no steps, and of one step more in front, holds of all the steps of a fold that
has a result. The list of the steps is part of what is shown, so that it may say what they send or
tell. -/
theorem Checked.foldlM_induction {α β : Type} {motive : List β → α → α → Prop}
    {f : α → β → Checked α} (nil : ∀ a, motive [] a a)
    (cons : ∀ b rest a mid last, f a b = .ok mid → motive rest mid last →
      motive (b :: rest) a last)
    {l : List β} {a last : α} (h : l.foldlM f a = .ok last) : motive l a last := by
  induction l generalizing a with
  | nil =>
    obtain rfl := Checked.pure_eq_ok_iff.1 h
    exact nil a
  | cons b rest ih =>
    rw [List.foldlM_cons] at h
    obtain ⟨mid, hmid, hrest⟩ := Checked.bind_eq_ok_iff.1 h
    exact cons b rest a mid last hmid (ih hrest)

/-- Computations one after the other have one result each. -/
theorem Checked.length_of_mapM {α β : Type} {f : α → Checked β} {l : List α} {results : List β}
    (h : l.mapM f = .ok results) : results.length = l.length := by
  induction l generalizing results with
  | nil =>
    obtain rfl := Checked.pure_eq_ok_iff.1 h
    rfl
  | cons a rest ih =>
    rw [List.mapM_cons] at h
    obtain ⟨first, -, h⟩ := Checked.bind_eq_ok_iff.1 h
    obtain ⟨more, hmore, h⟩ := Checked.bind_eq_ok_iff.1 h
    obtain rfl := Checked.pure_eq_ok_iff.1 h
    rw [List.length_cons, List.length_cons, ih hmore]

/-- Each result of computations one after the other is the result of one of them. -/
theorem Checked.exists_of_mem_mapM {α β : Type} {f : α → Checked β} {l : List α} {results : List β}
    (h : l.mapM f = .ok results) {b : β} (hb : b ∈ results) : ∃ a ∈ l, f a = .ok b := by
  induction l generalizing results with
  | nil =>
    obtain rfl := Checked.pure_eq_ok_iff.1 h
    exact absurd hb List.not_mem_nil
  | cons a rest ih =>
    rw [List.mapM_cons] at h
    obtain ⟨first, hfirst, h⟩ := Checked.bind_eq_ok_iff.1 h
    obtain ⟨more, hmore, h⟩ := Checked.bind_eq_ok_iff.1 h
    obtain rfl := Checked.pure_eq_ok_iff.1 h
    rcases List.mem_cons.1 hb with rfl | hb
    · exact ⟨a, List.mem_cons_self .., hfirst⟩
    · obtain ⟨a', hmem, ha'⟩ := ih hmore hb
      exact ⟨a', List.mem_cons_of_mem _ hmem, ha'⟩

end ReliableStream
