import ReliableStream.Time

/-!
# The agenda

A run in simulated time is driven by an agenda: entries that say what happens when, and to whom.
The entry that is due first is taken first, and of entries due at the same instant the one that
was added first. The clock is the instant of the entry taken last. Nothing can be added for an
earlier instant: it is put at the present one.

The entries are kept in the order in which they will be taken. That, and that none is earlier than
the clock, are fields of the type.

Since the order is a field, taking the next entry needs no search, and adding one (`put`) has to
keep it: the new entry has the largest number, so behind all that are due no later is its one place
(`ordered_place`). Everything else is said of the entries up to permutation (`entries_put_perm`).
-/

namespace ReliableStream

/-- What an entry is about. -/
inductive Agenda.Action (α : Type) where
  /-- Something happens in the model that is run. -/
  | model (happening : α)
  /-- The run ends. -/
  | close
  deriving DecidableEq

/-- An entry of an agenda. -/
structure Agenda.Entry (α : Type) where
  /-- When it is due. -/
  time : Nat
  /-- How many entries were added before it. -/
  order : Nat
  /-- Whom it is for. -/
  target : Nat
  /-- What happens. -/
  action : Agenda.Action α
  deriving DecidableEq

/-- One entry is taken before another: it is due earlier, or at the same instant and was added
earlier. -/
def Agenda.Entry.Before {α : Type} (e f : Agenda.Entry α) : Prop :=
  e.time < f.time ∨ e.time = f.time ∧ e.order < f.order

instance {α : Type} (e f : Agenda.Entry α) : Decidable (e.Before f) :=
  inferInstanceAs (Decidable (_ ∨ _))

/-- What happens when, and to whom, and what time it is. -/
structure Agenda (α : Type) where
  /-- The instant of the entry taken last. -/
  now : Nat := 0
  /-- How many entries were added so far. -/
  added : Nat := 0
  /-- The entries that wait, in the order in which they will be taken. -/
  entries : List (Agenda.Entry α) := []
  /-- Entries that are taken before others stand before them. -/
  ordered : entries.Pairwise Agenda.Entry.Before := by exact List.Pairwise.nil
  /-- Entries are numbered below the count. -/
  numbered : ∀ e ∈ entries, e.order < added := by exact fun _ h ↦ nomatch h
  /-- No entry is earlier than the clock. -/
  ahead : ∀ e ∈ entries, now ≤ e.time := by exact fun _ h ↦ nomatch h

namespace Agenda

variable {α : Type}

/-! ### Urgency -/

/-- Entries compared by urgency: the greater one is taken first. -/
def Entry.urgency (e f : Entry α) : Ordering :=
  (compare f.time e.time).then (compare f.order e.order)

/-- Whether two entries have the same place in an agenda. -/
def Entry.samePlace (e f : Entry α) : Bool := e.time = f.time && e.order = f.order

/-! ### Placing an entry -/

/-- Puts an entry after all that are due no later. -/
def place (e : Entry α) : List (Entry α) → List (Entry α)
  | [] => [e]
  | f :: rest => if f.time ≤ e.time then f :: place e rest else e :: f :: rest

theorem mem_place {e f : Entry α} {l : List (Entry α)} : f ∈ place e l ↔ f = e ∨ f ∈ l := by
  induction l with
  | nil => simp [place]
  | cons g rest ih =>
    rw [place]
    split
    · simp only [List.mem_cons, ih]
      exact or_left_comm
    · simp only [List.mem_cons]

/-- Placing an entry adds it, somewhere. -/
theorem place_perm (e : Entry α) (l : List (Entry α)) : (place e l).Perm (e :: l) := by
  induction l with
  | nil => exact .refl _
  | cons f rest ih =>
    rw [place]
    split
    · exact (ih.cons f).trans (.swap e f rest)
    · exact .refl _

/-- The order is kept, since the entry that is added has a larger number than all others: among
those due at the same instant it is the last to be taken. -/
theorem ordered_place {e : Entry α} {l : List (Entry α)} (h : l.Pairwise Entry.Before)
    (later : ∀ f ∈ l, f.order < e.order) : (place e l).Pairwise Entry.Before := by
  induction l with
  | nil => simp [place]
  | cons g rest ih =>
    obtain ⟨hg, hrest⟩ := List.pairwise_cons.1 h
    rw [place]
    split
    · next hle =>
      refine List.pairwise_cons.2
        ⟨fun f hf ↦ ?_, ih hrest fun f hf ↦ later f (List.mem_cons_of_mem _ hf)⟩
      rcases mem_place.1 hf with rfl | hf
      · have := later g (List.mem_cons_self ..)
        rw [Entry.Before]
        omega
      · exact hg f hf
    · next hgt =>
      refine List.pairwise_cons.2 ⟨fun f hf ↦ ?_, h⟩
      rcases List.mem_cons.1 hf with rfl | hf
      · exact .inl (Nat.lt_of_not_le hgt)
      · have := hg f hf
        unfold Entry.Before at this ⊢
        omega

/-- An entry that is due before all others is placed first. -/
theorem place_of_forall_lt {e : Entry α} {l : List (Entry α)} (h : ∀ f ∈ l, e.time < f.time) :
    place e l = e :: l := by
  cases l with
  | nil => rfl
  | cons f rest =>
    rw [place, if_neg]
    exact Nat.not_le_of_lt (h f (List.mem_cons_self ..))

/-- An entry has the same place among some of the others. So the entries up to an instant can be
looked at on their own, whatever else is to come. -/
theorem filter_place {e : Entry α} {l : List (Entry α)} {p : Entry α → Bool} (he : p e = true)
    (h : l.Pairwise Entry.Before) : (place e l).filter p = place e (l.filter p) := by
  induction l with
  | nil => simp [place, he]
  | cons f rest ih =>
    obtain ⟨hf, hrest⟩ := List.pairwise_cons.1 h
    rw [place]
    split
    · next hle =>
      cases hp : p f with
      | true =>
        rw [List.filter_cons_of_pos hp, List.filter_cons_of_pos hp, ih hrest, place, if_pos hle]
      | false =>
        rw [List.filter_cons_of_neg (by simp [hp]), List.filter_cons_of_neg (by simp [hp]),
          ih hrest]
    · next hgt =>
      -- All that stand after `f` are due later than `e`, too.
      rw [List.filter_cons_of_pos he, place_of_forall_lt]
      intro g hg
      rcases List.mem_cons.1 (List.mem_filter.1 hg).1 with rfl | hmem
      · omega
      · have hbefore := hf g hmem
        rw [Entry.Before] at hbefore
        omega

/-- An entry that is not among some leaves them as they are. -/
theorem filter_place_of_not {e : Entry α} {l : List (Entry α)} {p : Entry α → Bool}
    (he : p e = false) : (place e l).filter p = l.filter p := by
  induction l with
  | nil => simp [place, he]
  | cons f rest ih =>
    rw [place]
    split
    · rw [List.filter_cons, List.filter_cons, ih]
    · rw [List.filter_cons_of_neg (by simp [he])]

/-! ### Operations -/

/-- How many entries wait. -/
def size (a : Agenda α) : Nat := a.entries.length

/-- When the next entry is due. -/
def nextTime? (a : Agenda α) : Option Nat := a.entries.head?.map (·.time)

/-- Adds an entry for an instant, or for the present one if that has passed. -/
def put (time : Nat) (target : Nat) (action : Action α) (a : Agenda α) : Agenda α where
  now := a.now
  added := a.added + 1
  entries := place ⟨max time a.now, a.added, target, action⟩ a.entries
  ordered := ordered_place a.ordered a.numbered
  numbered := fun e he ↦ by
    rcases mem_place.1 he with rfl | he
    · exact Nat.lt_succ_self _
    · exact Nat.lt_succ_of_lt (a.numbered e he)
  ahead := fun e he ↦ by
    rcases mem_place.1 he with rfl | he
    · exact Nat.le_max_right ..
    · exact a.ahead e he

/-- Adds something that happens at an instant. -/
def addAt (time : Nat) (target : Nat) (happening : α) (a : Agenda α) : Agenda α :=
  a.put time target (.model happening)

/-- Adds something that happens after a delay. -/
def addAfter (delay : Nat) (target : Nat) (happening : α) (a : Agenda α) : Agenda α :=
  a.addAt (saturatingAdd a.now delay) target happening

/-- Adds the end of the run. It is for nobody in particular, which target zero stands for. -/
def closeAt (time : Nat) (a : Agenda α) : Agenda α := a.put time 0 .close

/-- Takes the next entry and moves the clock to it. -/
def next? (a : Agenda α) : Option (Entry α × Agenda α) :=
  match h : a.entries with
  | [] => none
  | e :: rest =>
    have ordered : (e :: rest).Pairwise Entry.Before := h ▸ a.ordered
    some (e, {
      now := e.time
      added := a.added
      entries := rest
      ordered := (List.pairwise_cons.1 ordered).2
      numbered := fun f hf ↦ a.numbered f (h ▸ List.mem_cons_of_mem _ hf)
      ahead := fun f hf ↦ by
        have := (List.pairwise_cons.1 ordered).1 f hf
        rw [Entry.Before] at this
        omega })

/-! ### What an agenda holds -/

theorem entries_put_perm (time target : Nat) (action : Action α) (a : Agenda α) :
    (a.put time target action).entries.Perm
      (⟨max time a.now, a.added, target, action⟩ :: a.entries) :=
  place_perm ..

/-- The entry that is taken is the first one, and the clock shows when it was due. -/
theorem next?_eq_some {e : Entry α} {a b : Agenda α} (h : a.next? = some (e, b)) :
    a.entries = e :: b.entries ∧ b.now = e.time := by
  rw [next?] at h
  split at h
  · exact absurd h (by simp)
  · next f rest hentries =>
    obtain ⟨rfl, rfl⟩ := Prod.mk.inj (Option.some.inj h)
    exact ⟨hentries, rfl⟩

/-- Taking an entry adds none. -/
theorem added_of_next? {e : Entry α} {a b : Agenda α} (h : a.next? = some (e, b)) :
    b.added = a.added := by
  rw [next?] at h
  split at h
  · exact absurd h (by simp)
  · obtain ⟨-, rfl⟩ := Prod.mk.inj (Option.some.inj h)
    rfl

theorem entries_of_next?_eq_none {a : Agenda α} (h : a.next? = none) : a.entries = [] := by
  rw [next?] at h
  split at h
  · assumption
  · exact absurd h (by simp)

/-- The clock and all entries are within a word. -/
structure Timely (a : Agenda α) : Prop where
  /-- The clock is. -/
  now_le : a.now ≤ maxWord
  /-- The entries are. -/
  time_le : ∀ e ∈ a.entries, e.time ≤ maxWord

/-- Adding an entry within a word keeps all within it, and so does the clock, to which a late one is
moved. -/
theorem Timely.put {time target : Nat} {action : Action α} {a : Agenda α} (h : a.Timely)
    (htime : time ≤ maxWord) : (a.put time target action).Timely where
  now_le := h.now_le
  time_le e he := by
    rcases mem_place.1 he with rfl | he
    · exact Nat.max_le.2 ⟨htime, h.now_le⟩
    · exact h.time_le e he

theorem Timely.next {e : Entry α} {a b : Agenda α} (h : a.Timely) (hnext : a.next? = some (e, b)) :
    b.Timely := by
  obtain ⟨hentries, hnow⟩ := next?_eq_some hnext
  have hall : ∀ f ∈ e :: b.entries, f.time ≤ maxWord := hentries ▸ h.time_le
  exact ⟨hnow ▸ hall e (List.mem_cons_self ..), fun f hf ↦ hall f (List.mem_cons_of_mem _ hf)⟩

end Agenda

end ReliableStream
