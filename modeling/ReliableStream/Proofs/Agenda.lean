import Mathlib.Data.List.Nodup
import ReliableStream.Agenda

/-!
# What an agenda keeps of its promises

An agenda is a queue that is stable: entries come out in the order of their instants, and those of
one instant in the order in which they were added. This is said against a ledger, which is kept
beside the agenda and never looks into it. It lists what was scheduled, each entry with the instant
at which it is due, and what was taken; its clock is that of the entry taken last.

Whatever is asked of a new agenda, one call after the other, the agenda serves the ledger
(`serves_ledger`): it gives what the ledger says is next, nothing twice, and nothing that was not
scheduled. All of it rests on one invariant (`Agrees`): what waits is what was scheduled and not
taken, in some order, and that order is the one in the type of agendas.

The ledger never looks at the order in which the agenda keeps its entries, so that order has to be
found again: what is pending is numbered in the order in which it was scheduled, and sorting it by
instants, which keeps the order of equal ones, gives a list that is ordered as the agenda's is
(`pairwise_mergeSort`). Two ordered lists with the same entries are equal, so the agenda is that
list (`Agrees.entries_eq`), and all promises about what comes next are read off it.
-/

namespace ReliableStream.Agenda

variable {α : Type}

/-! ### Calls -/

/-- What can be asked of an agenda. -/
inductive Call (α : Type) where
  /-- Something happens at an instant. -/
  | addAt (time target : Nat) (happening : α)
  /-- Something happens after a delay. -/
  | addAfter (delay target : Nat) (happening : α)
  /-- The run ends at an instant. -/
  | closeAt (time : Nat)
  /-- The next entry is taken. -/
  | next

/-- What an agenda answers to a call, an entry if one is taken, and the agenda afterwards. -/
def perform (call : Call α) (a : Agenda α) : Option (Entry α) × Agenda α :=
  match call with
  | .addAt time target happening => (none, a.addAt time target happening)
  | .addAfter delay target happening => (none, a.addAfter delay target happening)
  | .closeAt time => (none, a.closeAt time)
  | .next => a.next?.elim (none, a) fun (e, b) ↦ (some e, b)

/-- The entries that are taken next, up to a number of them. -/
def takeNext : Nat → Agenda α → List (Entry α)
  | 0, _ => []
  | n + 1, a =>
    match a.next? with
    | none => []
    | some (e, b) => e :: takeNext n b

/-! ### The ledger -/

/-- What was scheduled and what was taken, each in order. -/
structure Ledger (α : Type) where
  /-- What was scheduled. -/
  scheduled : List (Entry α) := []
  /-- What was taken. -/
  taken : List (Entry α) := []

namespace Ledger

/-- When the entry taken last was due. -/
def clock (l : Ledger α) : Nat := l.taken.getLast?.elim 0 (·.time)

/-- What was scheduled and not taken, in the order in which it was scheduled. -/
def pending (l : Ledger α) : List (Entry α) :=
  l.scheduled.filter fun e ↦ e.order ∉ l.taken.map (·.order)

/-- The next entry to be scheduled, if something is asked for at an instant. It is due then, but not
before the present. -/
def entry (time target : Nat) (action : Action α) (l : Ledger α) : Entry α :=
  ⟨max time l.clock, l.scheduled.length, target, action⟩

/-- What a call schedules. -/
def booked (call : Call α) (l : Ledger α) : Option (Entry α) :=
  match call with
  | .addAt time target happening => some (l.entry time target (.model happening))
  | .addAfter delay target happening =>
    some (l.entry (saturatingAdd l.clock delay) target (.model happening))
  | .closeAt time => some (l.entry time 0 .close)
  | .next => none

/-- The ledger after a call and the answer to it. -/
def enter (call : Call α) (answer : Option (Entry α)) (l : Ledger α) : Ledger α where
  scheduled := l.scheduled ++ (l.booked call).toList
  taken := l.taken ++ answer.toList

end Ledger

/-- A new agenda and its ledger, after calls one after the other. -/
def keep (calls : List (Call α)) : Agenda α × Ledger α :=
  calls.foldl (fun (a, l) call ↦ ((a.perform call).2, l.enter call (a.perform call).1)) ({}, {})

/-! ### The invariant -/

/-- What an agenda has to do with its ledger. -/
structure Agrees (a : Agenda α) (l : Ledger α) : Prop where
  /-- The clock shows when the entry taken last was due. -/
  now_eq : a.now = l.clock
  /-- As many were added as were scheduled. -/
  added_eq : a.added = l.scheduled.length
  /-- What waits was scheduled and not taken. -/
  perm : (l.taken ++ a.entries).Perm l.scheduled
  /-- Entries are numbered as they were scheduled. -/
  orders_eq : l.scheduled.map (·.order) = List.range l.scheduled.length

namespace Agrees

variable {a b : Agenda α} {l : Ledger α} {e : Entry α} {call : Call α} {time target : Nat}
  {action : Action α}

theorem create : Agrees ({} : Agenda α) {} := ⟨rfl, rfl, .refl _, rfl⟩

/-- Something is scheduled. It is due when the ledger says, because both clocks are the same. -/
theorem put (h : Agrees a l) :
    Agrees (a.put time target action)
      { l with scheduled := l.scheduled ++ [l.entry time target action] } where
  now_eq := h.now_eq
  added_eq := by
    rw [List.length_append, List.length_singleton, ← h.added_eq]
    rfl
  perm := by
    have hentry : l.entry time target action = ⟨max time a.now, a.added, target, action⟩ := by
      rw [Ledger.entry, h.now_eq, h.added_eq]
    rw [hentry]
    have hplaced := (a.entries_put_perm time target action).append_left l.taken
    refine hplaced.trans (List.perm_middle.trans ?_)
    exact (h.perm.cons _).trans (List.perm_append_singleton _ _).symm
  orders_eq := by
    rw [List.map_append, h.orders_eq, List.length_append, List.length_singleton, List.range_succ]
    rfl

/-- An entry is taken. It moves from those that wait to those that were taken, so their union is as
it was. -/
theorem next (h : Agrees a l) (hnext : a.next? = some (e, b)) :
    Agrees b { l with taken := l.taken ++ [e] } where
  now_eq := by
    rw [Ledger.clock, List.getLast?_concat, (next?_eq_some hnext).2]
    rfl
  added_eq := (added_of_next? hnext).trans h.added_eq
  perm := by
    have hperm := h.perm
    rw [(next?_eq_some hnext).1] at hperm
    rwa [List.append_assoc]
  orders_eq := h.orders_eq

/-- **Every call keeps the agreement**, since it either schedules one entry, or takes one, or does
neither. -/
theorem perform (h : Agrees a l) :
    Agrees (a.perform call).2 (l.enter call (a.perform call).1) := by
  cases call with
  | addAt | closeAt =>
    simp only [Agenda.perform, Ledger.enter, Option.toList_none, List.append_nil]
    exact h.put
  | addAfter =>
    simp only [Agenda.perform, Ledger.enter, Option.toList_none, List.append_nil, Ledger.booked,
      ← h.now_eq]
    exact h.put
  | next =>
    simp only [Agenda.perform, Ledger.enter, Ledger.booked, Option.toList_none, List.append_nil]
    cases hnext : a.next? with
    | none => simpa using h
    | some taken => exact h.next hnext

/-! ### What waits -/

/-- Nothing was scheduled twice. -/
theorem nodup_orders (h : Agrees a l) : ((l.taken ++ a.entries).map (·.order)).Nodup := by
  rw [(h.perm.map (·.order)).nodup_iff, h.orders_eq]
  exact List.nodup_range

/-- What waits is what is pending: no number is there twice, so none that was taken still waits. -/
theorem pending_perm (h : Agrees a l) : l.pending.Perm a.entries := by
  have hnodup := h.nodup_orders
  rw [List.map_append] at hnodup
  have hdisjoint := List.disjoint_of_nodup_append hnodup
  refine (h.perm.filter _).symm.trans ?_
  rw [List.filter_append, List.filter_eq_nil_iff.2, List.filter_eq_self.2, List.nil_append]
  · intro e he
    simpa using fun t ht heq ↦ hdisjoint (List.mem_map_of_mem ht) (heq ▸ List.mem_map_of_mem he)
  · intro e he
    simpa using ⟨e, he, rfl⟩

/-- What is pending is in the order in which it was scheduled, as it is what is left of that list.
-/
theorem pairwise_pending (h : Agrees a l) : l.pending.Pairwise (·.order < ·.order) := by
  have hall : l.scheduled.Pairwise (·.order < ·.order) := by
    rw [← List.pairwise_map, h.orders_eq]
    exact List.pairwise_lt_range
  exact hall.filter _

end Agrees

/-! ### Sorting -/

/-- Whether one entry is due no later than another one. -/
def Entry.dueBy (e f : Entry α) : Bool := e.time ≤ f.time

theorem Entry.dueBy_trans (e f g : Entry α) :
    e.dueBy f = true → f.dueBy g = true → e.dueBy g = true := by
  simp only [dueBy, decide_eq_true_eq]
  exact Nat.le_trans

theorem Entry.dueBy_total (e f : Entry α) : (e.dueBy f || f.dueBy e) = true := by
  simp only [dueBy, Bool.or_eq_true, decide_eq_true_eq]
  exact Nat.le_total ..

/-- The greater of two entries by urgency is the one that is taken first. -/
theorem Entry.urgency_eq_gt_iff {e f : Entry α} : e.urgency f = .gt ↔ e.Before f := by
  rw [urgency, Before, Ordering.then_eq_gt, Nat.compare_eq_gt, Nat.compare_eq_gt,
    Nat.compare_eq_eq, eq_comm]

/-- Sorting by instants keeps the entries of one instant in their order: the sort is stable. -/
theorem filter_mergeSort (time : Nat) (l : List (Entry α)) :
    (l.mergeSort Entry.dueBy).filter (·.time = time) = l.filter (·.time = time) := by
  have hsorted : (l.filter (·.time = time)).Pairwise fun e f ↦ e.dueBy f = true := by
    refine List.pairwise_of_forall_mem_list fun e he f hf ↦ ?_
    have hboth : e.time = time ∧ f.time = time := by simp_all
    simp [Entry.dueBy, hboth]
  have hsub := List.sublist_mergeSort Entry.dueBy_trans Entry.dueBy_total hsorted
    List.filter_sublist
  have hfiltered := hsub.filter (·.time = time)
  rw [List.filter_filter] at hfiltered
  simp only [Bool.and_self] at hfiltered
  exact (hfiltered.eq_of_length (((List.mergeSort_perm l _).filter _).length_eq.symm)).symm

/-- Sorting by instants what is numbered in its order gives the order in which it is taken. Of
entries at different instants the sort decides, and of entries at the same one their numbers do,
since it is stable. -/
theorem pairwise_mergeSort {l : List (Entry α)} (h : l.Pairwise (·.order < ·.order)) :
    (l.mergeSort Entry.dueBy).Pairwise Entry.Before := by
  rw [List.pairwise_iff_forall_sublist]
  intro e f hpair
  have hle : e.time ≤ f.time := by
    have hsorted := List.pairwise_mergeSort Entry.dueBy_trans Entry.dueBy_total l
    simpa [Entry.dueBy] using List.pairwise_iff_forall_sublist.1 hsorted hpair
  rcases Nat.lt_or_eq_of_le hle with hlt | heq
  · exact .inl hlt
  · have hsame := hpair.filter (·.time = e.time)
    rw [filter_mergeSort] at hsame
    simp only [List.filter_cons, heq, decide_true, if_true, List.filter_nil] at hsame
    exact .inr ⟨heq, List.pairwise_iff_forall_sublist.1 h (hsame.trans List.filter_sublist)⟩

/-- No two entries come before each other. So there is one order in which they can be taken. -/
theorem Entry.Before.asymm {e f : Entry α} (h : e.Before f) : ¬ f.Before e := by
  rw [Before] at h ⊢
  omega

/-- **The entries of an agenda are what is pending, sorted by instants.** Both are in the same
order, which allows for one list only. -/
theorem Agrees.entries_eq {a : Agenda α} {l : Ledger α} (h : Agrees a l) :
    a.entries = l.pending.mergeSort Entry.dueBy :=
  (h.pending_perm.symm.trans (List.mergeSort_perm ..).symm).eq_of_pairwise
    (fun _ _ _ _ hef hfe ↦ absurd hfe hef.asymm) a.ordered (pairwise_mergeSort h.pairwise_pending)

/-- Entries are taken from the front, one after the other, as nothing is added in between. -/
theorem takeNext_eq (n : Nat) (a : Agenda α) : a.takeNext n = a.entries.take n := by
  induction n generalizing a with
  | zero => rw [takeNext, List.take_zero]
  | succ n ih =>
    rw [takeNext]
    split
    · next hnext => rw [entries_of_next?_eq_none hnext, List.take_nil]
    · next e b hnext => rw [(next?_eq_some hnext).1, List.take_succ_cons, ih]

/-! ### What an agenda promises -/

/-- The clock is never put back. It moves only when an entry is taken, and none is earlier than the
clock. -/
theorem now_le_now_perform (call : Call α) (a : Agenda α) : a.now ≤ (a.perform call).2.now := by
  cases call with
  | addAt | addAfter | closeAt => exact Nat.le_refl _
  | next =>
    simp only [perform]
    cases hnext : a.next? with
    | none => exact Nat.le_refl _
    | some taken =>
      obtain ⟨hentries, hnow⟩ := next?_eq_some hnext
      rw [Option.elim_some, hnow]
      exact a.ahead _ (hentries ▸ List.mem_cons_self ..)

/-- An agenda is what its ledger says. -/
structure Serves (a : Agenda α) (l : Ledger α) : Prop where
  /-- The clock shows when the entry taken last was due. -/
  now_eq : a.now = l.clock
  /-- It is never put back. -/
  now_le : ∀ call, a.now ≤ (a.perform call).2.now
  /-- Entries are numbered as they were scheduled. -/
  orders_eq : l.scheduled.map (·.order) = List.range l.scheduled.length
  /-- What was taken was scheduled so. -/
  taken_sub : ∀ e ∈ l.taken, e ∈ l.scheduled
  /-- Nothing was taken twice. -/
  taken_nodup : l.taken.Nodup
  /-- As many wait as were scheduled and not taken. -/
  size_eq : a.size + l.taken.length = l.scheduled.length
  /-- Nothing is taken only if nothing is pending. -/
  next?_eq_none : a.next? = none ↔ l.pending = []
  /-- What is taken is pending, and comes before all else that is. -/
  next?_eq_some : ∀ e b, a.next? = some (e, b) →
    e ∈ l.pending ∧ ∀ f ∈ l.pending, f ≠ e → e.Before f
  /-- One knows when that will be due. -/
  nextTime?_eq : a.nextTime? = a.next?.map (·.1.time)
  /-- What is pending is taken in the order of its instants, which is stable. -/
  takeNext_eq : ∀ n, a.takeNext n = (l.pending.mergeSort Entry.dueBy).take n
  /-- And with falling urgency. -/
  falling : (l.pending.mergeSort Entry.dueBy).Pairwise fun e f ↦ e.urgency f = .gt

/-- What agrees with its ledger serves it. Each promise is a fact about what waits, about what is
pending, or about both being the same. -/
theorem Agrees.serves {a : Agenda α} {l : Ledger α} (h : Agrees a l) : a.Serves l where
  now_eq := h.now_eq
  now_le call := now_le_now_perform call a
  orders_eq := h.orders_eq
  taken_sub e he := h.perm.subset (List.mem_append_left _ he)
  taken_nodup := (List.nodup_append.1 h.nodup_orders.of_map).1
  size_eq := by
    rw [← h.perm.length_eq, List.length_append, Nat.add_comm]
    rfl
  next?_eq_none := by
    constructor
    · intro hnone
      -- Nothing waits, and what is pending is what waits.
      exact (entries_of_next?_eq_none hnone ▸ h.pending_perm).eq_nil
    · intro hnil
      cases hnext : a.next? with
      | none => rfl
      | some taken =>
        have hperm := h.pending_perm
        rw [hnil, (Agenda.next?_eq_some hnext).1] at hperm
        exact absurd hperm.nil_eq (List.cons_ne_nil _ _).symm
  next?_eq_some e b hnext := by
    have hentries := (Agenda.next?_eq_some hnext).1
    refine ⟨h.pending_perm.mem_iff.2 (hentries ▸ List.mem_cons_self ..), fun f hf hne ↦ ?_⟩
    have hmem := h.pending_perm.mem_iff.1 hf
    rw [hentries] at hmem
    exact (List.pairwise_cons.1 (hentries ▸ a.ordered)).1 f
      ((List.mem_cons.1 hmem).resolve_left hne)
  nextTime?_eq := by
    rw [nextTime?]
    cases hnext : a.next? with
    | none => rw [entries_of_next?_eq_none hnext]; rfl
    | some taken => rw [(Agenda.next?_eq_some hnext).1]; rfl
  takeNext_eq n := by rw [Agenda.takeNext_eq, h.entries_eq]
  falling := (pairwise_mergeSort h.pairwise_pending).imp Entry.urgency_eq_gt_iff.2

/-- **A stable queue with a clock.** Whatever is asked of a new agenda, it serves its ledger. -/
theorem serves_ledger (calls : List (Call α)) : (keep calls).1.Serves (keep calls).2 := by
  have hagrees : Agrees (keep calls).1 (keep calls).2 :=
    List.foldlRecOn (motive := fun kept : Agenda α × Ledger α ↦ Agrees kept.1 kept.2) calls _
      .create fun _ h _ _ ↦ h.perform
  exact hagrees.serves

/-- What is asked for at an instant that has passed comes at the present one, but not before what
was already to come then. -/
example : ((keep [.addAt 7 1 'a', .addAt 5 2 'b', .next, .addAt 5 3 'c', .addAt 2 4 'd',
    .addAfter 2 5 'e']).1.takeNext 4).map (fun e ↦ (e.time, e.target)) =
      [(5, 3), (5, 4), (7, 1), (7, 5)] := by decide

end ReliableStream.Agenda
