import ReliableStream.Ascending
import ReliableStream.Bounded
import ReliableStream.Packet

/-!
# Putting a stream together again

The receiving side keeps the chunks that arrived ahead of the stream. Its *edge* is the place of
the next byte it expects. A chunk that starts before the edge is not kept; `drain` takes out the
chunks that continue the stream from the edge, one after the other, and moves the edge past them.

Only a chunk that starts exactly at the edge continues the stream. One that the edge moved past
while it was waiting is left where it is.

Draining goes through the chunks in order, once, and what is proved of it goes the same way. A fact
about the edge is proved by `drainFrom_induction`, which has one step for a chunk that starts at the
edge; a fact about the chunks that stay follows the cases of the loop (`ne_edge_of_mem_rest`).
-/

namespace ReliableStream

/-- Bytes at a place of the stream. -/
structure Chunk where
  /-- The place of the first byte. -/
  seq : Nat
  /-- The bytes. -/
  bytes : Bytes
  deriving DecidableEq

/-- Chunks that wait for the stream to reach them. -/
structure Reassembly where
  /-- The place of the next byte expected. -/
  edge : Nat := 0
  /-- The chunks that arrived ahead, in the order of the stream. -/
  waiting : Ascending Chunk.seq := ∅
  deriving DecidableEq

namespace Reassembly

/-- Whether a chunk that starts at `seq` was already handed over. -/
def isStale (seq : Nat) (r : Reassembly) : Bool := seq < r.edge

/-- Keeps a chunk, in place of one that starts at the same byte. A stale chunk is not kept. -/
def add (chunk : Chunk) (r : Reassembly) : Reassembly :=
  if r.isStale chunk.seq then r else { r with waiting := r.waiting.insert chunk }

/-- Whether a chunk that starts at `seq` has arrived, handed over or not. -/
def Has (seq : Nat) (r : Reassembly) : Prop :=
  seq < r.edge ∨ ∃ chunk ∈ r.waiting.toList, chunk.seq = seq

/-- What has arrived still has when a chunk is kept, and so has the chunk. Another one that waited
may have been replaced, but only by a chunk with the same place. -/
theorem has_add {seq : Nat} {chunk : Chunk} {r : Reassembly} (h : seq = chunk.seq ∨ r.Has seq) :
    (r.add chunk).Has seq := by
  have hplace (c : Chunk) := Ascending.mem_place (x := chunk) (z := c) r.waiting.ordered
  rw [add]
  split
  · next hstale => exact h.elim (fun heq ↦ .inl (heq ▸ of_decide_eq_true hstale)) id
  · rcases h with rfl | hlt | ⟨c, hc, rfl⟩
    · exact .inr ⟨chunk, (hplace chunk).2 (.inl rfl), rfl⟩
    · exact .inl hlt
    · by_cases heq : c.seq = chunk.seq
      · exact .inr ⟨chunk, (hplace chunk).2 (.inl rfl), heq.symm⟩
      · exact .inr ⟨c, (hplace c).2 (.inr ⟨hc, heq⟩), rfl⟩

/-! ### Draining -/

/-- What draining a list of chunks gives. -/
structure Drained where
  /-- The bytes that continue the stream. -/
  bytes : Bytes
  /-- The edge after them. -/
  edge : Nat
  /-- The chunks that stay. -/
  rest : List Chunk

/-- Drains chunks in ascending order from an edge. An empty chunk at the edge is taken out and ends
the draining, since it does not move the edge. -/
def drainFrom (edge : Nat) : List Chunk → Drained
  | [] => ⟨[], edge, []⟩
  | chunk :: rest =>
    if chunk.seq < edge then
      let after := drainFrom edge rest
      { after with rest := chunk :: after.rest }
    else if chunk.seq = edge then
      if chunk.bytes.isEmpty then ⟨[], edge, rest⟩
      else
        let after := drainFrom (saturatingAdd edge chunk.bytes.length) rest
        { after with bytes := chunk.bytes ++ after.bytes }
    else ⟨[], edge, chunk :: rest⟩

/-- Draining only takes chunks out, so those that stay are still in order. -/
theorem rest_drainFrom_sublist (edge : Nat) (chunks : List Chunk) :
    (drainFrom edge chunks).rest.Sublist chunks := by
  induction chunks generalizing edge with
  | nil => exact .slnil
  | cons chunk rest ih =>
    rw [drainFrom]
    split
    · exact (ih edge).cons_cons chunk
    · split
      · split
        · exact List.sublist_cons_self ..
        · exact (ih _).cons chunk
      · exact List.Sublist.refl _

/-- Takes out everything that continues the stream, and moves the edge past it. -/
def drain (r : Reassembly) : Bytes × Reassembly :=
  let drained := drainFrom r.edge r.waiting.toList
  (drained.bytes, ⟨drained.edge, r.waiting.restrict drained.rest (rest_drainFrom_sublist ..)⟩)

@[simp] theorem edge_add (chunk : Chunk) (r : Reassembly) : (r.add chunk).edge = r.edge := by
  rw [add]
  split <;> rfl

/-- What waits after a chunk was handed over waited before, or it is that chunk, if not stale. -/
theorem mem_waiting_add {chunk x : Chunk} {r : Reassembly}
    (h : x ∈ (r.add chunk).waiting.toList) :
    x = chunk ∧ r.edge ≤ chunk.seq ∨ x ∈ r.waiting.toList := by
  rw [add] at h
  split at h
  · exact .inr h
  · next hfresh =>
    have hedge : r.edge ≤ chunk.seq := by simpa [isStale] using hfresh
    exact (Ascending.mem_of_mem_place h).imp_left fun heq ↦ ⟨heq, hedge⟩

/-- What waits after draining waited before. -/
theorem mem_waiting_drain {x : Chunk} {r : Reassembly} (h : x ∈ r.drain.2.waiting.toList) :
    x ∈ r.waiting.toList :=
  (rest_drainFrom_sublist ..).subset h

/-- Draining is a loop: what holds of the edge when nothing was given out yet, and is kept when a
chunk that starts at the edge is given out, holds in the end. -/
theorem drainFrom_induction {motive : Bytes → Nat → Prop} {edge : Nat} {chunks : List Chunk}
    (start : motive [] edge)
    (step : ∀ (bytes : Bytes) (chunk : Chunk), chunk ∈ chunks → chunk.bytes ≠ [] →
      motive bytes chunk.seq →
      motive (bytes ++ chunk.bytes) (saturatingAdd chunk.seq chunk.bytes.length)) :
    motive (drainFrom edge chunks).bytes (drainFrom edge chunks).edge := by
  -- Something may have been given out before the loop gets to where it is.
  suffices hloop : ∀ bytes, motive bytes edge →
      motive (bytes ++ (drainFrom edge chunks).bytes) (drainFrom edge chunks).edge from
    hloop [] start
  clear start
  induction chunks generalizing edge with
  | nil => simp [drainFrom]
  | cons chunk rest ih =>
    have hrest {edge : Nat} := @ih edge fun bytes x hx ↦ step bytes x (List.mem_cons_of_mem _ hx)
    intro bytes hbytes
    rw [drainFrom]
    split
    · exact hrest bytes hbytes
    · split
      · next heq =>
        subst heq
        split
        · simpa using hbytes
        · next hsome =>
          dsimp only
          rw [← List.append_assoc]
          exact hrest _ (step bytes chunk (List.mem_cons_self ..) (by simpa using hsome) hbytes)
      · simpa using hbytes

/-- Nothing is given out if no chunk starts at the edge, whatever else waits. -/
theorem drainFrom_of_forall_ne {edge : Nat} {chunks : List Chunk}
    (h : ∀ chunk ∈ chunks, chunk.seq ≠ edge) : drainFrom edge chunks = ⟨[], edge, chunks⟩ := by
  induction chunks with
  | nil => rfl
  | cons chunk rest ih =>
    rw [drainFrom, if_neg (h chunk (List.mem_cons_self ..)),
      ih fun x hx ↦ h x (List.mem_cons_of_mem _ hx)]
    split <;> rfl

theorem drainFrom_edge_le {edge : Nat} (h : edge ≤ maxWord) (chunks : List Chunk) :
    (drainFrom edge chunks).edge ≤ maxWord :=
  drainFrom_induction (motive := fun _ edge ↦ edge ≤ maxWord) h fun _ _ _ _ _ ↦ saturatingAdd_le ..

/-- Draining never moves the edge back. Each chunk that is given out starts where the edge was. -/
theorem le_drainFrom_edge {edge : Nat} (h : edge ≤ maxWord) (chunks : List Chunk) :
    edge ≤ (drainFrom edge chunks).edge :=
  (drainFrom_induction (motive := fun _ after ↦ edge ≤ after ∧ after ≤ maxWord) ⟨Nat.le_refl _, h⟩
    fun _ _ _ _ hafter ↦
      ⟨Nat.le_trans hafter.1 (le_saturatingAdd _ hafter.2), saturatingAdd_le ..⟩).1

/-- What is left after draining does not continue the stream. So draining twice is draining once,
and a chunk that arrives later is the only one that can set it off again. -/
theorem ne_edge_of_mem_rest {edge : Nat} {l : List Chunk} (hedge : edge ≤ maxWord)
    (hl : l.Pairwise (·.seq < ·.seq)) :
    ∀ chunk ∈ (drainFrom edge l).rest, chunk.seq ≠ (drainFrom edge l).edge := by
  induction l generalizing edge with
  | nil => exact fun _ h ↦ absurd h List.not_mem_nil
  | cons chunk rest ih =>
    obtain ⟨hfirst, hrest⟩ := List.pairwise_cons.1 hl
    intro x hx
    rw [drainFrom] at hx ⊢
    split at hx
    · next hlt =>
      rw [if_pos hlt]
      rcases List.mem_cons.1 hx with rfl | hx
      · exact Nat.ne_of_lt (Nat.lt_of_lt_of_le hlt (le_drainFrom_edge hedge rest))
      -- The chunk was passed, and stays; the edge goes on behind it.
      · exact ih hedge hrest x hx
    · next hle =>
      rw [if_neg hle]
      split at hx
      · next heq =>
        rw [if_pos heq]
        split at hx
        · next hempty =>
          rw [if_pos hempty]
          -- An empty chunk ended it, and the others start behind that one.
          exact heq ▸ (Nat.ne_of_lt (hfirst x hx)).symm
        · next hne =>
          rw [if_neg hne]
          exact ih (saturatingAdd_le ..) hrest x hx
      · next hne =>
        rw [if_neg hne]
        rcases List.mem_cons.1 hx with rfl | hx
        · exact hne
        · have := hfirst x hx
          simp only
          omega

theorem drain_edge_le {r : Reassembly} (h : r.edge ≤ maxWord) : r.drain.2.edge ≤ maxWord :=
  drainFrom_edge_le h _

theorem le_drain_edge {r : Reassembly} (h : r.edge ≤ maxWord) : r.edge ≤ r.drain.2.edge :=
  le_drainFrom_edge h _

end Reassembly

end ReliableStream
