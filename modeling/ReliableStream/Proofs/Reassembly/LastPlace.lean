import ReliableStream.Proofs.Reassembly.Requests

/-!
# The last place of a stream

Places are words, so a stream has a last one, and the edge stays there once it has got there. Before
that the edge is always as many places behind the start as bytes were given out
(`placed_serveAll`), whatever comes.

At the last place a chunk that starts there is given out without moving the edge, and would be given
out again. It takes no more than that for a byte to be given out twice: if what comes ends with the
last place at the latest, and none of it but an empty chunk starts there, then no more bytes are
given out than there are places (`length_serveAll_le`).
-/

namespace ReliableStream

/-- A chunk keeps off the end of the stream: it has no bytes behind the last place, and unless it is
empty it does not start there. -/
def Chunk.KeepsOff (chunk : Chunk) : Prop :=
  chunk.bytes = [] ∨ chunk.seq < maxWord ∧ chunk.seq + chunk.bytes.length ≤ maxWord + 1

instance (chunk : Chunk) : Decidable chunk.KeepsOff := inferInstanceAs (Decidable (_ ∨ _))

namespace Reassembly

variable {start count : Nat} {chunk : Chunk} {r : Reassembly} {requests : List Request}

/-- The edge is as far behind the start as so many bytes take, until it is at the last place. -/
structure Placed (start count edge : Nat) : Prop where
  /-- The edge is a place. -/
  edge_le : edge ≤ maxWord
  /-- Before the last place it shows how many bytes there were. -/
  edge_eq : edge < maxWord → edge = start + count

/-- A chunk at the edge moves it by its length, unless the edge is held at the last place. -/
theorem Placed.append (h : Placed start count chunk.seq) (hne : chunk.bytes ≠ []) :
    Placed start (count + chunk.bytes.length)
      (saturatingAdd chunk.seq chunk.bytes.length) := by
  refine ⟨saturatingAdd_le .., fun hlt ↦ ?_⟩
  have hpos : 0 < chunk.bytes.length := List.length_pos_iff.2 hne
  have hedge := h.edge_eq
  rw [saturatingAdd] at hlt ⊢
  omega

/-- A chunk that keeps off the end is given out before the edge is at the last place. -/
theorem Placed.add_length_le (h : Placed start count chunk.seq) (hne : chunk.bytes ≠ [])
    (hoff : chunk.KeepsOff) : start + (count + chunk.bytes.length) ≤ maxWord + 1 := by
  obtain ⟨hlt, hstop⟩ := hoff.resolve_left hne
  have hedge := h.edge_eq hlt
  omega

theorem Placed.drain (h : Placed start count r.edge) :
    Placed start (count + r.drain.1.length) r.drain.2.edge :=
  drainFrom_induction
    (motive := fun bytes edge ↦ Placed start (count + bytes.length) edge) h
    fun bytes chunk _ hne hplaced ↦ by
      rw [List.length_append, ← Nat.add_assoc]
      exact hplaced.append hne

/-- Draining gives out no more than there are places, if all that waits keeps off the end. -/
theorem Placed.add_length_drain_le (h : Placed start count r.edge)
    (hcount : start + count ≤ maxWord + 1)
    (hoff : ∀ chunk ∈ r.waiting.toList, chunk.KeepsOff) :
    start + (count + r.drain.1.length) ≤ maxWord + 1 :=
  (drainFrom_induction
    (motive := fun bytes edge ↦ Placed start (count + bytes.length) edge ∧
      start + (count + bytes.length) ≤ maxWord + 1) ⟨h, hcount⟩
    fun bytes chunk hmem hne hbefore ↦ by
      rw [List.length_append, ← Nat.add_assoc]
      exact ⟨hbefore.1.append hne, hbefore.1.add_length_le hne (hoff chunk hmem)⟩).2

/-! ### After any requests -/

/-- Before the last place the edge shows how much was given out, whatever was handed over. -/
theorem placed_serveAll (hstart : start ≤ maxWord) (hresets : ∀ seq, .reset seq ∉ requests) :
    Placed start (serveAll requests { edge := start }).1.length
      (serveAll requests { edge := start }).2.edge := by
  induction requests using List.reverseRecOn with
  | nil => exact ⟨hstart, fun _ ↦ rfl⟩
  | append_singleton before request ih =>
    have hbefore := ih fun seq h ↦ hresets seq (List.mem_append_left _ h)
    rw [serveAll_concat, List.length_append]
    cases request with
    | add chunk => simpa [serve] using hbefore
    | take => exact hbefore.drain
    | reset seq => exact absurd (by simp) (hresets seq)

/-- **No more bytes are given out than there are places**, if all that comes keeps off the end.
While the edge is not at the last place it counts them, and once it is there nothing more is given
out. -/
theorem length_serveAll_le (hstart : start ≤ maxWord) (hresets : ∀ seq, .reset seq ∉ requests)
    (hoff : ∀ chunk, .add chunk ∈ requests → chunk.KeepsOff) :
    start + (serveAll requests { edge := start }).1.length ≤ maxWord + 1 := by
  induction requests using List.reverseRecOn with
  | nil => exact Nat.le_add_right_of_le hstart
  | append_singleton before request ih =>
    have hresets' : ∀ seq, .reset seq ∉ before := fun seq h ↦
      hresets seq (List.mem_append_left _ h)
    have hoff' : ∀ chunk, .add chunk ∈ before → chunk.KeepsOff := fun chunk h ↦
      hoff chunk (List.mem_append_left _ h)
    have hbefore := ih hresets' hoff'
    rw [serveAll_concat, List.length_append]
    cases request with
    | add chunk => simpa [serve] using hbefore
    | take =>
      exact (placed_serveAll hstart hresets').add_length_drain_le hbefore
        fun chunk hmem ↦ hoff' chunk (mem_of_mem_waiting hmem)
    | reset seq => exact absurd (by simp) (hresets seq)

end Reassembly

end ReliableStream
