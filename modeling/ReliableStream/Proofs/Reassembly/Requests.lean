import Mathlib.Data.List.Induction
import Mathlib.Tactic.Common
import ReliableStream.Reassembly

/-!
# What waits in a reassembly

A reassembly is handed chunks, is asked for what continues the stream, and may be started again at
another place. `serveAll` gives it such requests one after the other, in any order.

A chunk is refused if it starts before the edge, but that is looked at only when it comes. Draining
moves the edge from chunk to chunk, past whatever starts inside one of them, and what it moved past
stays where it is. So what waits need not lie ahead of the edge: it does unless it starts inside
another chunk that was handed over (`ahead_or_inside`), and a chunk that was overtaken so is never
given out, and waits until the stream is started again.
-/

namespace ReliableStream

/-- A chunk starts inside another one, behind the first byte of it. -/
def Chunk.StartsInside (chunk other : Chunk) : Prop :=
  other.seq < chunk.seq ∧ chunk.seq < other.seq + other.bytes.length

instance (chunk other : Chunk) : Decidable (chunk.StartsInside other) :=
  inferInstanceAs (Decidable (_ ∧ _))

namespace Reassembly

/-! ### Requests -/

/-- What can be asked of a reassembly. -/
inductive Request where
  /-- Keep a chunk. -/
  | add (chunk : Chunk)
  /-- Give out what continues the stream. -/
  | take
  /-- Start the stream again, at a place. -/
  | reset (seq : Nat)
  deriving DecidableEq

/-- What a request gives, and the reassembly after it. -/
def serve (request : Request) (r : Reassembly) : Bytes × Reassembly :=
  match request with
  | .add chunk => ([], r.add chunk)
  | .take => r.drain
  | .reset seq => ([], { edge := seq })

/-- What requests one after the other give all in all, and the reassembly after them. -/
def serveAll : List Request → Reassembly → Bytes × Reassembly
  | [], r => ([], r)
  | request :: rest, r =>
    let (bytes, r) := r.serve request
    let (more, r) := r.serveAll rest
    (bytes ++ more, r)

/-- The chunks that were handed over since the stream was last started. -/
def added (requests : List Request) : List Chunk :=
  requests.foldl note []
where
  /-- One request more. -/
  note (sofar : List Chunk) : Request → List Chunk
    | .add chunk => sofar ++ [chunk]
    | .take => sofar
    | .reset _ => []

variable {edge start : Nat} {l : List Chunk} {chunk : Chunk} {r : Reassembly} {request : Request}
  {requests : List Request}

@[simp] theorem added_add : added (requests ++ [.add chunk]) = added requests ++ [chunk] := by
  simp [added, added.note]

@[simp] theorem added_take : added (requests ++ [.take]) = added requests := by
  simp [added, added.note]

/-- When the stream is started again all that was handed over is forgotten. -/
@[simp] theorem added_reset {seq : Nat} : added (requests ++ [.reset seq]) = [] := by
  simp [added, added.note]

theorem mem_of_mem_added (h : chunk ∈ added requests) : .add chunk ∈ requests := by
  induction requests using List.reverseRecOn with
  | nil => exact absurd h List.not_mem_nil
  | append_singleton before request ih =>
    cases request with
    | add other =>
      rw [added_add] at h
      rcases List.mem_append.1 h with hbefore | hlast
      · exact List.mem_append_left _ (ih hbefore)
      · obtain rfl := List.mem_singleton.1 hlast
        simp
    | take => exact List.mem_append_left _ (ih (added_take ▸ h))
    | reset seq => exact absurd (added_reset ▸ h) List.not_mem_nil

/-- One request more, after all others. -/
theorem serveAll_concat : serveAll (requests ++ [request]) r =
    ((serveAll requests r).1 ++ ((serveAll requests r).2.serve request).1,
      ((serveAll requests r).2.serve request).2) := by
  induction requests generalizing r with
  | nil => simp [serveAll]
  | cons first rest ih => simp [serveAll, ih]

/-! ### What is left behind -/

/-- A chunk that draining leaves where the edge has passed it was passed before, or it starts inside
a chunk that draining met. The induction is on the list: a chunk that is drained moves the edge, and
what this passes starts behind that chunk and before its end. -/
theorem inside_of_mem_rest (hl : l.Pairwise (·.seq < ·.seq)) :
    ∀ chunk ∈ (drainFrom edge l).rest, chunk.seq < (drainFrom edge l).edge →
      chunk.seq < edge ∨ ∃ other ∈ l, chunk.StartsInside other := by
  induction l generalizing edge with
  | nil => exact fun _ h ↦ absurd h List.not_mem_nil
  | cons first rest ih =>
    obtain ⟨hfirst, hrest⟩ := List.pairwise_cons.1 hl
    have hlater {seq : Nat} {chunk : Chunk}
        (h : chunk.seq < seq ∨ ∃ other ∈ rest, chunk.StartsInside other) :
        chunk.seq < seq ∨ ∃ other ∈ first :: rest, chunk.StartsInside other :=
      h.imp_right fun ⟨other, hmem, hinside⟩ ↦ ⟨other, List.mem_cons_of_mem _ hmem, hinside⟩
    intro chunk hmem hpassed
    rw [drainFrom] at hmem hpassed
    split at hmem
    · next hstale =>
      rw [if_pos hstale] at hpassed
      rcases List.mem_cons.1 hmem with rfl | hmem
      · exact .inl hstale
      · exact hlater (ih hrest chunk hmem hpassed)
    · next hfresh =>
      rw [if_neg hfresh] at hpassed
      split at hmem
      · next heq =>
        rw [if_pos heq] at hpassed
        split at hmem
        · next hempty =>
          rw [if_pos hempty] at hpassed
          exact .inl hpassed
        · next hsome =>
          rw [if_neg hsome] at hpassed
          -- The edge moves past the first chunk, and past what starts inside of it.
          rcases hlater (ih hrest chunk hmem hpassed) with hinside | hother
          · have hbehind := hfirst chunk ((rest_drainFrom_sublist ..).subset hmem)
            have hstop : chunk.seq < edge + first.bytes.length :=
              Nat.lt_of_lt_of_le hinside (Nat.min_le_left ..)
            exact .inr ⟨first, List.mem_cons_self .., hbehind, heq ▸ hstop⟩
          · exact .inr hother
      · next hne =>
        rw [if_neg hne] at hpassed
        exact .inl hpassed

/-- Draining leaves what the edge has passed, as it takes out nothing but chunks at the edge. -/
theorem mem_rest_of_lt (hmem : chunk ∈ l) (hpassed : chunk.seq < edge) (hedge : edge ≤ maxWord) :
    chunk ∈ (drainFrom edge l).rest := by
  induction l generalizing edge with
  | nil => exact absurd hmem List.not_mem_nil
  | cons first rest ih =>
    rw [drainFrom]
    rcases List.mem_cons.1 hmem with rfl | hmem
    · rw [if_pos hpassed]
      exact List.mem_cons_self ..
    · split
      · exact List.mem_cons_of_mem _ (ih hmem hpassed hedge)
      · split
        · split
          · exact hmem
          · exact ih hmem (Nat.lt_of_lt_of_le hpassed (le_saturatingAdd _ hedge))
              (saturatingAdd_le ..)
        · exact List.mem_cons_of_mem _ hmem

/-- What waits was handed over, and what the edge has passed starts inside another chunk. -/
structure Waits (requests : List Request) (r : Reassembly) : Prop where
  /-- It was handed over. -/
  mem_added : ∀ chunk ∈ r.waiting.toList, chunk ∈ added requests
  /-- If the edge has passed it then it starts inside another chunk. -/
  inside : ∀ chunk ∈ r.waiting.toList, chunk.seq < r.edge →
    ∃ other ∈ added requests, chunk.StartsInside other

/-- A stream that is started has nothing that waits. -/
theorem waits_start : Waits requests { edge := start } :=
  ⟨fun _ h ↦ absurd h List.not_mem_nil, fun _ h ↦ absurd h List.not_mem_nil⟩

/-- A chunk that comes waits ahead of the edge, or is stale and not kept. -/
theorem Waits.add (h : Waits requests r) (chunk : Chunk) :
    Waits (requests ++ [.add chunk]) (r.add chunk) := by
  have hmore {x : Chunk} (hx : ∃ other ∈ added requests, x.StartsInside other) :
      ∃ other ∈ added (requests ++ [.add chunk]), x.StartsInside other := by
    obtain ⟨other, hmem, hinside⟩ := hx
    exact ⟨other, by simp [hmem], hinside⟩
  refine ⟨fun x hx ↦ ?_, fun x hx hpassed ↦ ?_⟩
  · rcases mem_waiting_add hx with ⟨rfl, -⟩ | hold
    · simp
    · simp [h.mem_added x hold]
  · rw [edge_add] at hpassed
    rcases mem_waiting_add hx with ⟨rfl, hfresh⟩ | hold
    · omega
    · exact hmore (h.inside x hold hpassed)

theorem Waits.take (h : Waits requests r) : Waits (requests ++ [.take]) r.drain.2 := by
  refine ⟨fun x hx ↦ by simp [h.mem_added x (mem_waiting_drain hx)], fun x hx hpassed ↦ ?_⟩
  rw [added_take]
  rcases inside_of_mem_rest r.waiting.ordered x hx hpassed with hearlier | ⟨other, hmem, hinside⟩
  · exact h.inside x (mem_waiting_drain hx) hearlier
  · exact ⟨other, h.mem_added other hmem, hinside⟩

theorem waits_serveAll (start : Nat) (requests : List Request) :
    Waits requests (serveAll requests { edge := start }).2 := by
  induction requests using List.reverseRecOn with
  | nil => exact waits_start
  | append_singleton before request ih =>
    rw [serveAll_concat]
    cases request with
    | add chunk => exact ih.add chunk
    | take => exact ih.take
    | reset seq => exact waits_start

/-- All that waits was handed over. -/
theorem mem_of_mem_waiting (h : chunk ∈ (serveAll requests { edge := start }).2.waiting.toList) :
    .add chunk ∈ requests :=
  mem_of_mem_added ((waits_serveAll start requests).mem_added chunk h)

/-- The edge is always a place. -/
theorem edge_serveAll_le (hedge : r.edge ≤ maxWord)
    (hresets : ∀ seq, .reset seq ∈ requests → seq ≤ maxWord) :
    (serveAll requests r).2.edge ≤ maxWord := by
  induction requests generalizing r with
  | nil => exact hedge
  | cons request rest ih =>
    have hrest : ∀ seq, .reset seq ∈ rest → seq ≤ maxWord := fun seq h ↦
      hresets seq (List.mem_cons_of_mem _ h)
    cases request with
    | add chunk => exact ih (r := r.add chunk) (by rwa [edge_add]) hrest
    | take => exact ih (r := r.drain.2) (drain_edge_le hedge) hrest
    | reset seq => exact ih (r := { edge := seq }) (hresets seq (List.mem_cons_self ..)) hrest

/-- What the edge has passed waits for good, unless the stream is started again. It is neither given
out nor replaced: a chunk at its place would be stale. -/
theorem mem_serveAll_of_lt (hedge : r.edge ≤ maxWord) (hmem : chunk ∈ r.waiting.toList)
    (hpassed : chunk.seq < r.edge) (hrequests : ∀ seq, .reset seq ∉ requests) :
    chunk ∈ (serveAll requests r).2.waiting.toList := by
  induction requests generalizing r with
  | nil => exact hmem
  | cons request rest ih =>
    have hrest : ∀ seq, .reset seq ∉ rest := fun seq h ↦ hrequests seq (List.mem_cons_of_mem _ h)
    cases request with
    | add other =>
      refine ih (r := r.add other) (by rwa [edge_add]) ?_ (by rwa [edge_add]) hrest
      rw [Reassembly.add]
      split
      · exact hmem
      · next hfresh =>
        -- A chunk that is kept in place of another one starts where that does.
        have hne : chunk.seq ≠ other.seq := by
          have : r.edge ≤ other.seq := by simpa [isStale] using hfresh
          omega
        exact (Ascending.mem_place r.waiting.ordered).2 (.inr ⟨hmem, hne⟩)
    | take =>
      exact ih (r := r.drain.2) (drain_edge_le hedge) (mem_rest_of_lt hmem hpassed hedge)
        (Nat.lt_of_lt_of_le hpassed (le_drain_edge hedge)) hrest
    | reset seq => exact absurd (List.mem_cons_self ..) (hrequests seq)

/-! ### After any requests -/

/-- What waits lies ahead of the edge, but for what was overtaken. -/
structure LiesAhead (requests : List Request) (r : Reassembly) : Prop where
  /-- If no chunk starts inside another one, then all that waits lies ahead. -/
  ahead : (∀ chunk ∈ added requests, ∀ other ∈ added requests, ¬ chunk.StartsInside other) →
    ∀ chunk ∈ r.waiting.toList, r.edge ≤ chunk.seq
  /-- What does not lie ahead starts inside another chunk. -/
  inside : ∀ chunk ∈ r.waiting.toList, chunk.seq < r.edge →
    ∃ other ∈ added requests, chunk.StartsInside other
  /-- It waits for good, unless the stream is started again. -/
  stays : ∀ chunk ∈ r.waiting.toList, chunk.seq < r.edge → ∀ more : List Request,
    (∀ seq, .reset seq ∉ more) → chunk ∈ (serveAll more r).2.waiting.toList

/-- **What waits lies ahead of the edge, or was overtaken.** Whatever chunks come, at any places and
of any lengths, and however often the stream is drained and started again. -/
theorem liesAhead_serveAll (hstart : start ≤ maxWord)
    (hresets : ∀ seq, .reset seq ∈ requests → seq ≤ maxWord) :
    LiesAhead requests (serveAll requests { edge := start }).2 := by
  have hwaits := waits_serveAll start requests
  have hedge : (serveAll requests { edge := start }).2.edge ≤ maxWord :=
    edge_serveAll_le (r := { edge := start }) hstart hresets
  refine ⟨fun hapart chunk hmem ↦ ?_, hwaits.inside, fun chunk hmem hpassed more hmore ↦
    mem_serveAll_of_lt hedge hmem hpassed hmore⟩
  by_contra hpassed
  obtain ⟨other, hother, hinside⟩ := hwaits.inside chunk hmem (Nat.lt_of_not_le hpassed)
  exact hapart chunk (hwaits.mem_added chunk hmem) other hother hinside

/-- Four bytes, and before they are taken out a byte that starts at the third of them. -/
def overtaking : List Request := [.add ⟨0, [97, 98, 99, 100]⟩, .add ⟨2, [120]⟩, .take]

theorem liesAhead_overtaking :
    (0 ≤ maxWord ∧ ∀ seq, .reset seq ∈ overtaking → seq ≤ maxWord) ∧
      LiesAhead overtaking (serveAll overtaking { edge := 0 }).2 :=
  ⟨⟨by decide, by simp [overtaking]⟩, liesAhead_serveAll (by decide) (by simp [overtaking])⟩

/-- The edge has moved past the byte, which waits all the same: what waits need not lie ahead. -/
theorem not_forall_edge_le_waiting :
    ¬ ∀ (start : Nat) (requests : List Request),
      ∀ chunk ∈ (serveAll requests { edge := start }).2.waiting.toList,
        (serveAll requests { edge := start }).2.edge ≤ chunk.seq := by
  intro h
  exact absurd (h 0 overtaking ⟨2, [120]⟩ (by decide)) (by decide)

end Reassembly

end ReliableStream
