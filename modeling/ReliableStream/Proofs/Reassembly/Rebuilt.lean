import Mathlib.Data.List.Sort
import Mathlib.Data.List.TakeWhile
import ReliableStream.Proofs.Layout
import ReliableStream.Proofs.Reassembly.Requests

/-!
# A stream is rebuilt from its slices

A reassembly that is fed with slices of one stream, in any order, any number of times, and of any
lengths, gives out the stream: what it gave out so far is what stands before the edge
(`rebuilds_serveAll`). Slices may overlap, so this is all that can be said of the edge in general.

If the slices are the pieces of one cut of the stream, then the edge and what waits are determined
by which pieces came (`Assembled`). After a take the edge stands where the first piece is missing:
the pieces that came are an ascending list from which some are left out, and draining such a list
stops at the first one that is left out (`drainFrom_filter_layOut`).

The two parts are independent. The first one is an induction on requests with the stream before the
edge as its invariant, and draining is another one inside of it. The second one needs no induction
on what was given out, since what waits is known to be a part of a list that is fixed.
-/

namespace ReliableStream

/-- A chunk is a slice of a stream: its bytes are found there at its place. -/
structure Chunk.IsSliceOf (stream : Bytes) (start : Nat) (chunk : Chunk) : Prop where
  /-- The place is not before the stream. -/
  start_le : start ≤ chunk.seq
  /-- It is not behind the stream. -/
  seq_le : chunk.seq ≤ start + stream.length
  /-- The bytes are found at the place. -/
  found : chunk.bytes <+: stream.drop (chunk.seq - start)

instance (stream : Bytes) (start : Nat) (chunk : Chunk) :
    Decidable (chunk.IsSliceOf stream start) :=
  decidable_of_iff (start ≤ chunk.seq ∧ chunk.seq ≤ start + stream.length ∧
      chunk.bytes <+: stream.drop (chunk.seq - start))
    ⟨fun ⟨h, h', h''⟩ ↦ ⟨h, h', h''⟩, fun ⟨h, h', h''⟩ ↦ ⟨h, h', h''⟩⟩

/-- A slice behind all that stands before it. -/
theorem Chunk.IsSliceOf.take_append {stream : Bytes} {start : Nat} {chunk : Chunk}
    (h : chunk.IsSliceOf stream start) :
    stream.take (chunk.seq - start) ++ chunk.bytes =
      stream.take (chunk.seq + chunk.bytes.length - start) := by
  have hstart := h.start_le
  rw [show chunk.seq + chunk.bytes.length - start = chunk.seq - start + chunk.bytes.length by omega,
    List.take_add, ← List.prefix_iff_eq_take.1 h.found]

/-- A slice stops where the stream does, or before. -/
theorem Chunk.IsSliceOf.stop_le {stream : Bytes} {start : Nat} {chunk : Chunk}
    (h : chunk.IsSliceOf stream start) :
    chunk.seq + chunk.bytes.length ≤ start + stream.length := by
  have hlength : chunk.bytes.length ≤ stream.length - (chunk.seq - start) :=
    List.length_drop ▸ h.found.length_le
  have hstart := h.start_le
  have hseq := h.seq_le
  omega

namespace Reassembly

/-- A request feeds a reassembly with a stream: it keeps a slice of it, or takes out what continues
it. -/
def Request.Feeds (stream : Bytes) (start : Nat) : Request → Prop
  | .add chunk => chunk.IsSliceOf stream start
  | .take => True
  | .reset _ => False

instance (stream : Bytes) (start : Nat) (request : Request) :
    Decidable (request.Feeds stream start) :=
  match request with
  | .add chunk => inferInstanceAs (Decidable (chunk.IsSliceOf stream start))
  | .take => inferInstanceAs (Decidable True)
  | .reset _ => inferInstanceAs (Decidable False)

variable {stream : Bytes} {start : Nat} {pieces : List Bytes} {requests : List Request}
  {r : Reassembly}

/-! ### Slices of any lengths -/

/-- What stands before an edge of a stream was given out. -/
structure GaveUpTo (stream : Bytes) (start : Nat) (given : Bytes) (edge : Nat) : Prop where
  /-- The edge is not before the stream. -/
  start_le : start ≤ edge
  /-- It is not behind the stream. -/
  edge_le : edge ≤ start + stream.length
  /-- What stands before it was given out. -/
  given_eq : given = stream.take (edge - start)

/-- A slice that starts at the edge continues the stream. -/
theorem GaveUpTo.append {given : Bytes} {chunk : Chunk} (hfits : start + stream.length ≤ maxWord)
    (h : GaveUpTo stream start given chunk.seq) (hslice : chunk.IsSliceOf stream start) :
    GaveUpTo stream start (given ++ chunk.bytes)
      (saturatingAdd chunk.seq chunk.bytes.length) := by
  have hstop := hslice.stop_le
  rw [saturatingAdd_of_le (Nat.le_trans hstop hfits)]
  exact ⟨Nat.le_add_right_of_le h.start_le, hstop, by rw [h.given_eq, hslice.take_append]⟩

/-- Draining slices continues the stream, slice by slice. What it leaves is of no account. -/
theorem GaveUpTo.drain {given : Bytes} (hfits : start + stream.length ≤ maxWord)
    (h : GaveUpTo stream start given r.edge)
    (hslices : ∀ chunk ∈ r.waiting.toList, chunk.IsSliceOf stream start) :
    GaveUpTo stream start (given ++ r.drain.1) r.drain.2.edge :=
  drainFrom_induction (motive := fun bytes edge ↦ GaveUpTo stream start (given ++ bytes) edge)
    (by rwa [List.append_nil])
    fun bytes chunk hmem _ hbytes ↦ by
      rw [← List.append_assoc]
      exact hbytes.append hfits (hslices chunk hmem)

/-- What was given out is what stands before the edge, after any requests that feed the stream. -/
theorem gaveUpTo_serveAll (hfits : start + stream.length ≤ maxWord)
    (hfeeds : ∀ request ∈ requests, request.Feeds stream start) :
    GaveUpTo stream start (serveAll requests { edge := start }).1
      (serveAll requests { edge := start }).2.edge := by
  induction requests using List.reverseRecOn with
  | nil => exact ⟨Nat.le_refl _, Nat.le_add_right .., by simp [serveAll]⟩
  | append_singleton before request ih =>
    have hbefore := ih fun request h ↦ hfeeds request (List.mem_append_left _ h)
    rw [serveAll_concat]
    cases request with
    | add chunk => simpa [serve] using hbefore
    | take =>
      -- All that waits was handed over, so it is a slice.
      exact hbefore.drain hfits fun chunk hmem ↦
        hfeeds _ (List.mem_append_left _ (mem_of_mem_waiting hmem))
    | reset seq => exact (hfeeds (.reset seq) (by simp)).elim

/-! ### Pieces of one cut -/

/-- How many pieces came before the first one that did not. -/
def leading (start : Nat) (pieces : List Bytes) (requests : List Request) : Nat :=
  ((layOut start pieces).takeWhile (.add · ∈ requests)).length

/-- The first `i` pieces were given out, and those that came of the others wait. -/
structure Assembled (start : Nat) (pieces : List Bytes) (requests : List Request) (r : Reassembly)
    (i : Nat) : Prop where
  /-- There are so many pieces. -/
  le_length : i ≤ pieces.length
  /-- The edge is where the first `i` pieces stop. -/
  edge_eq : r.edge = cut start pieces i
  /-- They all came. -/
  came : ∀ chunk ∈ (layOut start pieces).take i, .add chunk ∈ requests
  /-- What waits is what came of the others. -/
  waiting_eq : r.waiting.toList = ((layOut start pieces).drop i).filter (.add · ∈ requests)

theorem assembled_start : Assembled start pieces [] { edge := start } 0 :=
  ⟨Nat.zero_le _, cut_zero.symm, by simp, by simp; rfl⟩

/-- A piece that comes waits, unless it was given out before. It cannot be at the place of another
one that waits, since a place is that of one piece. -/
theorem Assembled.add {i : Nat} (hne : ∀ piece ∈ pieces, piece ≠ [])
    (h : Assembled start pieces requests r i) {chunk : Chunk}
    (hchunk : chunk ∈ layOut start pieces) :
    Assembled start pieces (requests ++ [.add chunk]) (r.add chunk) i := by
  have hsorted : (layOut start pieces).Pairwise (·.seq < ·.seq) := pairwise_layOut hne
  refine ⟨h.le_length, by rw [edge_add, h.edge_eq],
    fun x hx ↦ List.mem_append_left _ (h.came x hx),
    eq_of_pairwise_of_mem_iff (r.add chunk).waiting.ordered ((hsorted.drop).filter _) fun x ↦ ?_⟩
  have hbefore : x ∈ r.waiting.toList ↔
      x ∈ (layOut start pieces).drop i ∧ .add x ∈ requests := by simp [h.waiting_eq]
  have hafter : x ∈ ((layOut start pieces).drop i).filter (.add · ∈ requests ++ [.add chunk]) ↔
      x ∈ (layOut start pieces).drop i ∧ (.add x ∈ requests ∨ x = chunk) := by simp
  rw [hafter, Reassembly.add]
  split
  · next hstale =>
    -- The chunk is one of the first pieces.
    have hother : x ∈ (layOut start pieces).drop i → x ≠ chunk := by
      rintro hx rfl
      have hle := ((mem_drop_layOut hne).1 hx).2
      rw [isStale, h.edge_eq, decide_eq_true_iff] at hstale
      omega
    rw [hbefore]
    exact and_congr_right fun hx ↦ (or_iff_left (hother hx)).symm
  · next hfresh =>
    have hmem : chunk ∈ (layOut start pieces).drop i := by
      refine (mem_drop_layOut hne).2 ⟨hchunk, ?_⟩
      rw [isStale, h.edge_eq, decide_eq_true_iff] at hfresh
      omega
    show x ∈ Ascending.place Chunk.seq chunk r.waiting.toList ↔ _
    rw [Ascending.mem_place r.waiting.ordered, hbefore]
    constructor
    · rintro (rfl | ⟨⟨hx, hcame⟩, -⟩)
      · exact ⟨hmem, .inr rfl⟩
      · exact ⟨hx, .inl hcame⟩
    · rintro ⟨hx, hcame | rfl⟩
      -- A piece that waited and is replaced is the same piece.
      · by_cases hseq : x.seq = chunk.seq
        · exact .inl (eq_of_mem_layOut hne (List.mem_of_mem_drop hx) hchunk hseq)
        · exact .inr ⟨⟨hx, hcame⟩, hseq⟩
      · exact .inl rfl

@[simp] theorem leading_take :
    leading start pieces (requests ++ [.take]) = leading start pieces requests := by simp [leading]

/-- **A take moves the edge to where the first piece is missing.** What waits is a part of the
pieces in ascending order, so draining it is `drainFrom_filter_layOut`. -/
theorem Assembled.take {i : Nat} (hne : ∀ piece ∈ pieces, piece ≠ [])
    (hfits : start + pieces.flatten.length ≤ maxWord) (h : Assembled start pieces requests r i) :
    Assembled start pieces (requests ++ [.take]) r.drain.2 (leading start pieces requests) := by
  have hprefix : (layOut start pieces).takeWhile (.add · ∈ requests) <+: layOut start pieces :=
    List.takeWhile_prefix _
  have hrow : (layOut start pieces).take (leading start pieces requests) =
      (layOut start pieces).takeWhile (.add · ∈ requests) :=
    (List.prefix_iff_eq_take.1 hprefix).symm
  -- The pieces that came in a row are the first `i`, and those that came in a row behind them.
  have hleading : leading start pieces requests =
      i + (((layOut start pieces).drop i).takeWhile (.add · ∈ requests)).length := by
    rw [leading, ← List.take_append_drop i (layOut start pieces),
      List.takeWhile_append_of_pos (by simpa using h.came), List.length_append,
      List.take_append_drop, List.length_take, length_layOut, Nat.min_eq_left h.le_length]
  have hstops : ∀ chunk ∈ layOut (cut start pieces i) (pieces.drop i),
      chunk.seq + chunk.bytes.length ≤ maxWord := fun chunk hmem ↦
    Nat.le_trans (stop_le_of_mem_layOut (List.mem_of_mem_drop (drop_layOut i ▸ hmem))) hfits
  generalize hn : (((layOut start pieces).drop i).takeWhile (.add · ∈ requests)).length = n
    at hleading
  have hdrain := drainFrom_filter_layOut
    (fun piece hmem ↦ hne piece (List.mem_of_mem_drop hmem)) (fun chunk hmem _ ↦ hstops chunk hmem)
    (drop_layOut i ▸ hn)
  rw [← drop_layOut, ← h.waiting_eq, cut_cut, List.drop_drop, ← hleading] at hdrain
  refine ⟨?_, ?_, fun chunk hmem ↦ ?_, ?_⟩
  · have hle : leading start pieces requests ≤ (layOut start pieces).length := hprefix.length_le
    rwa [length_layOut] at hle
  · show (drainFrom r.edge r.waiting.toList).edge = _
    rw [h.edge_eq, hdrain]
  · rw [hrow] at hmem
    simpa using List.mem_takeWhile_imp hmem
  · show (drainFrom r.edge r.waiting.toList).rest = _
    rw [h.edge_eq, hdrain]
    simp

/-- Some number of pieces was given out, after any requests that hand over pieces. -/
theorem exists_assembled_serveAll (hne : ∀ piece ∈ pieces, piece ≠ [])
    (hfits : start + pieces.flatten.length ≤ maxWord)
    (hresets : ∀ seq, .reset seq ∉ requests)
    (hpieces : ∀ chunk, .add chunk ∈ requests → chunk ∈ layOut start pieces) :
    ∃ i, Assembled start pieces requests (serveAll requests { edge := start }).2 i := by
  induction requests using List.reverseRecOn with
  | nil => exact ⟨0, assembled_start⟩
  | append_singleton before request ih =>
    obtain ⟨i, hi⟩ := ih (fun seq h ↦ hresets seq (List.mem_append_left _ h))
      fun chunk h ↦ hpieces chunk (List.mem_append_left _ h)
    rw [serveAll_concat]
    cases request with
    | add chunk => exact ⟨i, hi.add hne (hpieces chunk (by simp))⟩
    | take => exact ⟨_, hi.take hne hfits⟩
    | reset seq => exact absurd (by simp) (hresets seq)

/-! ### After any requests -/

/-- The slices that are handed over are pieces of one cut of a stream. -/
structure AddsPieces (stream : Bytes) (start : Nat) (pieces : List Bytes)
    (requests : List Request) : Prop where
  /-- The pieces make up the stream. -/
  flatten_eq : pieces.flatten = stream
  /-- None of them is empty. -/
  ne_nil : ∀ piece ∈ pieces, piece ≠ []
  /-- What is handed over is one of them, at its place. -/
  mem_layOut : ∀ chunk, .add chunk ∈ requests → chunk ∈ layOut start pieces

/-- A stream is rebuilt from its slices. -/
structure Rebuilds (stream : Bytes) (start : Nat) (requests : List Request) : Prop where
  /-- What was given out stands before the edge. -/
  gave : GaveUpTo stream start (serveAll requests { edge := start }).1
    (serveAll requests { edge := start }).2.edge
  /-- After a take the edge stands where the first piece is missing, and those behind it wait. -/
  assembled : ∀ pieces, AddsPieces stream start pieces requests →
    ∀ before, before ++ [.take] <+: requests →
      Assembled start pieces (before ++ [.take])
        (serveAll (before ++ [.take]) { edge := start }).2 (leading start pieces before)
  /-- It does not matter in which order pieces come, how often, and what was taken in between. -/
  alike : ∀ pieces, AddsPieces stream start pieces requests →
    ∀ before, before ++ [.take] <+: requests →
      ∀ others : List Request, (∀ seq, .reset seq ∉ others) →
        (∀ chunk, .add chunk ∈ others ↔ .add chunk ∈ before) →
        serveAll (others ++ [.take]) { edge := start } =
          serveAll (before ++ [.take]) { edge := start }

theorem AddsPieces.mono {others : List Request} (h : AddsPieces stream start pieces requests)
    (hsub : ∀ chunk, .add chunk ∈ others → .add chunk ∈ requests) :
    AddsPieces stream start pieces others :=
  ⟨h.flatten_eq, h.ne_nil, fun chunk hmem ↦ h.mem_layOut chunk (hsub chunk hmem)⟩

/-- After a take that number is the one of the pieces before the first that is missing. -/
theorem assembled_serveAll_take (hfits : start + stream.length ≤ maxWord)
    (hresets : ∀ seq, .reset seq ∉ requests) (hadds : AddsPieces stream start pieces requests) :
    Assembled start pieces (requests ++ [.take])
      (serveAll (requests ++ [.take]) { edge := start }).2 (leading start pieces requests) := by
  obtain ⟨rfl, hne, hpieces⟩ := hadds
  obtain ⟨i, hi⟩ := exists_assembled_serveAll hne hfits hresets hpieces
  rw [serveAll_concat]
  exact hi.take hne hfits

/-- Requests that hand over the same pieces give the same after a take, whatever their order and
however often something was taken between them. -/
theorem serveAll_take_eq {others : List Request} (hfits : start + stream.length ≤ maxWord)
    (hfeeds : ∀ request ∈ requests, request.Feeds stream start)
    (hadds : AddsPieces stream start pieces requests) (hresets : ∀ seq, .reset seq ∉ others)
    (hsame : ∀ chunk, .add chunk ∈ others ↔ .add chunk ∈ requests) :
    serveAll (others ++ [.take]) { edge := start } =
      serveAll (requests ++ [.take]) { edge := start } := by
  have hfeeds' : ∀ request ∈ others, request.Feeds stream start := fun request hmem ↦
    match request with
    | .add chunk => hfeeds _ ((hsame chunk).1 hmem)
    | .take => trivial
    | .reset seq => absurd hmem (hresets seq)
  have hgave {requests : List Request} (h : ∀ request ∈ requests, request.Feeds stream start) :
      GaveUpTo stream start (serveAll (requests ++ [.take]) { edge := start }).1
        (serveAll (requests ++ [.take]) { edge := start }).2.edge :=
    gaveUpTo_serveAll hfits fun request hmem ↦ by
      rcases List.mem_append.1 hmem with hmem | hmem
      · exact h request hmem
      · obtain rfl := List.mem_singleton.1 hmem
        trivial
  have hassembled := assembled_serveAll_take hfits (fun seq h ↦ hfeeds _ h) hadds
  have hassembled' := assembled_serveAll_take hfits hresets (hadds.mono fun chunk ↦ (hsame chunk).1)
  -- How far the pieces go without a gap depends on which ones were handed over, and not on when.
  have hleading : leading start pieces others = leading start pieces requests := by
    simp [leading, hsame]
  have hedge : (serveAll (others ++ [.take]) { edge := start }).2.edge =
      (serveAll (requests ++ [.take]) { edge := start }).2.edge := by
    rw [hassembled.edge_eq, hassembled'.edge_eq, hleading]
  have hwaiting : (serveAll (others ++ [.take]) { edge := start }).2.waiting =
      (serveAll (requests ++ [.take]) { edge := start }).2.waiting :=
    Ascending.ext (by simp [hassembled.waiting_eq, hassembled'.waiting_eq, hleading, hsame])
  refine Prod.ext ?_ (congrArg₂ Reassembly.mk hedge hwaiting)
  rw [(hgave hfeeds).given_eq, (hgave hfeeds').given_eq, hedge]

/-- **A stream is rebuilt from its slices**, whatever slices are handed over, in any order and any
number of times, and whenever something is taken. -/
theorem rebuilds_serveAll (hfits : start + stream.length ≤ maxWord)
    (hfeeds : ∀ request ∈ requests, request.Feeds stream start) :
    Rebuilds stream start requests := by
  have hmem {before : List Request} (hbefore : before ++ [.take] <+: requests)
      {request : Request} (h : request ∈ before) : request ∈ requests :=
    hbefore.subset (List.mem_append_left _ h)
  refine ⟨gaveUpTo_serveAll hfits hfeeds, fun pieces hadds before hbefore ↦ ?_,
    fun pieces hadds before hbefore others hresets hsame ↦ ?_⟩
  · exact assembled_serveAll_take hfits (fun seq h ↦ hfeeds _ (hmem hbefore h))
      (hadds.mono fun chunk ↦ hmem hbefore)
  · exact serveAll_take_eq hfits (fun request h ↦ hfeeds request (hmem hbefore h))
      (hadds.mono fun chunk ↦ hmem hbefore) hresets hsame

/-- Six bytes that come out of order, in pieces of one, two and three, with a piece twice. -/
def disordered : List Request :=
  [.add ⟨13, [4, 5, 6]⟩, .take, .add ⟨10, [1]⟩, .add ⟨13, [4, 5, 6]⟩, .take, .add ⟨11, [2, 3]⟩,
    .take]

theorem rebuilds_disordered :
    (10 + [1, 2, 3, 4, 5, 6].length ≤ maxWord ∧
      ∀ request ∈ disordered, request.Feeds [1, 2, 3, 4, 5, 6] 10) ∧
      Rebuilds [1, 2, 3, 4, 5, 6] 10 disordered ∧
      AddsPieces [1, 2, 3, 4, 5, 6] 10 [[1], [2, 3], [4, 5, 6]] disordered ∧
      leading 10 [[1], [2, 3], [4, 5, 6]] disordered = 3 :=
  ⟨by decide, rebuilds_serveAll (by decide) (by decide),
    ⟨by decide, by decide, by simp [disordered, layOut]⟩, by decide⟩

end Reassembly

end ReliableStream
