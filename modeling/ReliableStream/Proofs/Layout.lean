import Mathlib.Data.List.Flatten
import Mathlib.Data.List.Sort
import Mathlib.Tactic.Common
import ReliableStream.Reassembly

/-!
# Laying pieces out along a stream

A stream that is sent in pieces: the first piece starts at a given place and every other one where
the piece before it stops. `cut start pieces n` is the place where the first `n` pieces stop, and
`layOut start pieces` are the pieces with their places, as chunks.

Both ends of a connection speak about the same cuts. The sender knows how many pieces it sent and
how many of these were acknowledged, the receiver how many it has got; and since no piece is empty,
a place is a cut of at most one number of pieces (`cut_lt_cut`). What is stated with places can
therefore be shown with numbers of pieces.

The pieces ascend, so a list of chunks in order that are all pieces is the layout with some left
out, and draining it stops at the first piece that is (`Reassembly.drainFrom_filter_layOut`).
-/

namespace ReliableStream

/-- The place where the first `n` pieces of a stream stop. -/
def cut (start : Nat) (pieces : List Bytes) (n : Nat) : Nat :=
  start + (pieces.take n).flatten.length

/-- The pieces of a stream with their places. -/
def layOut (start : Nat) : List Bytes → List Chunk
  | [] => []
  | piece :: rest => ⟨start, piece⟩ :: layOut (start + piece.length) rest

variable {start : Nat} {pieces : List Bytes}

/-! ### Cuts -/

@[simp] theorem cut_zero : cut start pieces 0 = start := by simp [cut]

theorem cut_succ {n : Nat} (h : n < pieces.length) :
    cut start pieces (n + 1) = cut start pieces n + pieces[n].length := by
  simp only [cut, ← List.take_append_getElem h, List.flatten_append, List.length_append]
  simp [Nat.add_assoc]

theorem cut_le_cut {m n : Nat} (h : m ≤ n) : cut start pieces m ≤ cut start pieces n := by
  have hsub : ((pieces.take m).flatten).Sublist (pieces.take n).flatten := by
    rw [← Nat.min_eq_left h, ← List.take_take]
    exact List.Sublist.flatten (List.take_sublist ..)
  exact Nat.add_le_add_left hsub.length_le start

theorem start_le_cut (n : Nat) : start ≤ cut start pieces n := Nat.le_add_right ..

/-- No piece is empty, so a longer run of pieces stops later. Without that a place could be a cut of
two numbers of pieces. -/
theorem cut_lt_cut (hne : ∀ piece ∈ pieces, piece ≠ []) {m n : Nat} (h : m < n)
    (hn : n ≤ pieces.length) : cut start pieces m < cut start pieces n := by
  have hm : m < pieces.length := by omega
  have hpos : 0 < pieces[m].length := List.length_pos_iff.2 (hne _ (List.getElem_mem hm))
  have hle : cut start pieces (m + 1) ≤ cut start pieces n := cut_le_cut h
  rw [cut_succ hm] at hle
  omega

/-- Places that are cuts can be compared by the numbers of pieces. This is how an acknowledgement is
read. -/
theorem le_of_cut_le_cut (hne : ∀ piece ∈ pieces, piece ≠ []) {m n : Nat} (hm : m ≤ pieces.length)
    (h : cut start pieces m ≤ cut start pieces n) : m ≤ n := by
  by_contra hlt
  have hcut : cut start pieces n < cut start pieces m := cut_lt_cut hne (Nat.lt_of_not_le hlt) hm
  omega

/-- More pieces behind the stream move none of its cuts. -/
theorem cut_append {more : List Bytes} {n : Nat} (h : n ≤ pieces.length) :
    cut start (pieces ++ more) n = cut start pieces n := by
  rw [cut, List.take_append_of_le_length h, cut]

/-! ### Chunks -/

@[simp] theorem layOut_nil : layOut start [] = [] := rfl

@[simp] theorem length_layOut : (layOut start pieces).length = pieces.length := by
  induction pieces generalizing start with
  | nil => rfl
  | cons piece rest ih => simp [layOut, ih]

@[simp] theorem map_bytes_layOut : (layOut start pieces).map (·.bytes) = pieces := by
  induction pieces generalizing start with
  | nil => rfl
  | cons piece rest ih => simp [layOut, ih]

theorem layOut_append {more : List Bytes} :
    layOut start (pieces ++ more) =
      layOut start pieces ++ layOut (start + pieces.flatten.length) more := by
  induction pieces generalizing start with
  | nil => simp
  | cons piece rest ih => simp [layOut, ih, Nat.add_assoc]

theorem getElem?_layOut (n : Nat) :
    (layOut start pieces)[n]? = pieces[n]?.map (⟨cut start pieces n, ·⟩) := by
  induction pieces generalizing start n with
  | nil => simp
  | cons piece rest ih =>
    cases n with
    | zero => simp [layOut]
    | succ n => simp [layOut, ih, cut, Nat.add_assoc]

theorem getElem_layOut {n : Nat} (h : n < pieces.length) (hn : n < (layOut start pieces).length) :
    (layOut start pieces)[n] = ⟨cut start pieces n, pieces[n]⟩ := by
  have hget : (layOut start pieces)[n]? = _ := getElem?_layOut n
  rw [List.getElem?_eq_getElem hn, List.getElem?_eq_getElem h] at hget
  simpa using hget

/-- A chunk is in the layout if it is one of the pieces, at the cut before it. -/
theorem mem_layOut {chunk : Chunk} :
    chunk ∈ layOut start pieces ↔
      ∃ (n : Nat) (h : n < pieces.length), chunk = ⟨cut start pieces n, pieces[n]⟩ := by
  constructor
  · intro hmem
    obtain ⟨n, hn, rfl⟩ := List.getElem_of_mem hmem
    have hn' : n < pieces.length := length_layOut ▸ hn
    exact ⟨n, hn', getElem_layOut hn' hn⟩
  · rintro ⟨n, hn, rfl⟩
    have hn' : n < (layOut start pieces).length := length_layOut.symm ▸ hn
    rw [← getElem_layOut hn hn']
    exact List.getElem_mem hn'

theorem seq_lt_of_layOut_cons {piece : Bytes} {rest : List Bytes} (hne : piece ≠ [])
    {chunk : Chunk} (hmem : chunk ∈ layOut (start + piece.length) rest) : start < chunk.seq := by
  obtain ⟨n, hn, rfl⟩ := mem_layOut.1 hmem
  have hpos : 0 < piece.length := List.length_pos_iff.2 hne
  have hcut : start + piece.length ≤ cut (start + piece.length) rest n := start_le_cut n
  show start < cut (start + piece.length) rest n
  omega

/-- The pieces of a stream ascend, which makes their layout a list in order of places. -/
theorem pairwise_layOut (hne : ∀ piece ∈ pieces, piece ≠ []) :
    (layOut start pieces).Pairwise (·.seq < ·.seq) := by
  induction pieces generalizing start with
  | nil => exact .nil
  | cons piece rest ih =>
    exact List.pairwise_cons.2 ⟨fun chunk hmem ↦
        seq_lt_of_layOut_cons (hne piece (List.mem_cons_self ..)) hmem,
      ih fun x hx ↦ hne x (List.mem_cons_of_mem _ hx)⟩

/-- Without the first pieces, the others are laid out from where these stop. -/
theorem drop_layOut (n : Nat) :
    (layOut start pieces).drop n = layOut (cut start pieces n) (pieces.drop n) := by
  induction pieces generalizing start n with
  | nil => simp
  | cons piece rest ih =>
    cases n with
    | zero => simp
    | succ n => simp [layOut, ih, cut, Nat.add_assoc]

theorem cut_cut (m n : Nat) :
    cut (cut start pieces m) (pieces.drop m) n = cut start pieces (m + n) := by
  simp [cut, List.take_add, Nat.add_assoc]

/-- The pieces that start at a cut or later are those behind it. So a part of the stream can be
named by a place or by a number of pieces. -/
theorem mem_drop_layOut (hne : ∀ piece ∈ pieces, piece ≠ []) {chunk : Chunk} {i : Nat} :
    chunk ∈ (layOut start pieces).drop i ↔
      chunk ∈ layOut start pieces ∧ cut start pieces i ≤ chunk.seq := by
  constructor
  · intro hmem
    refine ⟨List.mem_of_mem_drop hmem, ?_⟩
    rw [drop_layOut] at hmem
    obtain ⟨n, hn, rfl⟩ := mem_layOut.1 hmem
    exact start_le_cut n
  · rintro ⟨hmem, hle⟩
    rw [← List.take_append_drop i (layOut start pieces)] at hmem
    rcases List.mem_append.1 hmem with htake | hdrop
    · obtain ⟨n, hn, rfl⟩ := List.getElem_of_mem htake
      have hi : n < i := by simp at hn; omega
      have hlength : n < pieces.length := by simp at hn; omega
      rw [List.getElem_take, getElem_layOut hlength] at hle
      have hcut : cut start pieces n < cut start pieces (n + 1) :=
        cut_lt_cut hne (Nat.lt_succ_self n) hlength
      have hnext : cut start pieces (n + 1) ≤ cut start pieces i := cut_le_cut hi
      dsimp only at hle
      omega
    · exact hdrop

/-- A piece stops where the stream does, or before. -/
theorem stop_le_of_mem_layOut {chunk : Chunk} (h : chunk ∈ layOut start pieces) :
    chunk.seq + chunk.bytes.length ≤ start + pieces.flatten.length := by
  obtain ⟨n, hn, rfl⟩ := mem_layOut.1 h
  have hsucc : cut start pieces (n + 1) = cut start pieces n + pieces[n].length := cut_succ hn
  have hlast : cut start pieces (n + 1) ≤ cut start pieces pieces.length := cut_le_cut hn
  rw [hsucc, cut, cut, List.take_length] at hlast
  exact hlast

theorem eq_of_mem_layOut (hne : ∀ piece ∈ pieces, piece ≠ []) {x y : Chunk}
    (hx : x ∈ layOut start pieces) (hy : y ∈ layOut start pieces) (h : x.seq = y.seq) : x = y := by
  obtain ⟨m, hm, rfl⟩ := mem_layOut.1 hx
  obtain ⟨n, hn, rfl⟩ := mem_layOut.1 hy
  obtain rfl : m = n := Nat.le_antisymm
    (le_of_cut_le_cut hne (Nat.le_of_lt hm) (Nat.le_of_eq h))
    (le_of_cut_le_cut hne (Nat.le_of_lt hn) (Nat.le_of_eq h.symm))
  rfl

/-- Chunks in ascending order are determined by which ones they are. Lists of them are compared by
membership alone. -/
theorem eq_of_pairwise_of_mem_iff {l l' : List Chunk} (hl : l.Pairwise (·.seq < ·.seq))
    (hl' : l'.Pairwise (·.seq < ·.seq)) (h : ∀ chunk, chunk ∈ l ↔ chunk ∈ l') : l = l' :=
  have : Std.Antisymm fun x y : Chunk ↦ x.seq < y.seq :=
    ⟨fun _ _ hxy hyx ↦ absurd hyx (Nat.lt_asymm hxy)⟩
  have : Std.Irrefl fun x y : Chunk ↦ x.seq < y.seq := ⟨fun _ ↦ Nat.lt_irrefl _⟩
  hl.eq_of_mem_iff hl' h

/-! ### Draining pieces -/

namespace Reassembly

/-- **Draining pieces of which some are left out** gives those before the first one that is, and
leaves the others behind it. The induction is on the pieces: one that came is at the edge and is
given out, and one that did not come stops the loop. -/
theorem drainFrom_filter_layOut (hne : ∀ piece ∈ pieces, piece ≠ []) {came : Chunk → Bool}
    (hfits : ∀ chunk ∈ layOut start pieces, came chunk →
      chunk.seq + chunk.bytes.length ≤ maxWord) {n : Nat}
    (hn : ((layOut start pieces).takeWhile came).length = n) :
    drainFrom start ((layOut start pieces).filter came) =
      ⟨(pieces.take n).flatten, cut start pieces n,
        ((layOut start pieces).drop n).filter came⟩ := by
  induction pieces generalizing start n with
  | nil => simp [← hn, drainFrom]
  | cons piece rest ih =>
    obtain ⟨hpiece, hrest⟩ := List.forall_mem_cons.1 hne
    obtain ⟨hfirst, hothers⟩ := List.forall_mem_cons.1 hfits
    rw [layOut] at hn ⊢
    by_cases hcame : came ⟨start, piece⟩
    · rw [List.takeWhile_cons_of_pos hcame, List.length_cons] at hn
      obtain rfl := hn
      rw [List.filter_cons_of_pos hcame, drainFrom, if_neg (Nat.lt_irrefl _), if_pos rfl,
        if_neg (by simpa using hpiece), saturatingAdd_of_le (hfirst hcame), ih hrest hothers rfl]
      simp [cut, Nat.add_assoc]
    · -- All others start behind the piece that is left out.
      have hlater : ∀ chunk ∈ (layOut (start + piece.length) rest).filter came,
          chunk.seq ≠ start := fun chunk hmem ↦
        Nat.ne_of_gt (seq_lt_of_layOut_cons hpiece (List.mem_filter.1 hmem).1)
      rw [List.takeWhile_cons_of_neg hcame, List.length_nil] at hn
      obtain rfl := hn
      rw [List.filter_cons_of_neg hcame, drainFrom_of_forall_ne hlater]
      simp [hcame]

end Reassembly

end ReliableStream
