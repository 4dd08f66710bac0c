import Mathlib.Tactic.Common
import ReliableStream.Journal.Writer

/-!
# A journal that is cut off

Entries are given to a writer one after the other, and its room ends somewhere: at any byte of any
line. What is written is then a prefix of all lines (`writePieces_eq`): a piece that does not fit is
written as far as it fits, nothing fits after that, and every line has at least one byte, its end,
so each of the lines that follow is stopped too. What stops a line is told by the part of it that
its first byte without room belongs to (`stopAt_pieces`). Behind a line that was stopped that is the
first byte of the line, whatever it belongs to.

Everything is reduced to one number, the room that is left. Writing pieces is writing all their
bytes at once (`write_append` is the step, and needs that a piece that did not fit left no room), so
the room before an entry is what the lines before it have left of it (`writeAll_snd`), and what
stops the entry is a function of that (`stopAt`). No state of a writer other than its room matters.
-/

namespace ReliableStream

/-! ### Bytes of texts -/

namespace Text

/-- The bytes of an array are listed by a loop that goes on from what was listed so far. -/
theorem toList_loop (a : ByteArray) (i : Nat) (sofar : List UInt8) :
    ByteArray.toList.loop a i sofar = sofar.reverse ++ a.data.toList.drop i := by
  induction i, sofar using ByteArray.toList.loop.induct a with
  | case1 i sofar hlt ih =>
    have hlt' : i < a.data.toList.length := by simpa using hlt
    have hget : a.get! i = a.data.toList[i] := by
      simp only [ByteArray.get!, Array.getElem_toList]
      exact getElem!_pos a.data i hlt
    rw [ByteArray.toList.loop, if_pos hlt, ih, List.drop_eq_getElem_cons hlt', hget]
    simp
  | case2 i sofar hge =>
    have hle : a.data.toList.length ≤ i := by simpa using hge
    rw [ByteArray.toList.loop, if_neg hge, List.drop_eq_nil_of_le hle, List.append_nil]

/-- The bytes of a text. -/
def utf8 (text : String) : Bytes := text.toUTF8.toList

theorem utf8_eq (text : String) : utf8 text = text.toByteArray.data.toList := by
  rw [utf8, String.toUTF8, ByteArray.toList, toList_loop]
  rfl

/-- The bytes of one text and then of another are those of both. -/
theorem utf8_append (text rest : String) : utf8 (text ++ rest) = utf8 text ++ utf8 rest := by
  rw [utf8_eq, utf8_eq, utf8_eq, String.toByteArray_append, ByteArray.toList_data_append]

theorem length_utf8 (text : String) : (utf8 text).length = text.utf8ByteSize := by
  rw [utf8_eq, Array.length_toList]
  rfl

theorem utf8_join (texts : List String) : utf8 (String.join texts) = texts.flatMap utf8 := by
  induction texts with
  | nil => exact (utf8_eq "").trans rfl
  | cons first rest ih => rw [String.join_cons, utf8_append, ih, List.flatMap_cons]

end Text

namespace Journal

/-! ### Pieces -/

/-- The bytes of a piece. -/
def Piece.bytes (piece : Piece) : Bytes := Text.utf8 piece.text

/-- What stops pieces that have room up to a place: what the piece there means if it does not fit.
-/
def stopAt : List Piece → Nat → Option Stop
  | [], _ => none
  | piece :: rest, place =>
    if place < piece.bytes.length then some piece.stop
    else stopAt rest (place - piece.bytes.length)

variable {pieces rest : List Piece} {place room : Nat} {w : Writer}

/-- What stops pieces and then others: a place within the first ones is theirs, and a later one is
counted from where they end. -/
theorem stopAt_append : stopAt (pieces ++ rest) place =
    if place < (pieces.flatMap Piece.bytes).length then stopAt pieces place
    else stopAt rest (place - (pieces.flatMap Piece.bytes).length) := by
  induction pieces generalizing place with
  | nil => simp
  | cons piece more ih =>
    rw [List.cons_append, stopAt, stopAt, List.flatMap_cons, List.length_append, ih]
    split
    · next hlt => rw [if_pos (by omega)]
    · next hge =>
      by_cases hmore : place < piece.bytes.length + (more.flatMap Piece.bytes).length
      · rw [if_pos (by omega), if_pos hmore]
      · rw [if_neg (by omega), if_neg hmore, Nat.sub_sub]

/-- Pieces that all mean the same are stopped by that, whichever of them the place is in. -/
theorem stopAt_of_forall {stop : Stop} (h : ∀ piece ∈ pieces, piece.stop = stop)
    (hplace : place < (pieces.flatMap Piece.bytes).length) : stopAt pieces place = some stop := by
  induction pieces generalizing place with
  | nil => simp at hplace
  | cons piece more ih =>
    obtain ⟨hpiece, hmore⟩ := List.forall_mem_cons.1 h
    rw [List.flatMap_cons, List.length_append] at hplace
    rw [stopAt]
    split
    · rw [hpiece]
    · exact ih hmore (by omega)

/-- Nothing stops pieces that all fit. -/
theorem stopAt_of_le (h : (pieces.flatMap Piece.bytes).length ≤ place) : stopAt pieces place = none
    := by
  induction pieces generalizing place with
  | nil => rfl
  | cons piece more ih =>
    rw [List.flatMap_cons, List.length_append] at h
    rw [stopAt, if_neg (by omega), ih (by omega)]

/-- Bytes are written as far as there is room for them. -/
theorem write_eq (hroom : w.room = some room) (bytes : Bytes) : w.write bytes =
    (decide (bytes.length ≤ room),
      ⟨some (room - bytes.length), w.written ++ bytes.take room⟩) := by
  rw [Writer.write, hroom]

/-- Bytes can be written in parts, if no part is tried behind one that does not fit. After a part
that did not fit there is no room for a single byte, so trying it would write nothing. -/
theorem write_append (hroom : w.room = some room) (bytes more : Bytes) :
    w.write (bytes ++ more) =
      if bytes.length ≤ room then (w.write bytes).2.write more else w.write bytes := by
  rw [write_eq hroom, write_eq hroom, write_eq rfl, List.length_append, List.take_append]
  split
  · next hfits =>
    have hlater : (bytes.length + more.length ≤ room) = (more.length ≤ room - bytes.length) := by
      rw [eq_iff_iff]
      omega
    simp only [hlater, Nat.sub_sub, List.append_assoc]
  · next hnot =>
    have hnothing : room - bytes.length = 0 := by omega
    have hfull : room - (bytes.length + more.length) = 0 := by omega
    have hnever : ¬ bytes.length + more.length ≤ room := by omega
    simp only [hnothing, hfull, hnot, hnever, List.take_zero, List.append_nil]

/-- **Pieces are written like all their bytes at once**, and what stops them is told by the place
where room ends. -/
theorem writePieces_eq (hroom : w.room = some room) : w.writePieces pieces =
    (stopAt pieces room, (w.write (pieces.flatMap Piece.bytes)).2) := by
  induction pieces generalizing w room with
  | nil =>
    obtain ⟨_, written⟩ := w
    obtain rfl : _ = some room := hroom
    simp [Writer.writePieces, Writer.write, stopAt]
  | cons piece more ih =>
    have hpiece : w.write piece.text.toUTF8.toList = w.write piece.bytes := rfl
    rw [Writer.writePieces, stopAt, List.flatMap_cons, write_append hroom, hpiece,
      write_eq hroom piece.bytes]
    by_cases hfits : piece.bytes.length ≤ room
    · rw [if_neg (by omega), if_pos hfits, decide_eq_true hfits]
      exact ih rfl
    · rw [if_pos (by omega), if_neg hfits, decide_eq_false hfits]

/-! ### Lines -/

/-- The parts of a line that is written. -/
inductive Part where
  /-- What it says. -/
  | message
  /-- Its pairs. -/
  | pairs
  /-- What ends it. -/
  | ending
  deriving DecidableEq

/-- The part of a line that the byte at a place belongs to. -/
def Line.part (line : Line) (place : Nat) : Part :=
  if place < line.message.utf8ByteSize then .message
  else if place < line.text.utf8ByteSize then .pairs
  else .ending

/-- The bytes of a line with its end. -/
def Line.bytes (line : Line) : Bytes := Text.utf8 (line.text ++ "\n")

/-- What stops a line at one of its parts. -/
def Part.stop : Part → Stop
  | .message | .ending => .broken
  | .pairs => .pair

variable {line : Line}

theorem Line.length_bytes (line : Line) : line.bytes.length = line.text.utf8ByteSize + 1 := by
  rw [bytes, Text.length_utf8, String.utf8ByteSize_append]
  rfl

/-- The pieces of a line, in three parts: what it says, its pairs, and its end. -/
theorem pieces_eq (line : Line) : Journal.pieces line.message line.pairs =
    [⟨line.message, .broken⟩] ++ (pairPieces line.pairs ++ [⟨"\n", .broken⟩]) := rfl

/-- The bytes of a line are those of what it says, and then of its pairs. -/
theorem utf8_text (line : Line) :
    Text.utf8 line.text =
      Text.utf8 line.message ++ (pairPieces line.pairs).flatMap Piece.bytes := by
  rw [Line.text, Text.utf8_join, List.flatMap_cons, List.flatMap_map, pairPieces,
    List.flatMap_map]
  rfl

/-- The pieces of a line are all its bytes. -/
theorem flatMap_bytes_pieces (line : Line) :
    (Journal.pieces line.message line.pairs).flatMap Piece.bytes = line.bytes := by
  rw [pieces_eq, Line.bytes, Text.utf8_append, utf8_text, List.flatMap_append, List.flatMap_append,
    List.flatMap_singleton, List.flatMap_singleton, List.append_assoc]
  rfl

/-- What stops a line is told by the part that its first byte without room belongs to. The three
parts are looked at one after the other. -/
theorem stopAt_pieces (h : place < line.bytes.length) :
    stopAt (Journal.pieces line.message line.pairs) place = some (line.part place).stop := by
  have hmessage : (([⟨line.message, .broken⟩] : List Piece).flatMap Piece.bytes).length =
      line.message.utf8ByteSize := by
    rw [List.flatMap_singleton, Piece.bytes, Text.length_utf8]
  have htext : line.text.utf8ByteSize =
      line.message.utf8ByteSize + ((pairPieces line.pairs).flatMap Piece.bytes).length := by
    rw [← Text.length_utf8, utf8_text, List.length_append, Text.length_utf8]
  have hpairs : ∀ piece ∈ pairPieces line.pairs, piece.stop = .pair := by
    simp [pairPieces]
  rw [Line.length_bytes] at h
  rw [pieces_eq, stopAt_append, stopAt_append, hmessage, Line.part]
  -- Which part the place belongs to is the same question for `stopAt` and for `Line.part`.
  by_cases hmsg : place < line.message.utf8ByteSize
  · rw [if_pos hmsg, if_pos hmsg]
    exact stopAt_of_forall (by simp [Part.stop]) (hmessage.symm ▸ hmsg)
  · rw [if_neg hmsg, if_neg hmsg]
    by_cases hpair : place < line.text.utf8ByteSize
    · rw [if_pos hpair, if_pos (by omega)]
      exact stopAt_of_forall hpairs (by omega)
    · have hend : place - line.message.utf8ByteSize -
          ((pairPieces line.pairs).flatMap Piece.bytes).length = 0 := by omega
      rw [if_neg hpair, if_neg (by omega), hend]
      refine stopAt_of_forall (by simp [Part.stop]) ?_
      rw [List.flatMap_singleton, Piece.bytes, Text.length_utf8]
      decide

/-- A line is written as far as there is room for it. -/
theorem writeLine_eq (hroom : w.room = some room) : w.writeLine line.message line.pairs =
    (stopAt (Journal.pieces line.message line.pairs) room,
      ⟨some (room - line.bytes.length), w.written ++ line.bytes.take room⟩) := by
  rw [Writer.writeLine, writePieces_eq hroom, flatMap_bytes_pieces, write_eq hroom]

/-! ### Entries -/

/-- What is given to a writer: a line, and the pairs of the loggers that it passes, from the
innermost to the root. -/
structure Entry where
  /-- The line, with pairs of its own. -/
  line : Line
  /-- The pairs of each logger. -/
  loggers : List (List Pair) := []

/-- The line that is written of an entry, with all pairs. -/
def Entry.whole (entry : Entry) : Line :=
  { entry.line with pairs := entry.line.pairs ++ entry.loggers.flatten }

/-- Writes entries one after the other, and tells what stopped each of them. -/
def Writer.writeAll : List Entry → Writer → List (Option Stop) × Writer
  | [], w => ([], w)
  | entry :: rest, w =>
    let (stop, w) := w.log entry.line.message entry.line.pairs entry.loggers
    let (stops, w) := w.writeAll rest
    (stop :: stops, w)

/-- The bytes of entries, each with its end. -/
def bytesOf (entries : List Entry) : Bytes := entries.flatMap (·.whole.bytes)

variable {entries before after : List Entry} {entry : Entry}

theorem bytesOf_append : bytesOf (entries ++ after) = bytesOf entries ++ bytesOf after :=
  List.flatMap_append

/-- An entry is written like a line with all its pairs, from wherever they come. -/
theorem log_eq (w : Writer) (entry : Entry) :
    w.log entry.line.message entry.line.pairs entry.loggers =
      w.writeLine entry.whole.message entry.whole.pairs :=
  Writer.log_eq_writeLine ..

/-- The first entry is written, and then the others to what that left of the writer. -/
theorem writeAll_cons : w.writeAll (entry :: after) =
    ((w.writeLine entry.whole.message entry.whole.pairs).1 ::
        ((w.writeLine entry.whole.message entry.whole.pairs).2.writeAll after).1,
      ((w.writeLine entry.whole.message entry.whole.pairs).2.writeAll after).2) := by
  rw [← log_eq]
  rfl

/-- Entries can be given to a writer in two parts: the second part finds it as the first one left
it. -/
theorem writeAll_append : w.writeAll (before ++ after) =
    ((w.writeAll before).1 ++ ((w.writeAll before).2.writeAll after).1,
      ((w.writeAll before).2.writeAll after).2) := by
  induction before generalizing w with
  | nil => rfl
  | cons first rest ih => rw [List.cons_append, writeAll_cons, writeAll_cons, ih, List.cons_append]

/-- **Every entry is tried**, also behind one that was stopped. -/
theorem length_writeAll : (w.writeAll entries).1.length = entries.length := by
  induction entries generalizing w with
  | nil => rfl
  | cons first rest ih => rw [writeAll_cons, List.length_cons, List.length_cons, ih]

/-- Entries are written as far as there is room for them. -/
theorem writeAll_snd (hroom : w.room = some room) : (w.writeAll entries).2 =
    ⟨some (room - (bytesOf entries).length), w.written ++ (bytesOf entries).take room⟩ := by
  induction entries generalizing w room with
  | nil =>
    obtain ⟨_, written⟩ := w
    obtain rfl : _ = some room := hroom
    simp [Writer.writeAll, bytesOf]
  | cons first rest ih =>
    have hbytes : bytesOf (first :: rest) = first.whole.bytes ++ bytesOf rest := rfl
    rw [writeAll_cons, writeLine_eq hroom, hbytes, List.length_append, List.take_append, ih rfl,
      Nat.sub_sub, List.append_assoc]

/-- What becomes of an entry behind others, for a writer that has room for so many bytes. -/
structure Told (room : Nat) (before : List Entry) (entry : Entry) (stopped : Option Stop) :
    Prop where
  /-- It is written if all bytes up to its end fit. -/
  eq_none_iff : stopped = none ↔ (bytesOf (before ++ [entry])).length ≤ room
  /-- Otherwise some of its bytes are written, and the part that the first one belongs to that is
  not tells what went wrong. -/
  stops : ∀ stop, stopped = some stop → ∃ accepted < entry.whole.bytes.length,
    (Writer.writeAll (before ++ [entry]) { room := some room }).2.written =
      (Writer.writeAll before { room := some room }).2.written ++
        entry.whole.bytes.take accepted ∧
    (stop.name = "Other" ↔ entry.whole.part accepted = .pairs) ∧
    (stop.name = "BrokenPipe" ↔
      entry.whole.part accepted = .message ∨ entry.whole.part accepted = .ending)

/-- The name of what went wrong tells a pair from the two other parts, and not those two from each
other. -/
theorem Part.stop_name (part : Part) : (part.stop.name = "Other" ↔ part = .pairs) ∧
    (part.stop.name = "BrokenPipe" ↔ part = .message ∨ part = .ending) := by
  cases part <;> decide

/-- What stops the pieces of an entry is what becomes of it, with the room that the entries before
it have left. -/
theorem told_stopAt (room : Nat) (before : List Entry) (entry : Entry) :
    Told room before entry (stopAt (Journal.pieces entry.whole.message entry.whole.pairs)
      (room - (bytesOf before).length)) := by
  have hbytes : bytesOf (before ++ [entry]) = bytesOf before ++ entry.whole.bytes := by
    rw [bytesOf_append]
    exact congrArg _ (List.append_nil _)
  have hsome : 0 < entry.whole.bytes.length := by
    rw [Line.length_bytes]
    exact Nat.succ_pos _
  by_cases hfits : entry.whole.bytes.length ≤ room - (bytesOf before).length
  · rw [stopAt_of_le (by rwa [flatMap_bytes_pieces])]
    refine ⟨?_, fun _ h ↦ absurd h (by simp)⟩
    rw [hbytes, List.length_append]
    exact ⟨fun _ ↦ by omega, fun _ ↦ rfl⟩
  · rw [stopAt_pieces (Nat.lt_of_not_le hfits)]
    refine ⟨?_, fun stop hstop ↦ ⟨room - (bytesOf before).length, Nat.lt_of_not_le hfits, ?_, ?_⟩⟩
    · rw [hbytes, List.length_append]
      exact ⟨fun h ↦ absurd h (by simp), fun _ ↦ by omega⟩
    · rw [writeAll_snd rfl, writeAll_snd rfl, hbytes, List.take_append, List.append_assoc]
    · obtain rfl := Option.some.inj hstop
      exact Part.stop_name _

/-- What becomes of entries that are given to a writer that has room for so many bytes. -/
structure CutsOff (room : Nat) (entries : List Entry) : Prop where
  /-- The first bytes of all lines are written. -/
  written_eq : (Writer.writeAll entries { room := some room }).2.written =
    (bytesOf entries).take room
  /-- Each entry is tried. -/
  length_eq : (Writer.writeAll entries { room := some room }).1.length = entries.length
  /-- What becomes of it depends on where the room ends. -/
  told : ∀ before entry after, entries = before ++ entry :: after → ∃ stopped,
    (Writer.writeAll entries { room := some room }).1[before.length]? = some stopped ∧
      Told room before entry stopped

/-- **A journal is cut off where its room ends**, and every entry is told whether it was written, or
which part of it was not. -/
theorem cutsOff_writeAll (room : Nat) (entries : List Entry) : CutsOff room entries := by
  refine ⟨by rw [writeAll_snd rfl]; rfl, length_writeAll, ?_⟩
  rintro before entry after rfl
  refine ⟨_, ?_, told_stopAt room before entry⟩
  rw [writeAll_append, List.getElem?_append_right (Nat.le_of_eq length_writeAll), length_writeAll,
    Nat.sub_self, writeAll_cons, List.getElem?_cons_zero, writeAll_snd rfl, writeLine_eq rfl]

/-- The room ends in the second message, and an entry without a message is stopped at its pair. -/
example :
    Writer.writeAll [⟨⟨.info, "up", []⟩, [[⟨"n", "3"⟩]]⟩, ⟨⟨.info, "down", []⟩, [[⟨"n", "3"⟩]]⟩,
        ⟨⟨.info, "", []⟩, [[⟨"n", "3"⟩]]⟩] { room := some 9 } =
      ([none, some .broken, some .pair], ⟨some 0, Text.utf8 "up,n=3\ndo"⟩) := by
  decide +kernel

end Journal

end ReliableStream
