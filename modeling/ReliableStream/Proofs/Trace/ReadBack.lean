import Mathlib.Tactic.Common
import ReliableStream.Proofs.Trace.Cells

/-!
# Reading a trace back from its table

The table of a trace is cut at the ends of its lines, and each line at its commas. That gives the
cells again, since no cell holds either (`fields_lines`, `fields_intercalate`), and each cell but
the first reads back as what was written into it: the endpoint, the name of the event, and the
numbers and the kind that the event has (`readTable?_table`). The first cell, the time, was
rounded, and is left as it is.

A table is made by a writer that puts quotes around cells that need them. What it does with those
makes no difference here, so the main statement is about every writer that leaves all other cells
as they are.

What is used of cells is that they are plain. The rest is about texts that are joined by separators
and ended by line ends, of any number of cells and lines.
-/

namespace ReliableStream

namespace Text

variable {separator : Char}

/-- Texts that hold no separator come out again when they are joined by separators and cut there. -/
theorem fields_intercalate {texts : List (List Char)} (hne : texts ≠ [])
    (h : ∀ text ∈ texts, separator ∉ text) :
    fields separator ([separator].intercalate texts) = texts := by
  induction texts with
  | nil => exact absurd rfl hne
  | cons first rest ih =>
    obtain ⟨hfirst, hrest⟩ := List.forall_mem_cons.1 h
    cases rest with
    | nil => simpa using fields_of_not_mem hfirst
    | cons second rest =>
      rw [List.intercalate_cons_cons, List.append_assoc, List.singleton_append,
        fields_append_cons _ hfirst, ih (by simp) hrest]

/-- What is in texts that are joined by separators is a separator, or is in one of them. -/
theorem mem_of_mem_intercalate {texts : List (List Char)} {c : Char}
    (h : c ∈ [separator].intercalate texts) : c = separator ∨ ∃ text ∈ texts, c ∈ text := by
  induction texts with
  | nil => exact absurd h List.not_mem_nil
  | cons first rest ih =>
    cases rest with
    | nil => exact .inr ⟨first, by simp, by simpa using h⟩
    | cons second rest =>
      rw [List.intercalate_cons_cons, List.append_assoc, List.mem_append] at h
      rcases h with hfirst | h
      · exact .inr ⟨first, by simp, hfirst⟩
      · rcases List.mem_cons.1 h with heq | hrest
        · exact .inl heq
        · exact (ih hrest).imp_right fun ⟨text, htext, hc⟩ ↦
            ⟨text, List.mem_cons_of_mem _ htext, hc⟩

/-- Lines come out again when each has an end of its own, with nothing after the last one. -/
theorem fields_lines {lines : List (List Char)} (h : ∀ line ∈ lines, separator ∉ line) :
    fields separator (lines.flatMap (· ++ [separator])) = lines ++ [[]] := by
  induction lines with
  | nil => rfl
  | cons first rest ih =>
    obtain ⟨hfirst, hrest⟩ := List.forall_mem_cons.1 h
    rw [List.flatMap_cons, List.append_assoc, List.singleton_append, fields_append_cons _ hfirst,
      ih hrest, List.cons_append]

end Text

/-- The kind that has a name. -/
def Packet.Kind.ofName? (name : List Char) : Option Packet.Kind :=
  [.syn, .synAck, .ack, .data, .fin, .finAck].find? (·.name.toList = name)

theorem Packet.Kind.ofName?_name (kind : Packet.Kind) : ofName? kind.name.toList = some kind := by
  cases kind <;> decide

namespace Trace

open Text

/-! ### What events have -/

/-- The event is about a packet of this kind. -/
inductive Event.HasKind : Event → Packet.Kind → Prop
  | packetLost {kind : Packet.Kind} {seq : Nat} : HasKind (.packetLost kind seq) kind
  | packetDuplicated {kind : Packet.Kind} {seq : Nat} : HasKind (.packetDuplicated kind seq) kind
  | packetReordered {kind : Packet.Kind} {seq : Nat} : HasKind (.packetReordered kind seq) kind

/-- The event is about a segment or a packet with this sequence number. -/
inductive Event.HasSeq : Event → Nat → Prop
  | segmentSent {seq len : Nat} : HasSeq (.segmentSent seq len) seq
  | segmentResent {seq len count : Nat} : HasSeq (.segmentResent seq len count) seq
  | packetLost {kind : Packet.Kind} {seq : Nat} : HasSeq (.packetLost kind seq) seq
  | packetDuplicated {kind : Packet.Kind} {seq : Nat} : HasSeq (.packetDuplicated kind seq) seq
  | packetReordered {kind : Packet.Kind} {seq : Nat} : HasSeq (.packetReordered kind seq) seq

/-- The event is about this acknowledgement number. -/
inductive Event.HasAck : Event → Nat → Prop
  | ackReceived {ack segments : Nat} : HasAck (.ackReceived ack segments) ack

/-- The event is about this number of bytes. -/
inductive Event.HasLen : Event → Nat → Prop
  | segmentSent {seq len : Nat} : HasLen (.segmentSent seq len) len
  | segmentResent {seq len count : Nat} : HasLen (.segmentResent seq len count) len
  | bytesDelivered {len : Nat} : HasLen (.bytesDelivered len) len

/-- What a line of a table tells of a record. -/
structure Reading where
  /-- Whom the record concerns. -/
  endpoint : Endpoint
  /-- The name of what happened. -/
  name : String
  /-- What the event has. -/
  details : Details
  deriving DecidableEq

/-- What the line of a record tells of it. -/
def Record.reading (r : Record) : Reading := ⟨r.endpoint, r.event.name, r.event.details⟩

/-- What is told of a record is what it has: all of it, and nothing else. -/
structure Reading.Tells (x : Reading) (r : Record) : Prop where
  /-- The endpoint is that of the record. -/
  endpoint_eq : x.endpoint = r.endpoint
  /-- The name is that of the event. -/
  name_eq : x.name = r.event.name
  /-- A kind is told if the event has one. -/
  kind_iff : ∀ kind, x.details.kind = some kind ↔ r.event.HasKind kind
  /-- A sequence number is told if the event has one. -/
  seq_iff : ∀ seq, x.details.seq = some seq ↔ r.event.HasSeq seq
  /-- An acknowledgement number is told if the event has one. -/
  ack_iff : ∀ ack, x.details.ack = some ack ↔ r.event.HasAck ack
  /-- A number of bytes is told if the event has one. -/
  len_iff : ∀ len, x.details.len = some len ↔ r.event.HasLen len

theorem Record.tells_reading (r : Record) : r.reading.Tells r := by
  obtain ⟨time, endpoint, event⟩ := r
  refine ⟨rfl, rfl, fun kind ↦ ?_, fun seq ↦ ?_, fun ack ↦ ?_, fun len ↦ ?_⟩
  all_goals
    constructor
    · intro h
      cases event <;> cases h <;> constructor
    · rintro ⟨⟩ <;> rfl

/-! ### Reading -/

/-- Reads a cell that may be empty. -/
def readCell? {α : Type} (read? : List Char → Option α) : List Char → Option (Option α)
  | [] => some none
  | cell => (read? cell).map some

/-- Reads a line of seven cells, all but the first. -/
def readLine? (line : List Char) : Option Reading :=
  match fields ',' line with
  | [_, endpoint, name, kind, seq, ack, len] => do
    let endpoint ← Endpoint.ofText? (String.ofList endpoint)
    let kind ← readCell? Packet.Kind.ofName? kind
    let seq ← readCell? readDecimal? seq
    let ack ← readCell? readDecimal? ack
    let len ← readCell? readDecimal? len
    pure ⟨endpoint, String.ofList name, { kind, seq, ack, len }⟩
  | _ => none

/-- Reads a table, which is empty or starts with the header. -/
def readTable? (text : String) : Option (List Reading) :=
  if text = "" then some []
  else match fields '\n' text.toList with
    | first :: lines =>
      if first = (",".intercalate header).toList then lines.dropLast.mapM readLine? else none
    | [] => none

/-- A cell reads back as what was written into it, if that is read back and is not empty. So a cell
that has nothing is told from one that has. -/
theorem readCell?_elim {α : Type} {read? : List Char → Option α} {write : α → String}
    (hread : ∀ a, read? (write a).toList = some a) (hempty : read? [] = none) (x : Option α) :
    readCell? read? (x.elim "" write).toList = some x := by
  cases x with
  | none => rfl
  | some a =>
    have ha := hread a
    rw [Option.elim_some, readCell?]
    · rw [ha, Option.map_some]
    · intro hnil
      rw [hnil, hempty] at ha
      exact absurd ha (by simp)

theorem readDecimal?_toString (n : Nat) : readDecimal? (toString n).toList = some n := by
  rw [toList_toString, readDecimal?_toDigits]

/-- A line is cut into its cells. -/
theorem fields_line {cells : List String} (hne : cells ≠ [])
    (h : ∀ cell ∈ cells, Plain cell.toList) :
    fields ',' (",".intercalate cells).toList = cells.map String.toList := by
  rw [String.toList_intercalate]
  refine fields_intercalate (by simpa using hne) fun text htext ↦ ?_
  obtain ⟨cell, hcell, rfl⟩ := List.mem_map.1 htext
  exact fun hcomma ↦ absurd (h cell hcell _ hcomma) (by decide)

/-- The line of a record reads back as what it tells of it. -/
theorem readLine?_cells (r : Record) :
    readLine? (",".intercalate r.cells).toList = some r.reading := by
  rw [readLine?, fields_line (by simp [Record.cells]) fun _ ↦ plain_of_mem_cells]
  have hnumber (x : Option Nat) : readCell? readDecimal? (x.elim "" toString).toList = some x :=
    readCell?_elim readDecimal?_toString (by decide) x
  have hkind (x : Option Packet.Kind) :
      readCell? Packet.Kind.ofName? (x.elim "" Packet.Kind.name).toList = some x :=
    readCell?_elim Packet.Kind.ofName?_name (by decide) x
  simp [Record.cells, hnumber, hkind, Endpoint.ofText?_text, Record.reading]

/-! ### Whole tables -/

variable {records : List Record} {cells : List String} {cell : String}

/-- The rows of a table: the names of the columns, and the cells of each record. -/
def rows (records : List Record) : List (List String) := header :: records.map Record.cells

theorem plain_of_mem_rows (hcells : cells ∈ rows records) (hcell : cell ∈ cells) :
    Plain cell.toList := by
  rcases List.mem_cons.1 hcells with rfl | hcells
  · exact plain_of_mem_header hcell
  · obtain ⟨r, -, rfl⟩ := List.mem_map.1 hcells
    exact plain_of_mem_cells hcell

theorem length_of_mem_rows (hcells : cells ∈ rows records) : cells.length = 7 := by
  rcases List.mem_cons.1 hcells with rfl | hcells
  · rfl
  · obtain ⟨r, -, rfl⟩ := List.mem_map.1 hcells
    rfl

theorem fields_of_mem_rows (hcells : cells ∈ rows records) :
    fields ',' (",".intercalate cells).toList = cells.map String.toList := by
  refine fields_line ?_ fun _ ↦ plain_of_mem_rows hcells
  rintro rfl
  exact absurd (length_of_mem_rows hcells) (by decide)

theorem toList_line (cells : List String) :
    (line cells).toList = (",".intercalate cells).toList ++ ['\n'] := by
  rw [line, String.toList_append]
  rfl

/-- The table of a trace that is not empty is made of rows. -/
theorem table_eq_join (hne : records ≠ []) :
    table records = String.join ((rows records).map line) := by
  rw [rows, List.map_cons, List.map_map]
  cases records with
  | nil => exact absurd rfl hne
  | cons first rest => rfl

theorem toList_table (hne : records ≠ []) : (table records).toList =
    ((rows records).map fun cells ↦ (",".intercalate cells).toList).flatMap (· ++ ['\n']) := by
  rw [table_eq_join hne, String.toList_join, List.flatMap_map, List.flatMap_map]
  simp only [toList_line]

/-- The table of a trace, cut at the ends of its lines. -/
theorem fields_table (hne : records ≠ []) : fields '\n' (table records).toList =
    ((rows records).map fun cells ↦ (",".intercalate cells).toList) ++ [[]] := by
  rw [toList_table hne]
  refine fields_lines fun text htext hend ↦ ?_
  obtain ⟨cells, hcells, rfl⟩ := List.mem_map.1 htext
  rw [String.toList_intercalate] at hend
  rcases mem_of_mem_intercalate hend with hcomma | ⟨text, htext, hmem⟩
  · exact absurd hcomma (by decide)
  · obtain ⟨cell, hcell, rfl⟩ := List.mem_map.1 htext
    exact absurd (plain_of_mem_rows hcells hcell _ hmem) (by decide)

/-- Lines of records read back one after the other. -/
theorem mapM_readLine? (records : List Record) :
    (records.map fun r ↦ (",".intercalate r.cells).toList).mapM readLine? =
      some (records.map Record.reading) := by
  induction records with
  | nil => rfl
  | cons first rest ih =>
    rw [List.map_cons, List.mapM_cons, readLine?_cells, ih]
    rfl

/-- The table of a trace reads back as what it tells of the records. -/
theorem readTable?_table (records : List Record) :
    readTable? (table records) = some (records.map Record.reading) := by
  cases records with
  | nil => rfl
  | cons first rest =>
    have hfields := fields_table (List.cons_ne_nil first rest)
    have hne : table (first :: rest) ≠ "" := by
      intro hempty
      rw [hempty] at hfields
      exact absurd hfields (by simp [rows, fields])
    rw [readTable?, if_neg hne, hfields, rows, List.map_cons, List.cons_append, List.map_map]
    dsimp only
    rw [if_pos rfl, List.dropLast_concat]
    exact mapM_readLine? _

/-! ### Whatever is done with cells that need quotes -/

/-- The table of a trace, from a writer that puts down a cell as `quote` says. -/
def tableBy (quote : String → String) : List Record → String
  | [] => ""
  | records => String.join ((rows records).map fun cells ↦ line (cells.map quote))

/-- Such a writer makes the table if it leaves all cells as they are that need no quotes. -/
theorem tableBy_eq_table {quote : String → String}
    (hquote : ∀ cell, ¬ NeedsQuotes cell → quote cell = cell) (records : List Record) :
    tableBy quote records = table records := by
  have hrow : ∀ cells ∈ rows records, line (cells.map quote) = line cells := fun cells hcells ↦ by
    rw [List.map_congr_left fun cell hcell ↦
      hquote cell (not_needsQuotes_of_plain (plain_of_mem_rows hcells hcell)), List.map_id']
  cases records with
  | nil => rfl
  | cons first rest =>
    rw [table_eq_join (by simp), ← List.map_congr_left hrow]
    rfl

/-- What a table lets be read of a trace. -/
structure ReadsBack (quote : String → String) (records : List Record) : Prop where
  /-- The writer makes the table of the trace, so that what follows holds of that. -/
  table_eq : tableBy quote records = table records
  /-- Nothing is written of nothing. -/
  empty : records = [] → tableBy quote records = ""
  /-- Otherwise there is the header, a line for each record, in order, and each line has its end. -/
  lines : records ≠ [] → fields '\n' (tableBy quote records).toList =
    ((rows records).map fun cells ↦ (",".intercalate cells).toList) ++ [[]]
  /-- No cell needs quotes. -/
  plain : ∀ cells ∈ rows records, ∀ cell ∈ cells, ¬ NeedsQuotes cell
  /-- A line that is cut at its commas has seven fields, which are the cells. -/
  cells : ∀ cells ∈ rows records, cells.length = 7 ∧
    fields ',' (",".intercalate cells).toList = cells.map String.toList
  /-- What is read are the readings of the records, in order. -/
  reads : readTable? (tableBy quote records) = some (records.map Record.reading)
  /-- A reading tells of a record what it has, and nothing else. -/
  tells : ∀ r ∈ records, r.reading.Tells r
  /-- Traces with the same table agree on what is told. -/
  agree : ∀ others, tableBy quote others = tableBy quote records →
    others.map Record.reading = records.map Record.reading

/-- **A trace can be read back from its table**, whatever happened, and whatever the writer does
with cells that need quotes. There are none, so the writer makes the table that the program writes.
-/
theorem readsBack_tableBy {quote : String → String}
    (hquote : ∀ cell, ¬ NeedsQuotes cell → quote cell = cell) (records : List Record) :
    ReadsBack quote records := by
  have hreads (records : List Record) :
      readTable? (tableBy quote records) = some (records.map Record.reading) := by
    rw [tableBy_eq_table hquote, readTable?_table]
  refine
    { table_eq := tableBy_eq_table hquote records
      empty := fun hnil ↦ hnil ▸ rfl
      lines := fun hne ↦ by rw [tableBy_eq_table hquote, fields_table hne]
      plain := fun _ hcells _ hcell ↦ not_needsQuotes_of_plain (plain_of_mem_rows hcells hcell)
      cells := fun _ hcells ↦ ⟨length_of_mem_rows hcells, fields_of_mem_rows hcells⟩
      reads := hreads records
      tells := fun r _ ↦ r.tells_reading
      agree := fun others heq ↦ ?_ }
  have hothers := hreads others
  rw [heq, hreads records] at hothers
  exact (Option.some.inj hothers).symm

/-- A cell between quotes, with each quote in it written twice. -/
def inQuotes (cell : String) : String :=
  "\"" ++ String.ofList (cell.toList.flatMap fun c ↦ if c = '"' then [c, c] else [c]) ++ "\""

/-- A segment that is sent, lost and sent again, and an acknowledgement. -/
def mishap : List Record :=
  [⟨1500000000, ⟨10, 0, 0, 2, 6000⟩, .segmentSent 1001 12⟩,
    ⟨1500000000, ⟨10, 0, 0, 2, 6000⟩, .packetLost .data 1001⟩,
    ⟨2000000001, ⟨10, 0, 0, 2, 6000⟩, .segmentResent 1001 12 1⟩,
    ⟨2250000000, ⟨10, 0, 0, 2, 6000⟩, .ackReceived 1013 1⟩]

/-- Its table, from a writer that puts quotes around the cells that need them, and no others. -/
theorem readsBack_mishap :
    (∀ cell, ¬ NeedsQuotes cell → (if NeedsQuotes cell then inQuotes cell else cell) = cell) ∧
      ReadsBack (fun cell ↦ if NeedsQuotes cell then inQuotes cell else cell) mishap ∧
      tableBy (fun cell ↦ if NeedsQuotes cell then inQuotes cell else cell) mishap =
        "time_s,endpoint,event,kind,seq,ack,len\n1.5,10.0.0.2:6000,segment_sent,,1001,,12\n" ++
        "1.5,10.0.0.2:6000,packet_lost,DATA,1001,,\n" ++
        "2.000000001,10.0.0.2:6000,segment_retransmitted,,1001,,12\n" ++
        "2.25,10.0.0.2:6000,ack_received,,,1013,\n" :=
  ⟨fun _ h ↦ if_neg h, readsBack_tableBy (fun _ h ↦ if_neg h) mishap, by decide +kernel⟩

end Trace

end ReliableStream
