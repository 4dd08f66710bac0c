import ReliableStream.Trace.Table

/-!
# The cells of a trace's table

A cell of a table has to stand between quotes if it holds a comma, a quote or the end of a line. No
cell of a trace does: times, endpoints, names and numbers are written in letters, digits and the
four marks `.`, `:`, `-` and `_`, whatever the record (`plain_of_mem_cells`), and none of these
needs quotes (`not_needsQuotes_of_plain`). For times this holds in every style, of every double.

Every cell is put together from a few texts, so the lemmas are about what texts are put together
from: to be plain is kept by joining (`Plain.append`), and digits are plain.
-/

namespace ReliableStream

/-- The letters, the digits, and the marks `.`, `:`, `-` and `_`. -/
def Text.isPlain (c : Char) : Bool := c.isAlphanum || c ∈ ['.', ':', '-', '_']

/-- All characters of a text are plain. -/
def Text.Plain (text : List Char) : Prop := ∀ c ∈ text, isPlain c = true

instance (text : List Char) : Decidable (Text.Plain text) :=
  List.decidableBAll (Text.isPlain · = true) text

namespace Text

variable {text rest : List Char} {c : Char}

theorem isPlain_of_isDigit (h : c.isDigit = true) : isPlain c = true := by
  simp [isPlain, Char.isAlphanum, h]

theorem plain_nil : Plain [] := fun _ h ↦ absurd h List.not_mem_nil

theorem Plain.append (h : Plain text) (h' : Plain rest) : Plain (text ++ rest) :=
  List.forall_mem_append.2 ⟨h, h'⟩

theorem Plain.cons (hc : isPlain c = true) (h : Plain text) : Plain (c :: text) :=
  List.forall_mem_cons.2 ⟨hc, h⟩

theorem plain_of_isDigit (h : ∀ c ∈ text, c.isDigit = true) : Plain text := fun c hc ↦
  isPlain_of_isDigit (h c hc)

theorem plain_toDigits (n : Nat) : Plain (Nat.toDigits 10 n) :=
  plain_of_isDigit fun _ ↦ Nat.isDigit_of_mem_toDigits (by decide) (by decide)

/-- The characters of a number. -/
theorem toList_toString (n : Nat) : (toString n).toList = Nat.toDigits 10 n := by
  simp [toString, Nat.repr_eq_ofList_toDigits]

end Text

/-! ### Times -/

namespace Binary64

open Text

variable {d : Digits} {value : Nat} {exponent : Int} {c : Char}

theorem isDigit_of_mem_ofScaled (h : c ∈ (Digits.ofScaled value exponent).digits) :
    c.isDigit = true := by
  have hmem : c ∈ Nat.toDigits 10 value := by
    have hsub := List.dropWhile_sublist (l := (Nat.toDigits 10 value).reverse) (· = '0')
    exact List.mem_reverse.1 (hsub.subset (List.mem_reverse.1 h))
  exact Nat.isDigit_of_mem_toDigits (by decide) (by decide) hmem

/-- What is written of the shortest number that rounds to a double are digits. -/
theorem isDigit_of_mem_shortest {tieUp : Bool} {rank : Nat}
    (h : c ∈ (shortest tieUp rank).digits) : c.isDigit = true := by
  rw [shortest] at h
  split at h
  · obtain rfl := List.mem_singleton.1 h
    rfl
  · -- Whichever grid the digits are taken from, they are those of a scaled number.
    dsimp only at h
    generalize htries : List.findSome? _ _ = tries at h
    cases tries with
    | none => exact isDigit_of_mem_ofScaled h
    | some digits =>
      obtain ⟨n, -, hn⟩ := List.exists_of_findSome?_eq_some htries
      obtain ⟨value, -, rfl⟩ := Option.map_eq_some_iff.1 hn
      exact isDigit_of_mem_ofScaled h

/-- Digits with a point among them, and zeros around them, are plain. -/
theorem plain_plainText (h : Plain d.digits) (wholePoint : Bool) :
    Plain (d.plainText wholePoint) := by
  have hzeros (n : Nat) : Plain (List.replicate n '0') := fun c hc ↦ by
    obtain rfl := List.eq_of_mem_replicate hc
    rfl
  rw [Digits.plainText]
  split
  · exact .cons rfl (.cons rfl ((hzeros _).append h))
  · split
    · refine (h.append (hzeros _)).append ?_
      cases wholePoint
      · exact plain_nil
      · exact .cons rfl (.cons rfl plain_nil)
    · have htake : Plain (d.digits.take d.point.toNat) := fun c hc ↦ h c (List.mem_of_mem_take hc)
      exact htake.append (.cons rfl fun c hc ↦ h c (List.mem_of_mem_drop hc))

theorem plain_scientificText (h : Plain d.digits) : Plain d.scientificText := by
  have hsign (negative : Prop) [Decidable negative] :
      Plain (if negative then ['-'] else []) := by
    split
    · exact .cons rfl plain_nil
    · exact plain_nil
  rw [Digits.scientificText]
  refine .append (.append ?_ (.cons rfl (hsign _))) (plain_toDigits _)
  split
  · next first second rest heq =>
    rw [heq] at h
    obtain ⟨hfirst, hrest⟩ := List.forall_mem_cons.1 h
    exact .cons hfirst (.cons rfl hrest)
  · exact h

/-- **A time is written plainly**, in every style and of every double, those included that are no
numbers. -/
theorem plain_write (style : DecimalStyle) (x : Binary64) : Plain (x.write style).toList := by
  cases x with
  | nan => exact (by decide : Plain "NaN".toList)
  | infinite negative =>
    cases negative
    · exact (by decide : Plain "inf".toList)
    · exact (by decide : Plain "-inf".toList)
  | finite negative rank =>
    have hdigits : Plain (shortest style.tieUp rank).digits :=
      plain_of_isDigit fun _ ↦ isDigit_of_mem_shortest
    have htext : Plain ((shortest style.tieUp rank).text style) := by
      rw [Digits.text]
      split
      · exact plain_plainText hdigits _
      · exact plain_scientificText hdigits
    rw [write, signed, String.toList_ofList]
    cases negative
    · exact plain_nil.append htext
    · exact .append (.cons rfl plain_nil) htext

end Binary64

/-! ### Endpoints, names and numbers -/

open Text

theorem Endpoint.plain_text (e : Endpoint) : Plain e.text.toList := by
  rw [toList_text]
  have hcons (c : Char) (hc : isPlain c = true) (n : Nat) {rest : List Char} (h : Plain rest) :
      Plain (Nat.toDigits 10 n ++ c :: rest) := (plain_toDigits n).append (.cons hc h)
  exact hcons _ rfl _ (hcons _ rfl _ (hcons _ rfl _ (hcons _ rfl _ (plain_toDigits _))))

theorem Packet.Kind.plain_name (kind : Packet.Kind) : Plain kind.name.toList := by
  cases kind <;> decide

namespace Trace

theorem Event.plain_name (event : Event) : Plain event.name.toList := by
  cases event <;> simp only [name] <;> decide

/-- A cell that may be empty is plain if it is when it is not. -/
theorem plain_elim {α : Type} {write : α → String} (h : ∀ a, Plain (write a).toList)
    (x : Option α) :
    Plain (x.elim "" write).toList := by
  cases x with
  | none => exact plain_nil
  | some a => exact h a

/-- **No cell of a record holds anything but plain characters**, whatever happened. -/
theorem plain_of_mem_cells {r : Record} {cell : String} (h : cell ∈ r.cells) :
    Plain cell.toList := by
  have hnumber (n : Nat) : Plain (toString n).toList := by
    rw [toList_toString]
    exact plain_toDigits n
  simp only [Record.cells, List.mem_cons, List.not_mem_nil, or_false] at h
  rcases h with rfl | rfl | rfl | rfl | rfl | rfl | rfl
  · exact Binary64.plain_write _ _
  · exact r.endpoint.plain_text
  · exact r.event.plain_name
  · exact plain_elim Packet.Kind.plain_name _
  · exact plain_elim hnumber _
  · exact plain_elim hnumber _
  · exact plain_elim hnumber _

theorem plain_of_mem_header {cell : String} (h : cell ∈ header) : Plain cell.toList := by
  have hall : ∀ cell ∈ header, Plain cell.toList := by decide
  exact hall cell h

/-- A cell needs quotes if it holds a comma, a quote or the end of a line. -/
def NeedsQuotes (cell : String) : Prop := ∃ c ∈ [',', '"', '\n', '\r'], c ∈ cell.toList

instance (cell : String) : Decidable (NeedsQuotes cell) :=
  List.decidableBEx (· ∈ cell.toList) [',', '"', '\n', '\r']

/-- A comma, a quote and the end of a line are not plain. -/
theorem not_needsQuotes_of_plain {cell : String} (h : Plain cell.toList) : ¬ NeedsQuotes cell := by
  rintro ⟨c, hc, hmem⟩
  have hplain := h c hmem
  simp only [List.mem_cons, List.not_mem_nil, or_false] at hc
  rcases hc with rfl | rfl | rfl | rfl
  all_goals exact absurd hplain (by decide)

end Trace

end ReliableStream
