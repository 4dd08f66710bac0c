import ReliableStream.Text.Decimal
import ReliableStream.Text.Fields

/-!
# Endpoints

An endpoint is an IPv4 address and the number of a service there. Its text is the four bytes of
the address joined by dots, a colon and the number of the service, all in decimal. `ofText?` reads
this back.
-/

namespace ReliableStream

/-- Where a connection lives: an IPv4 address and a service there. -/
structure Endpoint where
  /-- First byte of the address. -/
  a : UInt8
  /-- Second byte of the address. -/
  b : UInt8
  /-- Third byte of the address. -/
  c : UInt8
  /-- Fourth byte of the address. -/
  d : UInt8
  /-- The number of the service. -/
  service : UInt16
  deriving DecidableEq

namespace Endpoint

/-- The text of an endpoint. -/
def text (e : Endpoint) : String :=
  s!"{e.a.toNat}.{e.b.toNat}.{e.c.toNat}.{e.d.toNat}:{e.service.toNat}"

/-- Reads a decimal number below a bound. -/
def readBelow? (bound : Nat) (text : List Char) : Option Nat :=
  (Text.readDecimal? text).filter (· < bound)

/-- Reads the text of an endpoint. -/
def ofText? (text : String) : Option Endpoint :=
  match Text.fields ':' text.toList with
  | [address, service] =>
    match (Text.fields '.' address).mapM (readBelow? 256), readBelow? 65536 service with
    | some [a, b, c, d], some service =>
      some ⟨UInt8.ofNat a, UInt8.ofNat b, UInt8.ofNat c, UInt8.ofNat d, UInt16.ofNat service⟩
    | _, _ => none
  | _ => none

/-! ### Reading back -/

/-- The characters of the text of an endpoint. -/
theorem toList_text (e : Endpoint) :
    e.text.toList = Nat.toDigits 10 e.a.toNat ++ '.' :: (Nat.toDigits 10 e.b.toNat ++
      '.' :: (Nat.toDigits 10 e.c.toNat ++ '.' :: (Nat.toDigits 10 e.d.toNat ++
      ':' :: Nat.toDigits 10 e.service.toNat))) := by
  simp [text, toString, Nat.repr_eq_ofList_toDigits]

/-- The digits of a number below a bound read back as the number. -/
theorem readBelow?_toDigits {bound n : Nat} (h : n < bound) :
    readBelow? bound (Nat.toDigits 10 n) = some n := by
  simp [readBelow?, Text.readDecimal?_toDigits, h]

/-- **The text of an endpoint reads back as the endpoint.** No digit is a dot or a colon, so the
text is cut where the numbers were joined. -/
theorem ofText?_text (e : Endpoint) : ofText? e.text = some e := by
  have dot (n : Nat) : '.' ∉ Nat.toDigits 10 n := Text.not_mem_toDigits (by decide) n
  have colon (n : Nat) : ':' ∉ Nat.toDigits 10 n := Text.not_mem_toDigits (by decide) n
  have byte (x : UInt8) : readBelow? 256 (Nat.toDigits 10 x.toNat) = some x.toNat :=
    readBelow?_toDigits x.toNat_lt
  have service (x : UInt16) : readBelow? 65536 (Nat.toDigits 10 x.toNat) = some x.toNat :=
    readBelow?_toDigits x.toNat_lt
  have cut : Text.fields ':' e.text.toList =
      [Nat.toDigits 10 e.a.toNat ++ '.' :: (Nat.toDigits 10 e.b.toNat ++
        '.' :: (Nat.toDigits 10 e.c.toNat ++ '.' :: Nat.toDigits 10 e.d.toNat)),
      Nat.toDigits 10 e.service.toNat] := by
    rw [toList_text, ← Text.fields_of_not_mem (colon e.service.toNat), ← Text.fields_append_cons]
    · simp
    · simp [colon]
  simp [ofText?, cut, Text.fields_append_cons _ (dot _), Text.fields_of_not_mem (dot _), byte,
    service]

end Endpoint

end ReliableStream
