import Mathlib.Data.List.Basic
import Mathlib.Tactic.Ring
import Mathlib.Tactic.NormNum

/-! # Byte strings

Python `bytes` values are lists of bytes.  The conversions the repository uses:

* `toBytes value length` is `starkware.python.utils.to_bytes(value, length)` with the big-endian
  byte order, i.e. `int.to_bytes`: it raises `OverflowError` unless `0 ≤ value < 256 ^ length`
  (the default length is `HASH_BYTES = 32`, `toHashBytes`);
* `fromBytes` is `int.from_bytes(…, "big")` and the little-endian forms reverse the bytes;
* `Bytes.hex` is `bytes.hex()` (two lower-case digits per byte) and `Bytes.fromhex` is
  `bytes.fromhex`, which skips ASCII whitespace before each byte and accepts either case.

The round trip `fromBytes_bytesBE` makes `toBytes` injective on its range (`toBytes_inj`); the
other round trip `bytesBE_fromBytes` gives back bytes read as a number and written at their own
length; and `fromhex_hex` is the round trip of the hexadecimal text form. -/

namespace AvailabilityCommittee

/-- A Python `bytes` value. -/
abbrev Bytes := List UInt8

/-- The ASCII bytes of a text, as in `"…".encode("ascii")`. -/
def asciiBytes (text : String) : Bytes := text.toList.map fun c => UInt8.ofNat c.toNat

/-- `HASH_BYTES`: every hash of the fact storage is 32 bytes long. -/
def hashBytes : Nat := 32

/-! ### Integers as bytes -/

/-- The `length` low bytes of `v`, most significant first. -/
def bytesBE : Nat → Nat → Bytes
  | 0, _ => []
  | n + 1, v => bytesBE n (v / 256) ++ [UInt8.ofNat (v % 256)]

/-- `int.from_bytes(data, "big")`. -/
def fromBytes (data : Bytes) : Nat := data.foldl (fun acc b => acc * 256 + b.toNat) 0

/-- `to_bytes(value, length)` (big endian): raises `OverflowError` outside `[0, 256 ^ length)`. -/
def toBytes (value : Int) (length : Nat) : Except String Bytes :=
  if value < 0 then .error "can't convert negative int to unsigned"
  else if value < 256 ^ length then .ok (bytesBE length value.toNat)
  else .error "int too big to convert"

/-- `to_bytes(value)`, with the default length `HASH_BYTES`. -/
def toHashBytes (value : Int) : Except String Bytes := toBytes value hashBytes

@[simp] theorem length_bytesBE (n v : Nat) : (bytesBE n v).length = n := by
  induction n generalizing v with
  | zero => rfl
  | succ n ih => simp [bytesBE, ih]

theorem fromBytes_append_singleton (data : Bytes) (b : UInt8) :
    fromBytes (data ++ [b]) = fromBytes data * 256 + b.toNat := by
  simp [fromBytes, List.foldl_append]

theorem ofNat_toNat (b : UInt8) : UInt8.ofNat b.toNat = b :=
  UInt8.toNat.inj (UInt8.toNat_ofNat_of_lt b.toNat_lt_size)

theorem toNat_ofNat_mod (v : Nat) : (UInt8.ofNat (v % 256)).toNat = v % 256 := by
  simp [UInt8.toNat, UInt8.ofNat, Fin.ofNat, Nat.mod_mod]

/-- Reading back the `n` bytes of `v` gives `v` modulo `256 ^ n`. -/
theorem fromBytes_bytesBE (n v : Nat) : fromBytes (bytesBE n v) = v % 256 ^ n := by
  induction n generalizing v with
  | zero => simp [bytesBE, fromBytes, Nat.mod_one]
  | succ n ih =>
    rw [bytesBE, fromBytes_append_singleton, ih, toNat_ofNat_mod, pow_succ,
      Nat.mul_comm (256 ^ n), @Nat.mod_mul 256 (256 ^ n) v]
    ring

theorem bytesBE_inj {n v w : Nat} (hv : v < 256 ^ n) (hw : w < 256 ^ n)
    (h : bytesBE n v = bytesBE n w) : v = w := by
  have := congrArg fromBytes h
  rwa [fromBytes_bytesBE, fromBytes_bytesBE, Nat.mod_eq_of_lt hv, Nat.mod_eq_of_lt hw] at this

theorem fromBytes_lt (data : Bytes) : fromBytes data < 256 ^ data.length := by
  induction data using List.reverseRecOn with
  | nil => simp [fromBytes]
  | append_singleton init b ih =>
    have hb : b.toNat < 256 := b.toNat_lt_size
    rw [fromBytes_append_singleton, List.length_append, List.length_singleton, pow_succ]
    omega

theorem length_of_toBytes {value : Int} {length : Nat} {data : Bytes}
    (h : toBytes value length = .ok data) : data.length = length := by
  unfold toBytes at h
  split_ifs at h
  cases h
  exact length_bytesBE _ _

/-- Reading bytes as a number and writing the number back at the same length gives the bytes. -/
theorem bytesBE_fromBytes (data : Bytes) : bytesBE data.length (fromBytes data) = data := by
  induction data using List.reverseRecOn with
  | nil => rfl
  | append_singleton init b ih =>
    have hb : b.toNat < 256 := b.toNat_lt_size
    rw [List.length_append, List.length_singleton, bytesBE, fromBytes_append_singleton,
      show (fromBytes init * 256 + b.toNat) / 256 = fromBytes init by omega,
      show (fromBytes init * 256 + b.toNat) % 256 = b.toNat by omega, ih, ofNat_toNat]

theorem toBytes_of_lt {value : Int} {length : Nat} (h0 : 0 ≤ value) (h : value < 256 ^ length) :
    toBytes value length = .ok (bytesBE length value.toNat) := by
  simp [toBytes, not_lt.mpr h0, h]

/-- `to_bytes` is injective: two integers with the same encoding are equal. -/
theorem toBytes_inj {v w : Int} {length : Nat} {data : Bytes} (hv : toBytes v length = .ok data)
    (hw : toBytes w length = .ok data) : v = w := by
  unfold toBytes at hv hw
  split_ifs at hv hw with hv0 hv1 hw0 hw1
  have e : ((256 ^ length : Nat) : Int) = 256 ^ length := by push_cast; rfl
  have hv' : v.toNat < 256 ^ length := by omega
  have hw' : w.toNat < 256 ^ length := by omega
  have := bytesBE_inj hv' hw' (Except.ok.inj (hv.trans hw.symm))
  omega

/-! ### Hexadecimal text -/

/-- The lower-case hexadecimal digit of `d < 16`. -/
def hexDigit (d : Nat) : Char := if d < 10 then Char.ofNat (48 + d) else Char.ofNat (87 + d)

/-- The value of a hexadecimal digit of either case. -/
def hexValue (c : Char) : Option Nat :=
  if '0' ≤ c ∧ c ≤ '9' then some (c.toNat - 48)
  else if 'a' ≤ c ∧ c ≤ 'f' then some (c.toNat - 87)
  else if 'A' ≤ c ∧ c ≤ 'F' then some (c.toNat - 55)
  else none

/-- The two digits of one byte. -/
def byteHex (b : UInt8) : List Char := [hexDigit (b.toNat / 16), hexDigit (b.toNat % 16)]

/-- `bytes.hex()`. -/
def Bytes.hex (data : Bytes) : String := ⟨data.flatMap byteHex⟩

/-- ASCII whitespace, which `bytes.fromhex` skips between bytes. -/
def isAsciiSpace (c : Char) : Bool :=
  c = ' ' ∨ c = '\t' ∨ c = '\n' ∨ c = '\r' ∨ c = '\x0b' ∨ c = '\x0c'

/-- The bytes of a digit string; whitespace is skipped before each byte. -/
def fromhexChars : List Char → Except String Bytes
  | [] => .ok []
  | [c] => if isAsciiSpace c then .ok [] else .error "non-hexadecimal number found in fromhex() arg"
  | c :: d :: rest =>
    if isAsciiSpace c then fromhexChars (d :: rest)
    else match hexValue c, hexValue d with
      | some x, some y => (UInt8.ofNat (16 * x + y) :: ·) <$> fromhexChars rest
      | _, _ => .error "non-hexadecimal number found in fromhex() arg"

/-- `bytes.fromhex(text)`. -/
def Bytes.fromhex (text : String) : Except String Bytes := fromhexChars text.data

theorem hexValue_hexDigit : ∀ d < 16, hexValue (hexDigit d) = some d := by decide

theorem isAsciiSpace_hexDigit : ∀ d < 16, isAsciiSpace (hexDigit d) = false := by decide

theorem ofNat_hex_digits (b : UInt8) : UInt8.ofNat (16 * (b.toNat / 16) + b.toNat % 16) = b := by
  rw [Nat.div_add_mod, ofNat_toNat]

theorem fromhexChars_flatMap_byteHex (data : Bytes) :
    fromhexChars (data.flatMap byteHex) = .ok data := by
  induction data with
  | nil => rfl
  | cons b data ih =>
    have h1 : b.toNat / 16 < 16 := by have := b.toNat_lt_size; simp only [UInt8.size] at this; omega
    have h2 : b.toNat % 16 < 16 := Nat.mod_lt _ (by norm_num)
    rw [List.flatMap_cons, byteHex, List.cons_append, List.cons_append, List.nil_append]
    simp only [fromhexChars, isAsciiSpace_hexDigit _ h1, hexValue_hexDigit _ h1,
      hexValue_hexDigit _ h2, ofNat_hex_digits, ih]
    rfl

/-- `bytes.fromhex(data.hex()) == data`. -/
theorem fromhex_hex (data : Bytes) : Bytes.fromhex data.hex = .ok data :=
  fromhexChars_flatMap_byteHex data

end AvailabilityCommittee
