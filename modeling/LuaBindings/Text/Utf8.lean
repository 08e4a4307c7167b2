/-!
# Reading bytes as UTF-8

Decoding is strict. A byte that starts no sequence, a byte that cannot continue
the sequence it stands in, and a text that ends inside a sequence are three
different faults, and each is placed at the first byte of its sequence. Surrogates,
overlong forms and code points above U+10FFFF show at the second byte.
-/

set_option autoImplicit false

namespace LuaBindings.Text

inductive Utf8Fault where
  | startByte
  | continuationByte
  | endOfData
  deriving DecidableEq, Repr

def Utf8Fault.message : Utf8Fault → String
  | startByte => "invalid start byte"
  | continuationByte => "invalid continuation byte"
  | endOfData => "unexpected end of data"

namespace Utf8

/-- What a first byte announces: its payload, the range of the second byte, and
how many further bytes follow that one. -/
structure Lead where
  payload : Nat
  low : Nat
  high : Nat
  further : Nat

def lead? (b : Nat) : Option Lead :=
  if b < 0xC2 then none
  else if b < 0xE0 then some ⟨b - 0xC0, 0x80, 0xBF, 0⟩
  else if b = 0xE0 then some ⟨0, 0xA0, 0xBF, 1⟩
  else if b = 0xED then some ⟨0xD, 0x80, 0x9F, 1⟩
  else if b < 0xF0 then some ⟨b - 0xE0, 0x80, 0xBF, 1⟩
  else if b = 0xF0 then some ⟨0, 0x90, 0xBF, 2⟩
  else if b < 0xF4 then some ⟨b - 0xF0, 0x80, 0xBF, 2⟩
  else if b = 0xF4 then some ⟨4, 0x80, 0x8F, 2⟩
  else none

def further : Nat → Nat → List UInt8 → Except Utf8Fault (Nat × List UInt8)
  | 0, value, bytes => .ok (value, bytes)
  | _ + 1, _, [] => .error .endOfData
  | n + 1, value, b :: bytes =>
    if 0x80 ≤ b.toNat ∧ b.toNat ≤ 0xBF then further n (value * 64 + (b.toNat - 0x80)) bytes
    else .error .continuationByte

def sequence (first : UInt8) (bytes : List UInt8) : Except Utf8Fault (Nat × List UInt8) :=
  if first.toNat < 0x80 then .ok (first.toNat, bytes)
  else
    match lead? first.toNat with
    | none => .error .startByte
    | some lead =>
      match bytes with
      | [] => .error .endOfData
      | b :: bytes =>
        if lead.low ≤ b.toNat ∧ b.toNat ≤ lead.high then
          further lead.further (lead.payload * 64 + (b.toNat - 0x80)) bytes
        else .error .continuationByte

theorem further_length {n value : Nat} {bytes : List UInt8} {r : Nat × List UInt8}
    (h : further n value bytes = .ok r) : r.2.length ≤ bytes.length := by
  fun_induction further n value bytes with
  | case1 =>
    cases h
    exact Nat.le_refl _
  | case2 => cases h
  | case3 n value b bytes _ ih => exact Nat.le_succ_of_le (ih h)
  | case4 => cases h

theorem sequence_length {first : UInt8} {bytes : List UInt8} {r : Nat × List UInt8}
    (h : sequence first bytes = .ok r) : r.2.length ≤ bytes.length := by
  unfold sequence at h
  split at h
  · cases h
    exact Nat.le_refl _
  · split at h
    · cases h
    · split at h
      · cases h
      · split at h
        · exact Nat.le_succ_of_le (further_length h)
        · cases h

/-- The characters of the bytes from the given offset on, or the first fault with
the offset of its sequence. -/
def decodeFrom (offset : Nat) (bytes : List UInt8) : Except (Utf8Fault × Nat) (List Char) :=
  match bytes with
  | [] => .ok []
  | first :: bytes =>
    match h : sequence first bytes with
    | .error fault => .error (fault, offset)
    | .ok (value, rest) =>
      have : rest.length ≤ bytes.length := sequence_length h
      match decodeFrom (offset + 1 + (bytes.length - rest.length)) rest with
      | .error fault => .error fault
      | .ok text => .ok (Char.ofNat value :: text)
termination_by bytes.length
decreasing_by
  simp only [List.length_cons]
  omega

def decode (bytes : List UInt8) : Except (Utf8Fault × Nat) (List Char) :=
  decodeFrom 0 bytes

/-- A carriage return, with the line feed after it if there is one, becomes a
line feed. -/
def unifyLineEnds : List Char → List Char
  | [] => []
  | '\r' :: '\n' :: rest => '\n' :: unifyLineEnds rest
  | c :: rest => (if c = '\r' then '\n' else c) :: unifyLineEnds rest

end Utf8
end LuaBindings.Text
