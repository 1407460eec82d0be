import Inflection.Text.Basic

/-! # UTF-8, and where bytes depart from it -/

namespace Inflection

namespace Utf8

/-- Why bytes are no text. -/
inductive Reason where
  | invalidStart
  | invalidContinuation
  | unexpectedEnd
deriving DecidableEq, Repr

def Reason.message : Reason → String
  | .invalidStart => "invalid start byte"
  | .invalidContinuation => "invalid continuation byte"
  | .unexpectedEnd => "unexpected end of data"

/-- The longest valid beginning of a sequence that is not valid: its first byte, and the positions
of its first and its last. -/
structure Fault where
  lead : UInt8
  first : Nat
  last : Nat
  reason : Reason
deriving DecidableEq, Repr

def Fault.message (f : Fault) : String :=
  let place :=
    if f.first = f.last then
      let lead := f.lead.toNat
      "byte 0x" ++ String.ofList [Nat.digitChar (lead / 16), Nat.digitChar (lead % 16)] ++
        " in position " ++ toString f.first
    else "bytes in position " ++ toString f.first ++ "-" ++ toString f.last
  "'utf-8' codec can't decode " ++ place ++ ": " ++ f.reason.message

/-- The least and the greatest value of each byte that has to follow a first byte. The second byte
is bounded more closely where a sequence would be too long for its character, would stand for a
surrogate, or would exceed the last character. -/
def continuations (lead : UInt8) : Option (List (UInt8 × UInt8)) :=
  let any : UInt8 × UInt8 := (0x80, 0xbf)
  if lead < 0x80 then some []
  else if lead < 0xc2 then none
  else if lead < 0xe0 then some [any]
  else if lead = 0xe0 then some [(0xa0, 0xbf), any]
  else if lead = 0xed then some [(0x80, 0x9f), any]
  else if lead < 0xf0 then some [any, any]
  else if lead = 0xf0 then some [(0x90, 0xbf), any, any]
  else if lead < 0xf4 then some [any, any, any]
  else if lead = 0xf4 then some [(0x80, 0x8f), any, any]
  else none

/-- The first fault in bytes that start at `position`, inside a sequence that began with `lead` at
`first` and of which the bytes within `owed` are still to come. -/
def faultFrom (lead : UInt8) (first position : Nat) (owed : List (UInt8 × UInt8)) :
    List UInt8 → Option Fault
  | [] => if owed.isEmpty then none else some ⟨lead, first, position - 1, .unexpectedEnd⟩
  | b :: bytes =>
    match owed with
    | [] =>
      match continuations b with
      | none => some ⟨b, position, position, .invalidStart⟩
      | some owed => faultFrom b position (position + 1) owed bytes
    | (least, greatest) :: owed =>
      if least ≤ b ∧ b ≤ greatest then faultFrom lead first (position + 1) owed bytes
      else some ⟨lead, first, position - 1, .invalidContinuation⟩

/-- The first fault in some bytes. -/
def fault? (bytes : ByteArray) : Option Fault := faultFrom 0 0 0 [] bytes.data.toList

def encode (t : Text) : ByteArray := (String.ofList t).toByteArray

/-- How many bytes encode a text. -/
def size (t : Text) : Nat := (encode t).size

/-- The text that some bytes encode, or their first fault. -/
def decode (bytes : ByteArray) : Except Fault Text :=
  match bytes.utf8Decode? with
  | some cs => .ok cs.toList
  | none => .error ((fault? bytes).getD ⟨0, 0, 0, .unexpectedEnd⟩)

@[simp] theorem decode_encode (t : Text) : decode (encode t) = .ok t := by
  simp [decode, encode]

end Utf8

end Inflection
