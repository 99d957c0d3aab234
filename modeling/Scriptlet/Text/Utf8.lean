/-!
# Decoding UTF-8

Decoding stops at the first byte sequence that is not the shortest
encoding of a character, and reports which bytes are at fault and why: a
byte that cannot start a character, a sequence cut short by the end of the
data, or a byte that cannot continue the sequence before it.
-/

namespace Scriptlet.Text.Utf8

inductive Reason where
  | startByte
  | endOfData
  | continuation
  deriving Repr, DecidableEq

def Reason.message : Reason → String
  | .startByte => "invalid start byte"
  | .endOfData => "unexpected end of data"
  | .continuation => "invalid continuation byte"

/-- The faulty bytes are the `length` ones from offset `start`, the first
of which is `byte`. -/
structure Fault where
  byte : UInt8
  start : Nat
  length : Nat
  reason : Reason
  deriving Repr, DecidableEq

def showByte (b : UInt8) : String :=
  let digits := Nat.toDigits 16 b.toNat
  "0x" ++ String.ofList (List.replicate (2 - digits.length) '0' ++ digits)

def Fault.message (f : Fault) : String :=
  let place :=
    if f.length = 1 then
      s!"byte {showByte f.byte} in position {f.start}"
    else
      s!"bytes in position {f.start}-{f.start + f.length - 1}"
  s!"'utf-8' codec can't decode {place}: {f.reason.message}"

/-- The number of continuation bytes that a start byte calls for, with
the least and the greatest value of the first of them. The narrower
bounds keep out over-long forms, surrogates and values past U+10FFFF. -/
def follow? (b : UInt8) : Option (Nat × UInt8 × UInt8) :=
  if b < 0x80 then some (0, 0x80, 0xBF)
  else if b < 0xC2 then none
  else if b < 0xE0 then some (1, 0x80, 0xBF)
  else if b < 0xF0 then
    some (2, if b = 0xE0 then 0xA0 else 0x80, if b = 0xED then 0x9F else 0xBF)
  else if b < 0xF5 then
    some (3, if b = 0xF0 then 0x90 else 0x80, if b = 0xF4 then 0x8F else 0xBF)
  else none

/-- How many of the next `need` bytes are proper continuation bytes, the
first of them within `low` and `high`. -/
def countContinuation : Nat → UInt8 → UInt8 → List UInt8 → Nat
  | 0, _, _, _ => 0
  | _, _, _, [] => 0
  | need + 1, low, high, b :: rest =>
    if low ≤ b && b ≤ high then 1 + countContinuation need 0x80 0xBF rest
    else 0

/-- The character that a start byte and its continuation bytes encode. -/
def assemble (b : UInt8) (tail : List UInt8) : Char :=
  let lead :=
    match tail.length with
    | 0 => b.toNat
    | 1 => b.toNat - 0xC0
    | 2 => b.toNat - 0xE0
    | _ => b.toNat - 0xF0
  Char.ofNat (tail.foldl (fun n t => 64 * n + (t.toNat - 0x80)) lead)

/-- Decodes the bytes from offset `start` on. -/
def decodeFrom (start : Nat) : List UInt8 → Except Fault (List Char)
  | [] => .ok []
  | b :: rest =>
    match follow? b with
    | none => .error ⟨b, start, 1, .startByte⟩
    | some (need, low, high) =>
      let found := countContinuation need low high rest
      if found = need then
        match decodeFrom (start + 1 + need) (rest.drop need) with
        | .ok cs => .ok (assemble b (rest.take need) :: cs)
        | .error f => .error f
      else if rest.length = found then
        .error ⟨b, start, 1 + found, .endOfData⟩
      else .error ⟨b, start, 1 + found, .continuation⟩
termination_by bytes => bytes.length
decreasing_by simp only [List.length_cons, List.length_drop]; omega

def decode (bytes : List UInt8) : Except Fault (List Char) :=
  decodeFrom 0 bytes

end Scriptlet.Text.Utf8
