/-! UTF-8. Decoding accepts the well-formed byte sequences only; what comes before the first fault
counts as valid, and the count of those bytes is the answer when there is one. -/

namespace UnitMatrix

namespace Utf8

def encode (text : List Char) : List UInt8 :=
  text.flatMap String.utf8EncodeChar

def isContinuation (b : UInt8) : Bool := 0x80 ≤ b && b ≤ 0xBF

/-- The second byte of three: no longer forms of shorter characters, no surrogates. -/
def isSecondOfThree (a b : UInt8) : Bool :=
  if a = 0xE0 then 0xA0 ≤ b && b ≤ 0xBF
  else if a = 0xED then 0x80 ≤ b && b ≤ 0x9F
  else isContinuation b

/-- The second byte of four: nothing below the first and nothing above the last code point. -/
def isSecondOfFour (a b : UInt8) : Bool :=
  if a = 0xF0 then 0x90 ≤ b && b ≤ 0xBF
  else if a = 0xF4 then 0x80 ≤ b && b ≤ 0x8F
  else isContinuation b

def payload (b : UInt8) : Nat := b.toNat % 64

/-- Decoding after `valid` bytes; an error is the number of valid bytes. -/
def decodeFrom (valid : Nat) : List UInt8 → Except Nat (List Char)
  | [] => .ok []
  | a :: as =>
    if a < 0x80 then
      (decodeFrom (valid + 1) as).map (Char.ofNat a.toNat :: ·)
    else match as with
      | [] => .error valid
      | b :: bs =>
        if 0xC2 ≤ a && a ≤ 0xDF then
          if isContinuation b then
            (decodeFrom (valid + 2) bs).map (Char.ofNat (a.toNat % 32 * 64 + payload b) :: ·)
          else .error valid
        else match bs with
          | [] => .error valid
          | c :: cs =>
            if 0xE0 ≤ a && a ≤ 0xEF then
              if isSecondOfThree a b && isContinuation c then
                (decodeFrom (valid + 3) cs).map
                  (Char.ofNat ((a.toNat % 16 * 64 + payload b) * 64 + payload c) :: ·)
              else .error valid
            else match cs with
              | [] => .error valid
              | d :: ds =>
                if 0xF0 ≤ a && a ≤ 0xF4 && isSecondOfFour a b && isContinuation c &&
                    isContinuation d then
                  (decodeFrom (valid + 4) ds).map
                    (Char.ofNat (((a.toNat % 8 * 64 + payload b) * 64 + payload c) * 64 +
                      payload d) :: ·)
                else .error valid

def decode (bytes : List UInt8) : Except Nat (List Char) :=
  decodeFrom 0 bytes

end Utf8

end UnitMatrix
