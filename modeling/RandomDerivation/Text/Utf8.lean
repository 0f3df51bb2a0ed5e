/-!
# UTF-8

Reading bytes as characters, strictly: no overlong form, no surrogate and nothing above the last
code point is accepted, and the first fault is reported with the bytes it spans. Writing is total.
-/

namespace RandomDerivation.Utf8

/-- A list of bytes, as a file holds it. -/
abbrev Bytes := List UInt8

/-- Why bytes are not the encoding of a character. -/
inductive Reason where
  /-- No character starts with this byte. -/
  | invalidStart
  /-- A byte that cannot continue the character stands where one should. -/
  | invalidContinuation
  /-- The bytes end inside a character. -/
  | unexpectedEnd
  deriving DecidableEq, Repr

/-- The first place where bytes stop being UTF-8: `count` bytes from `start` on, of which the
first is `byte`, begin a character that is not completed. -/
structure Fault where
  reason : Reason
  start : Nat
  count : Nat
  byte : UInt8
  deriving DecidableEq, Repr

/-- The wording of a reason. -/
def Reason.message : Reason → String
  | .invalidStart => "invalid start byte"
  | .invalidContinuation => "invalid continuation byte"
  | .unexpectedEnd => "unexpected end of data"

/-- Two lower case hexadecimal digits. -/
def hexPair (b : UInt8) : String :=
  String.ofList [Nat.digitChar (b.toNat / 16), Nat.digitChar (b.toNat % 16)]

/-- The wording of a fault, which names the byte when there is only one. -/
def Fault.message (f : Fault) : String :=
  let place :=
    if f.count = 1 then "byte 0x" ++ hexPair f.byte ++ " in position " ++ toString f.start
    else "bytes in position " ++ toString f.start ++ "-" ++ toString (f.start + f.count - 1)
  "'utf-8' codec can't decode " ++ place ++ ": " ++ f.reason.message

/-- The last six bits of a byte that continues a character. -/
def payload (b : UInt8) : Nat := b.toNat % 64

/-- Every byte of this range may continue a character. -/
def isContinuation (b : UInt8) : Bool := 0x80 ≤ b && b ≤ 0xBF

/-- What may follow the first byte of a character of three bytes. -/
def isSecondOfThree (first second : UInt8) : Bool :=
  if first = 0xE0 then 0xA0 ≤ second && second ≤ 0xBF
  else if first = 0xED then 0x80 ≤ second && second ≤ 0x9F
  else isContinuation second

/-- What may follow the first byte of a character of four bytes. -/
def isSecondOfFour (first second : UInt8) : Bool :=
  if first = 0xF0 then 0x90 ≤ second && second ≤ 0xBF
  else if first = 0xF4 then 0x80 ≤ second && second ≤ 0x8F
  else isContinuation second

/-- Read bytes of which the first stands at `place`. -/
def decodeFrom (place : Nat) : Bytes → Except Fault (List Char)
  | [] => .ok []
  | a :: rest =>
    let refuse (reason : Reason) (count : Nat) : Except Fault (List Char) :=
      .error ⟨reason, place, count, a⟩
    if a < 0x80 then
      return Char.ofNat a.toNat :: (← decodeFrom (place + 1) rest)
    else if a < 0xC2 ∨ 0xF4 < a then refuse .invalidStart 1
    else if a < 0xE0 then
      match rest with
      | [] => refuse .unexpectedEnd 1
      | b :: rest =>
        if isContinuation b then
          return Char.ofNat (a.toNat % 32 * 64 + payload b) :: (← decodeFrom (place + 2) rest)
        else refuse .invalidContinuation 1
    else if a < 0xF0 then
      match rest with
      | [] => refuse .unexpectedEnd 1
      | b :: rest =>
        if isSecondOfThree a b then
          match rest with
          | [] => refuse .unexpectedEnd 2
          | c :: rest =>
            if isContinuation c then
              return Char.ofNat (a.toNat % 16 * 4096 + payload b * 64 + payload c) ::
                (← decodeFrom (place + 3) rest)
            else refuse .invalidContinuation 2
        else refuse .invalidContinuation 1
    else
      match rest with
      | [] => refuse .unexpectedEnd 1
      | b :: rest =>
        if isSecondOfFour a b then
          match rest with
          | [] => refuse .unexpectedEnd 2
          | c :: rest =>
            if isContinuation c then
              match rest with
              | [] => refuse .unexpectedEnd 3
              | d :: rest =>
                if isContinuation d then
                  return Char.ofNat
                      (a.toNat % 8 * 262144 + payload b * 4096 + payload c * 64 + payload d) ::
                    (← decodeFrom (place + 4) rest)
                else refuse .invalidContinuation 3
            else refuse .invalidContinuation 2
        else refuse .invalidContinuation 1

/-- The characters that bytes encode. -/
def decode (bytes : Bytes) : Except Fault (List Char) := decodeFrom 0 bytes

/-- The bytes that encode characters. -/
def encode (text : List Char) : Bytes := text.flatMap String.utf8EncodeChar

end RandomDerivation.Utf8
