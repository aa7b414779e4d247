import Typewright.Text.Quoted

/-!
# UTF-8

Bytes to text.
-/

namespace Typewright.Text

inductive Utf8Problem where
  | startByte | continuation | endOfData
deriving DecidableEq, Repr

def Utf8Problem.message : Utf8Problem → String
  | .startByte => "invalid start byte"
  | .continuation => "invalid continuation byte"
  | .endOfData => "unexpected end of data"

/-- A part of some bytes that is not UTF-8: the problem, the bytes of the part, and how many bytes were
left at its start. -/
structure Utf8Error where
  problem : Utf8Problem
  bad : List UInt8
  left : Nat
deriving DecidableEq, Repr

def isContinuation (b : UInt8) : Bool :=
  0x80 ≤ b && b ≤ 0xBF

def payload (b : UInt8) : Nat :=
  b.toNat % 64

/-- The least and the greatest byte that may follow a first byte. -/
def secondRange (first : UInt8) : UInt8 × UInt8 :=
  if first = 0xE0 then (0xA0, 0xBF)
  else if first = 0xED then (0x80, 0x9F)
  else if first = 0xF0 then (0x90, 0xBF)
  else if first = 0xF4 then (0x80, 0x8F)
  else (0x80, 0xBF)

def fits (a b : UInt8) : Bool :=
  (secondRange a).1 ≤ b && b ≤ (secondRange a).2

/-- Reads all characters; `acc` holds those read, last first. -/
def decodeFrom (acc : List Char) : List UInt8 → Except Utf8Error (List Char)
  | [] => .ok acc.reverse
  | a :: rest =>
    let fail (problem : Utf8Problem) (bad : List UInt8) : Except Utf8Error (List Char) :=
      .error ⟨problem, bad, rest.length + 1⟩
    if a < 0x80 then decodeFrom (Char.ofNat a.toNat :: acc) rest
    else if a < 0xC2 || 0xF4 < a then fail .startByte [a]
    else
      match rest with
      | [] => fail .endOfData [a]
      | b :: rest =>
        if !fits a b then fail .continuation [a]
        else if a < 0xE0 then
          decodeFrom (Char.ofNat ((a.toNat - 0xC0) * 64 + payload b) :: acc) rest
        else
          match rest with
          | [] => fail .endOfData [a, b]
          | c :: rest =>
            if !isContinuation c then fail .continuation [a, b]
            else if a < 0xF0 then
              let code := ((a.toNat - 0xE0) * 64 + payload b) * 64 + payload c
              decodeFrom (Char.ofNat code :: acc) rest
            else
              match rest with
              | [] => fail .endOfData [a, b, c]
              | d :: rest =>
                if !isContinuation d then fail .continuation [a, b, c]
                else
                  let code := (((a.toNat - 0xF0) * 64 + payload b) * 64 + payload c) * 64 + payload d
                  decodeFrom (Char.ofNat code :: acc) rest

def Utf8Error.message (e : Utf8Error) (place : Nat) : String :=
  let bytes :=
    match e.bad with
    | [b] => "byte 0x" ++ String.ofList (hex 2 b.toNat) ++ " in position " ++ toString place
    | bad => "bytes in position " ++ toString place ++ "-" ++ toString (place + bad.length - 1)
  "'utf-8' codec can't decode " ++ bytes ++ ": " ++ e.problem.message

def joinLineEnds : List Char → List Char
  | '\r' :: '\n' :: rest => '\n' :: joinLineEnds rest
  | '\r' :: rest => '\n' :: joinLineEnds rest
  | c :: rest => c :: joinLineEnds rest
  | [] => []

end Typewright.Text
