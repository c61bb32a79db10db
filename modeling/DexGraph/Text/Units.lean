import DexGraph.Text.Scan

/-!
# UTF-16 and UTF-8 text that may be damaged

Strings of an image are sequences of UTF-16 units in which surrogates may stand alone, and the
version of an image is three bytes that may be anything. This file turns both into strings: what
is no character becomes U+FFFD. `unitsOfString` goes the other way.
-/

namespace DexGraph.Text

/-- The character that stands for whatever cannot be read. -/
def replacement : Char := '\uFFFD'

/-! ## UTF-16 -/

/-- Whether a unit opens a pair of surrogates. -/
def isHighSurrogate (u : UInt16) : Bool :=
  u &&& 0xFC00 == 0xD800

/-- Whether a unit closes a pair of surrogates. -/
def isLowSurrogate (u : UInt16) : Bool :=
  u &&& 0xFC00 == 0xDC00

/-- The UTF-16 units of a character. -/
def unitsOfChar (c : Char) : List UInt16 :=
  let n := c.toNat
  if n < 0x10000 then [n.toUInt16]
  else
    let m := n - 0x10000
    [(0xD800 + m / 0x400).toUInt16, (0xDC00 + m % 0x400).toUInt16]

/-- The UTF-16 units of a string. -/
def unitsOfString (text : String) : List UInt16 :=
  text.toList.flatMap unitsOfChar

/-- The character of a pair of surrogates. -/
def charOfPair (high low : UInt16) : Char :=
  Char.ofNat (0x10000 + (high.toNat - 0xD800) * 0x400 + (low.toNat - 0xDC00))

/-- The character that starts with a unit, and how many of the following units belong to it. A
surrogate that stands alone becomes U+FFFD. -/
def charOfUnits (u : UInt16) (rest : List UInt16) : Char × Nat :=
  if isHighSurrogate u then
    match rest with
    | v :: _ => if isLowSurrogate v then (charOfPair u v, 1) else (replacement, 0)
    | [] => (replacement, 0)
  else if isLowSurrogate u then (replacement, 0)
  else (Char.ofNat u.toNat, 0)

/-- The string of a sequence of units; a surrogate that stands alone becomes U+FFFD. -/
def stringOfUnits (units : List UInt16) : String :=
  String.ofList (scan charOfUnits units)

/-! ## UTF-8 -/

/-- Whether a byte continues a sequence of several bytes. -/
def isContinuation (b : UInt8) : Bool :=
  b &&& 0xC0 == 0x80

/-- The number of bytes of the sequence that a byte opens, and the range in which the second
byte of it must lie; `none` for a byte that opens nothing. -/
def sequenceOf? (first : UInt8) : Option (Nat × UInt8 × UInt8) :=
  if 0xC2 ≤ first && first ≤ 0xDF then some (2, 0x80, 0xBF)
  else if first == 0xE0 then some (3, 0xA0, 0xBF)
  else if first == 0xED then some (3, 0x80, 0x9F)
  else if 0xE1 ≤ first && first ≤ 0xEF then some (3, 0x80, 0xBF)
  else if first == 0xF0 then some (4, 0x90, 0xBF)
  else if 0xF1 ≤ first && first ≤ 0xF3 then some (4, 0x80, 0xBF)
  else if first == 0xF4 then some (4, 0x80, 0x8F)
  else none

/-- The payload of a continuation byte below the bits read so far. -/
def extend (bits : Nat) (b : UInt8) : Nat :=
  bits * 64 + (b &&& 0x3F).toNat

/-- The character that starts with a byte, and how many of the following bytes belong to it. The
longest beginning of a sequence that does not go on as it should becomes one U+FFFD, and so does
a byte that opens no sequence. -/
def charOfUtf8 (b : UInt8) (rest : List UInt8) : Char × Nat :=
  if b < 0x80 then (Char.ofNat b.toNat, 0)
  else
    match sequenceOf? b, rest with
    | none, _ | some _, [] => (replacement, 0)
    | some (width, low, high), c :: rest =>
      if !(low ≤ c && c ≤ high) then (replacement, 0)
      else if width == 2 then (Char.ofNat (extend (b &&& 0x1F).toNat c), 1)
      else
        match rest with
        | [] => (replacement, 1)
        | d :: rest =>
          if !isContinuation d then (replacement, 1)
          else if width == 3 then (Char.ofNat (extend (extend (b &&& 0x0F).toNat c) d), 2)
          else
            match rest with
            | [] => (replacement, 2)
            | e :: _ =>
              if !isContinuation e then (replacement, 2)
              else (Char.ofNat (extend (extend (extend (b &&& 0x07).toNat c) d) e), 3)

/-- The string of a byte string; what is no UTF-8 becomes U+FFFD. -/
def stringOfUtf8 (bytes : List UInt8) : String :=
  String.ofList (scan charOfUtf8 bytes)

end DexGraph.Text
