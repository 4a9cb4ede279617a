import Routing.Utf8

/-! Percent escapes: a byte is written `%` and two upper-case hexadecimal digits. Encoding keeps
the characters of a safe set and escapes every byte of all others. -/

namespace Routing.Percent

def hexValue? (c : Char) : Option Nat :=
  if '0' ≤ c ∧ c ≤ '9' then some (c.toNat - '0'.toNat)
  else if 'a' ≤ c ∧ c ≤ 'f' then some (c.toNat - 'a'.toNat + 10)
  else if 'A' ≤ c ∧ c ≤ 'F' then some (c.toNat - 'A'.toNat + 10)
  else none

def isHex (c : Char) : Bool := (hexValue? c).isSome

def hexDigit (n : Nat) : Char :=
  if n < 10 then Char.ofNat ('0'.toNat + n) else Char.ofNat ('A'.toNat + (n - 10))

def escapeByte (b : UInt8) : Text := ['%', hexDigit (b.toNat / 16), hexDigit (b.toNat % 16)]

def escapeChar (c : Char) : Text := (String.utf8EncodeChar c).flatMap escapeByte

def encodeWith (safe : Char → Bool) (s : Text) : Text :=
  s.flatMap fun c => if safe c then [c] else escapeChar c

/-- ASCII letters and digits and a few marks stand for themselves in any part of an address. -/
def componentSafe (c : Char) : Bool :=
  c.isAlphanum || ['-', '_', '.', '!', '~', '*', '\x27', '(', ')'].contains c

/-- A path segment keeps the delimiters that have no meaning inside a segment as well. -/
def segmentSafe (c : Char) : Bool :=
  componentSafe c || ['$', '&', '+', ',', ';', '=', ':', '@'].contains c

def encodeComponent (s : Text) : Text := encodeWith componentSafe s

def encodeSegment (s : Text) : Text := encodeWith segmentSafe s

end Routing.Percent
