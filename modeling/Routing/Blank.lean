import Routing.Text

/-! Blank text: the characters with the Unicode property White_Space. -/

namespace Routing

def isWhiteSpace (c : Char) : Bool :=
  ('\u0009' ≤ c && c ≤ '\u000d') || ('\u2000' ≤ c && c ≤ '\u200a') ||
    ['\u0020', '\u0085', '\u00a0', '\u1680', '\u2028', '\u2029', '\u202f', '\u205f',
      '\u3000'].contains c

def Text.isBlank (s : Text) : Bool := s.all isWhiteSpace

end Routing
