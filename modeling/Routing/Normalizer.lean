import Routing.Percent.Decode

/-! Normalizers: the form in which static text of patterns and incoming paths are compared. -/

namespace Routing

/-- A rule for one segment, and one for a whole path that by default goes segment by segment. -/
structure Normalizer where
  segment : Text → Text
  path : Text → Text := fun p => ['/'].intercalate ((p.splitOn '/').map segment)

namespace Normalizer

/-- Writes `%` and `/` as escapes and all else as it is. -/
def protect (s : Text) : Text :=
  s.flatMap fun c => if c = '%' then ['%', '2', '5'] else if c = '/' then ['%', '2', 'F'] else [c]

/-- Decodes all escapes except those of `%` and `/`. A segment that is malformed or does not
decode to UTF-8 stays as it is. -/
def decodeSegment (s : Text) : Text :=
  if s.contains '%' && Percent.wellFormed s then ((Percent.decode? s).map protect).getD s else s

def percent : Normalizer := { segment := decodeSegment }

def identity : Normalizer := { segment := id, path := id }

def substitute (f : Char → Text) : Normalizer := { segment := fun s => s.flatMap f }

end Normalizer
end Routing
