import Routing.Toml.Lexical
import Routing.Toml.Table

/-! TOML numbers. Integers fit 64 bits with sign. Other numbers keep their text, but one that would
be rounded up to infinity is refused. -/

namespace Routing.Toml

def digits? (base : Nat) (s : Text) : Option Nat :=
  if (s.splitOn '_').any (·.isEmpty) then none
  else (s.filter (· != '_')).foldlM (fun n c =>
    (Percent.hexValue? c).bind fun x => if x < base then some (base * n + x) else none) 0

/-- Digits without a superfluous zero in front. -/
def decimal? (s : Text) : Option Nat :=
  if s.head? = some '0' && 1 < s.length then none else digits? 10 s

def signed : Text → Bool × Text
  | '-' :: s => (true, s)
  | '+' :: s => (false, s)
  | s => (false, s)

def negateIf (negative : Bool) (n : Nat) : Int := if negative then -(n : Int) else n

/-- The least power of two that a signed 64-bit integer cannot hold. -/
def integerBound : Nat := Nat.pow 2 63

def integer? (negative : Bool) (n : Nat) : Option Node :=
  if n < integerBound ∨ (negative ∧ n = integerBound) then some (.integer (negateIf negative n))
  else none

/-- Half a unit above the largest finite double. -/
def infinityBound : Nat := (Nat.pow 2 54 - 1) * Nat.pow 2 970

/-- Whether `m · 10 ^ e` is rounded to infinity as a double. Numbers far from the bound are told by
their order of magnitude. -/
def roundsToInfinity (m : Nat) (e : Int) : Bool :=
  let magnitude := ((Nat.toDigits 10 m).length : Int) + e
  if m = 0 ∨ magnitude < 309 then false
  else if 309 < magnitude then true
  else decide (infinityBound * Nat.pow 10 (-e).toNat ≤ m * Nat.pow 10 e.toNat)

def fraction? : Option Text → Option (Nat × Nat)
  | none => some (0, 0)
  | some s => (digits? 10 s).map fun n => (n, (s.filter (· != '_')).length)

def exponent? : Option Text → Option Int
  | none => some 0
  | some s => (digits? 10 (signed s).2).map (negateIf (signed s).1)

/-- A fraction, an exponent, or both behind the digits of an integer. -/
def float? (literal : Text) (negative : Bool) (s : Text) : Option Node := do
  let (mantissa, exponent) := s.cut 'e'
  let (whole, fraction) := mantissa.cut '.'
  let w ← decimal? whole
  let (f, places) ← fraction? fraction
  let e ← exponent? exponent
  if fraction.isNone && exponent.isNone then none
  else if !negative && roundsToInfinity (w * Nat.pow 10 places + f) (e - places) then none
  else some (.float literal)

def number? (s : Text) : Option Node :=
  match s with
  | '0' :: 'x' :: s => (digits? 16 s).bind (integer? false)
  | '0' :: 'o' :: s => (digits? 8 s).bind (integer? false)
  | '0' :: 'b' :: s => (digits? 2 s).bind (integer? false)
  | s =>
    let (negative, body) := signed s
    if body = ['i', 'n', 'f'] ∨ body = ['n', 'a', 'n'] then some (.float s)
    else match decimal? body with
      | some n => integer? negative n
      | none => float? s negative (body.map fun c => if c == 'E' then 'e' else c)

end Routing.Toml
