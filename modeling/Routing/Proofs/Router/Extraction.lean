import Routing.Proofs.Batch.Extraction
import Routing.Proofs.Router.Agreement

/-! What a resolution extracts. The path as it was sent falls into one piece for each visible segment
of the batch that wins, static pieces are spellings of their text, and the hits hold the values of
the other pieces, whatever the number of stars. -/

namespace Routing

variable {H : Type}

/-- The literal pieces of a pattern have only escapes that are well formed and stand for UTF-8. -/
def Route.Decodable (pattern : Text) : Prop :=
  ∀ p ∈ (pattern.dropLeading '/').splitOn '/', ∀ text, Segment.parse .percent p = .static text →
    Percent.wellFormed p ∧ (Percent.decode? p).isSome

theorem Segment.eq_of_parse_static {n : Normalizer} {p text : Text}
    (h : parse n p = .static text) : text = n.segment p := by
  revert h
  fun_cases parse n p with
  | case1 | case2 | case3 =>
    intro h
    cases h
  | case4 =>
    intro h
    exact (static.inj h).symm

namespace Router

end Router
end Routing
