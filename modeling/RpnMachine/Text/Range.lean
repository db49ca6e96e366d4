/-! Sets of characters given by ranges of code points. -/
namespace RpnMachine.Text

/-- Inclusive ranges of code points, in ascending order. -/
abbrev Ranges := List (Nat × Nat)

def Ranges.has (rs : Ranges) (c : Char) : Bool :=
  rs.any fun r => r.1 ≤ c.toNat && c.toNat ≤ r.2

theorem Ranges.has_iff {rs : Ranges} {c : Char} :
    rs.has c = true ↔ ∃ r ∈ rs, r.1 ≤ c.toNat ∧ c.toNat ≤ r.2 := by
  simp [Ranges.has]

end RpnMachine.Text
