/-! The versions of the stream format. Each adds opcodes to the one before. -/

namespace PickleTrial

structure Protocol where
  version : Nat
  supported : version ≤ 5
deriving DecidableEq

namespace Protocol

def lowest : Nat := 0

def highest : Nat := 5

def of? (version : Nat) : Option Protocol :=
  if supported : version ≤ 5 then some ⟨version, supported⟩ else none

def all : List Protocol :=
  (List.range 6).filterMap of?

theorem mem_all (protocol : Protocol) : protocol ∈ all := by
  obtain ⟨version, supported⟩ := protocol
  refine List.mem_filterMap.2 ⟨version, List.mem_range.2 (by omega), ?_⟩
  simp [of?, supported]

end Protocol

end PickleTrial
