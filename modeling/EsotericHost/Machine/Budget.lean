import EsotericHost.Machine.Fault

/-!
# The step budget

A run may be limited in the number of its instructions. The budget counts the instructions carried
out, across the suspensions of the run, and refuses the first one beyond the limit.
-/

namespace EsotericHost

/-- How many instructions a run may carry out, and how many it has. -/
structure Budget where
  limit : Option Nat
  used : Nat
  deriving Repr, DecidableEq

namespace Budget

/-- The budget of a run that starts. -/
def fresh (limit : Option Nat) : Budget := ⟨limit, 0⟩

/-- Counts one instruction. -/
def charge (b : Budget) : Budget := ⟨b.limit, b.used + 1⟩

/-- The limit, if it has been passed. -/
def exceeded? (b : Budget) : Option Nat :=
  b.limit.filter (· < b.used)

end Budget

end EsotericHost
