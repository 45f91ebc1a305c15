/-!
# Faults of a machine

A `Fault` is what a machine refuses or fails with: code that it cannot load, an instruction that
it cannot carry out, or input that it cannot use. `Fault.message` words it for the client.
-/

namespace EsotericHost

/-- Why a call of a machine did not succeed. -/
inductive Fault where
  | badCode (detail : String)
  | runtime (detail : String)
  | underflow (place : String)
  | badInput (detail : String)
  | stepLimit (limit : Nat)
  | notSuspended
  deriving Repr, DecidableEq

/-- The wording of a fault. -/
def Fault.message : Fault → String
  | badCode detail => s!"syntax error: {detail}"
  | runtime detail => s!"runtime error: {detail}"
  | underflow place => s!"stack underflow at {place}"
  | badInput detail => s!"invalid input: {detail}"
  | stepLimit limit => s!"step limit of {limit} exceeded"
  | notSuspended => "interpreter is not awaiting input"

end EsotericHost
