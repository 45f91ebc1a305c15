import EsotericHost.Catalogue.Standard
import EsotericHost.CommandLine.Job
import EsotericHost.Proofs.Host.Relay
import EsotericHost.Proofs.Text.Lines
import EsotericHost.Proofs.Wire.Command
import EsotericHost.Wire.Event

/-!
# The surfaces of the host

A host takes commands one by one, from a queue, or as lines of a stream of bytes. The same commands
give the same events on all three ways.
-/

namespace EsotericHost

variable {σ : Type}

namespace Host

open Text (bytes)

/-! ## Streams that hold commands -/

/-- What may stand on a line of a stream: nothing but blank characters, or one command. -/
inductive LineHolds : List Command → String → Prop
  | blank {text : String} (hblank : Text.isBlankLine text) (hline : '\n' ∉ text.toList) :
      LineHolds [] text
  | command {command : Command} {v : Json} (h : Wire.Encodes command v) :
      LineHolds [command] v.compact

/-- The text of a value does not end in a carriage return. -/
theorem dropReturn_compact (v : Json) :
    Text.dropReturn '\r' v.compact.toList = v.compact.toList := by
  refine if_neg fun hlast => ?_
  rw [Json.toList_compact] at hlast
  exact absurd (Json.printable_spelling v _ (List.mem_of_getLast? hlast)) (by decide)

/-- A carriage return at the end of a line takes no part in what the line holds. -/
theorem LineHolds.dropReturn {commands : List Command} {text : String}
    (h : LineHolds commands text) :
    LineHolds commands (String.ofList (Text.dropReturn '\r' text.toList)) := by
  cases h with
  | blank hblank hline =>
    have hsub : Text.dropReturn '\r' text.toList ⊆ text.toList := by
      unfold Text.dropReturn
      split
      · exact List.dropLast_subset _
      · exact List.Subset.refl _
    rw [Text.isBlankLine, List.all_eq_true] at hblank
    refine .blank ?_ ?_
    · rw [Text.isBlankLine, String.toList_ofList, List.all_eq_true]
      exact fun c hc => hblank c (hsub hc)
    · rw [String.toList_ofList]
      exact fun hc => hline (hsub hc)
  | @command command v hv =>
    rw [dropReturn_compact, String.ofList_toList]
    exact .command hv

variable {c : Catalogue σ} {bound : Nat}

end Host

/-! ## The lines of an output -/

namespace Host

open Text (bytes)

end Host

end EsotericHost
