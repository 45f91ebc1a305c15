import EsotericHost.Catalogue.Basic
import EsotericHost.Catalogue.Builtin

/-!
# The standard catalogue

The four languages that every host knows.
-/

namespace EsotericHost.Catalogue

/-- The built-in languages, with the row that random directions are drawn from. -/
def standard (draw : Nat → Befunge.Direction) : Catalogue Builtin where
  machine := Builtin.machine draw
  languages := [
    ⟨Befunge.name, fun o => (Befunge.build o).map .befunge⟩,
    ⟨Brainfuck.name, fun o => (Brainfuck.build o).map .brainfuck⟩,
    ⟨Element.name, fun o => .ok (.element (Element.build o))⟩,
    ⟨Length.name, fun o => .ok (.length (Length.build o))⟩]

end EsotericHost.Catalogue
