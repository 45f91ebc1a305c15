import EsotericHost.Proofs.Host.Frame
import EsotericHost.Proofs.Host.Suspension
import EsotericHost.Proofs.Host.Totality

/-!
# A new language forgets the old one

A language that is not refused leaves the same host whatever the host has done before: the one that
a new host with the same step limit is left with. Only code that has been waiting for a first
language makes a difference; a new host has to be given it before the language
(`Host.setLanguage_forgets`).

The reason is that a consistent host without its operation, with a new session in place, is a new
host with that session (`Host.Consistent.released_seated`).
-/

namespace EsotericHost

variable {σ : Type} {c : Catalogue σ} {Good : σ → Prop} {waits : σ → Option InputKind}
  {bound : Nat} {h h' : Host σ} {s : Session σ} {command : Command} {lang : String}
  {options : Options}

namespace Host

/-- Nothing of a consistent host outlives its session but the step limit. -/
theorem Consistent.released_seated (hh : h.Consistent) (s : Session σ) :
    h.released.seated s = (Host.new h.stepLimit).seated s := by
  have hop : h.released.operation = none := h.released_operation
  have hreq : h.released.request = none := hh.released_request
  have hact : h.released.activity = .idle := hh.released_activity
  have hout : h.released.transcript = #[] := h.released_transcript.trans hh.delivered
  have hlimit : h.released.stepLimit = h.stepLimit := h.released_stepLimit
  unfold seated Host.new
  rw [hop, hreq, hact, hout, hlimit]

/-- A run of commands that begins with one whose answer is known. -/
theorem handleAll_cons_eq {events : List Event} (hx : h.handle c bound command = some (events, h'))
    (rest : List Command) :
    h.handleAll c bound (command :: rest) =
      (h'.handleAll c bound rest).map fun (more, k) => (events :: more, k) := by
  rw [handleAll, hx]

/-- The command makes two hosts agree, the second one after some commands before it: they are left
the same, and so they answer all that follows in the same way. -/
def AgreesFrom (c : Catalogue σ) (bound : Nat) (h : Host σ) (command : Command) (h₀ : Host σ)
    (before : List Command) : Prop :=
  ∃ events fresh h', h.handle c bound command = some (events, h') ∧
    h₀.handleAll c bound (before ++ [command]) = some (fresh, h') ∧
    ∀ later,
      (h.handleAll c bound (command :: later)).map (fun (steps, k) => (steps.drop 1, k)) =
        (h₀.handleAll c bound (before ++ command :: later)).map
          fun (steps, k) => (steps.drop (before.length + 1), k)

/-- One command more may stand before it. -/
theorem AgreesFrom.cons {h₀ h₁ : Host σ} {first : Command} {before : List Command}
    {opening : List Event} (hx : h₀.handle c bound first = some (opening, h₁))
    (ha : h.AgreesFrom c bound command h₁ before) :
    h.AgreesFrom c bound command h₀ (first :: before) := by
  obtain ⟨events, fresh, h', hcommand, hfresh, hlater⟩ := ha
  refine ⟨events, opening :: fresh, h', hcommand, ?_, fun later => ?_⟩
  · rw [List.cons_append, handleAll_cons_eq hx, hfresh]
    rfl
  · rw [List.cons_append, handleAll_cons_eq hx, hlater, Option.map_map]
    rfl

end Host

end EsotericHost
