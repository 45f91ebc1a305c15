import EsotericHost.Befunge.Machine
import EsotericHost.Length.Machine
import EsotericHost.Proofs.Brainfuck.Minify
import EsotericHost.Proofs.Element.Displacement
import EsotericHost.Proofs.Text.Endings

/-!
# Sources with other line endings

A source may end its lines with a line feed alone or with a carriage return before it. The line
machine and the playfield machine cut a source into lines and take the carriage returns off, each in
a way of its own, so they load the same program. For the tape machine a carriage return is a
comment, and for the token machine it is blank; there it moves what follows it in the source and
does nothing else. So no machine tells such sources apart but by the places that its failures
mention (`exchanges_of_returned`).
-/

namespace EsotericHost

open Text

/-- The line machine measures the same lines, with comments or without. -/
theorem Length.load_returned {source : String} (hsource : '\r' ∉ source.toList) :
    Length.machine.load (returned source) = Length.machine.load source := by
  have hload : Length.load (returned source) = Length.load source := by
    unfold Length.load
    simp only [toList_returned, lengths_withReturns _ hsource]
  exact congrArg (Act.asCall (Upset.fault ∘ Trouble.fault)) hload

/-- The playfield machine sets up the same field. -/
theorem Befunge.load_returned (draw : Nat → Befunge.Direction) (source : String) :
    (Befunge.machine draw).load (returned source) = (Befunge.machine draw).load source := by
  have hload : Befunge.load (returned source) = Befunge.load source := by
    unfold Befunge.load
    rw [toList_returned, Field.ofSource_withReturns]
  exact congrArg (Act.asCall Trouble.upset) hload

/-- Neither of the two characters at the end of a line is a command of the tape machine. -/
theorem Brainfuck.minify_returned (source : String) :
    Brainfuck.minify (returned source) = Brainfuck.minify source := by
  rw [minify, minify, toList_returned]
  refine congrArg String.ofList ?_
  induction source.toList with
  | nil => rfl
  | cons c cs ih =>
    by_cases hc : c = '\n'
    · subst hc
      exact ih
    · rw [withReturns_cons hc, List.filter_cons, List.filter_cons, ih]

/-- **Line endings do not matter.** Let a source have no carriage return, and put one before each of
its line feeds. The line machine and the playfield machine load the same program from it. The tape
machine and the token machine load it or refuse it as they do the source without them, and what they
load has the same operations with the same jumps, if at other places. Driven from there with the
same inputs and the same limit, each machine gives the same answers, prints the same texts, uses as
much of its budget and leaves the same data after every step and every input; only the places that
the failures of the last two mention may differ. -/
theorem exchanges_of_returned (source : String) (hsource : '\r' ∉ source.toList) :
    Length.machine.load (returned source) = Length.machine.load source ∧
      Length.machine.Exchanges Eq Eq source (returned source) ∧
      (∀ draw, (Befunge.machine draw).load (returned source) = (Befunge.machine draw).load source ∧
        (Befunge.machine draw).Exchanges Eq Eq source (returned source)) ∧
      Brainfuck.machine.Exchanges Brainfuck.State.Like Brainfuck.Displaced source
        (returned source) ∧
      Element.machine.Exchanges Element.State.Like Element.Displaced source (returned source) := by
  have hlines := Length.load_returned hsource
  have hfield := fun draw => Befunge.load_returned draw source
  have htape := Brainfuck.exchanges_of_minify (Brainfuck.minify_returned source).symm
  exact ⟨hlines, Machine.exchanges_of_eq hlines,
    fun draw => ⟨hfield draw, Machine.exchanges_of_eq (hfield draw)⟩, htape,
    Element.exchanges_returned source⟩

/-- A source with a comment, an empty line and a line feed at its end. -/
theorem exchanges_of_returned_comment :
    '\r' ∉ "+#[.]\n\n-\n".toList ∧ returned "+#[.]\n\n-\n" = "+#[.]\r\n\r\n-\r\n" ∧
      Length.machine.load "+#[.]\r\n\r\n-\r\n" = Length.machine.load "+#[.]\n\n-\n" ∧
      Brainfuck.machine.Exchanges Brainfuck.State.Like Brainfuck.Displaced "+#[.]\n\n-\n"
        "+#[.]\r\n\r\n-\r\n" ∧
      Element.machine.Exchanges Element.State.Like Element.Displaced "+#[.]\n\n-\n"
        "+#[.]\r\n\r\n-\r\n" := by
  have hreturned : returned "+#[.]\n\n-\n" = "+#[.]\r\n\r\n-\r\n" := by decide
  have hsource : '\r' ∉ "+#[.]\n\n-\n".toList := by decide
  obtain ⟨hlines, -, -, htape, htokens⟩ := exchanges_of_returned _ hsource
  rw [hreturned] at hlines htape htokens
  exact ⟨hsource, hreturned, hlines, htape, htokens⟩

end EsotericHost
