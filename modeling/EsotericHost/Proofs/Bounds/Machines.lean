import EsotericHost.Proofs.Bounds.Field
import EsotericHost.Proofs.Bounds.Lines
import EsotericHost.Proofs.Bounds.Tape
import EsotericHost.Proofs.Bounds.Tokens
import EsotericHost.Proofs.Machine.Builtin

/-!
# What the built-in machines tell

All four machines tell only what fits the wire, as long as their programs are texts in memory
(`Builtin.tells`).
-/

namespace EsotericHost

namespace Builtin

/-- The bounds of the machine that the state belongs to. -/
def Bounded : Builtin → Prop
  | .befunge s => s.Bounded
  | .brainfuck s => s.Bounded
  | .element s => s.Bounded
  | .length s => s.Bounded

/-- A turn of one of the machines keeps its bounds also when it is seen as one of the builtin ones.
-/
theorem tells_mapState {τ α : Type} {f : τ → Builtin} {t : Turn Upset τ α} {P : τ → Prop}
    (ht : t.Tells P Notice.Fits) (hf : ∀ s, P s → (f s).Bounded) :
    (t.mapState f).Tells Bounded Notice.Fits :=
  ⟨hf _ ht.state, ht.notices⟩

variable (draw : Nat → Befunge.Direction)

/-- A call that each of the four machines answers within its bounds. -/
theorem tells_choose {α : Type} {befunge : Act Upset Befunge.State α}
    {brainfuck : Act Upset Brainfuck.State α} {element : Act Upset Element.State α}
    {length : Act Upset Length.State α} (hbefunge : befunge.Tells Befunge.State.Bounded Notice.Fits)
    (hbrainfuck : brainfuck.Tells Brainfuck.State.Bounded Notice.Fits)
    (helement : element.Tells Element.State.Bounded Notice.Fits)
    (hlength : length.Tells Length.State.Bounded Notice.Fits) :
    (choose befunge brainfuck element length).Tells Bounded Notice.Fits := by
  intro s hs
  cases s with
  | befunge s => exact tells_mapState (hbefunge s hs) fun _ h => h
  | brainfuck s => exact tells_mapState (hbrainfuck s hs) fun _ h => h
  | element s => exact tells_mapState (helement s hs) fun _ h => h
  | length s => exact tells_mapState (hlength s hs) fun _ h => h

/-- The built-in machines tell nothing beyond what fits, for programs in memory. -/
theorem tells : (machine draw).Tells Text.InMemory Bounded Notice.Fits where
  load source hsource :=
    tells_choose ((Befunge.tells draw).load source hsource) (Brainfuck.tells.load source hsource)
      (Element.tells.load source hsource) (Length.tells.load source hsource)
  reset :=
    tells_choose (Befunge.tells draw).reset Brainfuck.tells.reset Element.tells.reset
      Length.tells.reset
  step :=
    tells_choose (Befunge.tells draw).step Brainfuck.tells.step Element.tells.step Length.tells.step
  resume input :=
    tells_choose ((Befunge.tells draw).resume input) (Brainfuck.tells.resume input)
      (Element.tells.resume input) (Length.tells.resume input)

/-- Whatever fits is shown to the client by updates that fit. -/
theorem fits_portray (s : Builtin) {notice : Notice} (hn : notice.Fits) :
    ∀ u ∈ (machine draw).portray s notice, u.Fits := by
  cases s with
  | befunge s => exact hn.fieldUpdates
  | brainfuck s => exact hn.tapeUpdates
  | element s => exact hn.tokenUpdates
  | length s => exact hn.lineUpdates

/-- The memory that a machine shows holds numbers that fit. -/
theorem holdsInt_memory {s : Builtin} (hs : s.Bounded) :
    ∀ cells ∈ (machine draw).memory s, ∀ value ∈ cells.toList, Word.holdsInt value := by
  intro cells hc value hv
  cases s with
  | brainfuck s =>
    cases hc
    exact Brainfuck.holdsInt_of_inRange (hs.good.range value (Array.mem_toList_iff.mp hv))
  | _ => cases hc

end Builtin

/-- The machines that the standard catalogue builds are within their bounds. -/
theorem Catalogue.standard_bounded {draw : Nat → Befunge.Direction} {language : Language Builtin}
    {options : Options} {s : Builtin} (hl : language ∈ (standard draw).languages)
    (hb : language.build options = .ok s) : s.Bounded := by
  cases standard_built hl hb with
  | befunge build => exact Befunge.build_bounded build
  | brainfuck build => exact Brainfuck.build_bounded build
  | element => exact fun token ht => absurd ht (Array.not_mem_empty token)
  | length => exact ⟨(by decide : (0 : Int) ≤ Word.intBound), fun hw => nomatch hw⟩

end EsotericHost
