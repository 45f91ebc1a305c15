import EsotericHost.Proofs.Machine.Telling
import EsotericHost.Proofs.Wire.Event

/-!
# Notices that fit the wire

Numbers travel in 64 bits. `Notice.Fits` says that the numbers in a notice do and that the value in
it has no parts; whatever such a notice is shown to the client by, fits as well. The machines are
shown to give such notices only, for programs that are no longer than a text in memory can be.
-/

namespace EsotericHost

/-- A text of a length that a machine word with a sign can count, as every text in memory is. -/
def Text.InMemory (text : String) : Prop :=
  (text.length : Int) < Word.intBound

instance (text : String) : Decidable (Text.InMemory text) :=
  inferInstanceAs (Decidable (_ < _))

/-- The characters of a text in memory and one more are counted by a machine word. -/
theorem Text.InMemory.length_lt {text : String} (h : InMemory text) :
    text.toList.length + 1 < Word.natBound := by
  rw [InMemory, Word.intBound] at h
  rw [String.length_toList, Word.natBound]
  omega

/-- The integers in a notice fit 64 bits, and the value in it is finite and has no parts. -/
def Notice.Fits : Notice → Prop
  | .instructionPointer value | .dataPointer value | .position _ value | .line value =>
    value < Word.natBound
  | .cell index value => index < Word.natBound ∧ Word.holdsInt value
  | .memory cells => ∀ value ∈ cells.toList, Word.holdsInt value
  | .pushed _ value | .popped _ value | .binding _ value => value.isFlat ∧ value.fits
  | .cleared _ => True

namespace Notice

/-- A pointer on a word fits. -/
theorem fits_pointer {key : String} {value : Nat} (hv : value < Word.natBound) :
    (pointer key value).Fits :=
  ⟨rfl, Wire.fits_of_lt hv⟩

/-- The updates that a notice makes to a stack fit, if the notice does. -/
theorem Fits.stackUpdates {notice : Notice} (hn : notice.Fits) :
    ∀ u ∈ notice.stackUpdates, u.Fits := by
  intro u hu
  cases notice with
  | pushed stack value | popped stack value =>
    obtain rfl := List.mem_singleton.mp hu
    rintro _ ⟨⟩
    exact hn
  | cleared stack =>
    obtain rfl := List.mem_singleton.mp hu
    rintro _ ⟨⟩
  | _ => cases hu

/-- The updates that a notice makes to the tape fit, if the notice does. -/
theorem Fits.tapeUpdates {notice : Notice} (hn : notice.Fits) :
    ∀ u ∈ notice.tapeUpdates, u.Fits := by
  intro u hu
  cases notice with
  | instructionPointer value | dataPointer value =>
    rcases List.mem_cons.mp hu with rfl | hu
    · exact hn
    · obtain rfl := List.mem_singleton.mp hu
      exact fits_pointer hn
  | cell index value | memory cells =>
    obtain rfl := List.mem_singleton.mp hu
    exact hn
  | _ => cases hu

/-- The updates that a notice of the line machine makes fit, if the notice does. -/
theorem Fits.lineUpdates {notice : Notice} (hn : notice.Fits) :
    ∀ u ∈ notice.lineUpdates, u.Fits := by
  cases notice with
  | line value =>
    intro u hu
    obtain rfl := List.mem_singleton.mp hu
    exact fits_pointer hn
  | _ => exact hn.stackUpdates

/-- The updates that a notice of the field machine makes fit, if the notice does. -/
theorem Fits.fieldUpdates {notice : Notice} (hn : notice.Fits) :
    ∀ u ∈ notice.fieldUpdates, u.Fits := by
  cases notice with
  | position key value =>
    intro u hu
    obtain rfl := List.mem_singleton.mp hu
    exact fits_pointer hn
  | _ => exact hn.stackUpdates

/-- The updates that a notice of the token machine makes fit, if the notice does. -/
theorem Fits.tokenUpdates {notice : Notice} (hn : notice.Fits) :
    ∀ u ∈ notice.tokenUpdates, u.Fits := by
  cases notice with
  | position key value =>
    intro u hu
    obtain rfl := List.mem_singleton.mp hu
    exact fits_pointer hn
  | binding name value =>
    intro u hu
    cases value <;>
    · obtain rfl := List.mem_singleton.mp hu
      exact hn
  | _ => exact hn.stackUpdates

end Notice

/-- An integer of 64 bits fits. -/
theorem fits_toInt (n : Int64) : (Json.ofInt n.toInt).isFlat ∧ (Json.ofInt n.toInt).fits := by
  have hlow := n.le_toInt
  have hhigh := n.toInt_lt
  refine ⟨rfl, Wire.fits_of_holdsInt ?_⟩
  rw [Word.holdsInt, Word.intBound, Bool.and_eq_true]
  exact ⟨decide_eq_true (by omega), decide_eq_true (by omega)⟩

end EsotericHost
