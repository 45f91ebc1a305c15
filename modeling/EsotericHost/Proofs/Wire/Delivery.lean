import EsotericHost.Proofs.Bounds.Machines
import EsotericHost.Proofs.Host.Telling

/-!
# The events of a host arrive

Whatever a host with the built-in languages is asked to do, the numbers in its events fit the wire.
So its client reads each event as it was sent, but for the doubles of a stack or a variable, which
come back near themselves, and the `null` that a stack shows in place of a double that is not finite
(`Host.readEvent?_of_handleAll`).
-/

namespace EsotericHost

variable {draw : Nat → Befunge.Direction}

/-- Notices that fit are shown by events that fit. -/
theorem Session.telling_of_tells {α : Type} {act : Act Upset Builtin α} {s : Session Builtin}
    (ht : (act s.state).Tells Builtin.Bounded Notice.Fits) :
    Telling (fun s => s.state.Bounded) Event.Fits (s.left act)
      (s.told (Builtin.machine draw) act) := by
  refine ⟨ht.state, fun e he => ?_⟩
  obtain ⟨effect, heffect, he⟩ := List.mem_flatMap.mp he
  cases effect with
  | print text =>
    obtain rfl := List.mem_singleton.mp he
    trivial
  | notify notice =>
    dsimp only [Effect.events] at he
    split at he
    · obtain ⟨u, hu, rfl⟩ := List.mem_map.mp he
      exact Builtin.fits_portray draw _ (ht.notices notice heffect) u hu
    · cases he

/-- The sessions of the built-in languages tell only what fits, for programs in memory. -/
theorem Catalogue.standard_tells :
    (standard draw).Tells Text.InMemory (fun s => s.state.Bounded) Event.Fits where
  outward e he := by cases e <;> trivial
  opens lang options s ho := by
    unfold openSession at ho
    split at ho
    · cases ho
    · rename_i language hfind
      split at ho
      · cases ho
      · rename_i state hbuild
        cases ho
        exact standard_bounded (List.mem_of_find?_eq_some hfind) hbuild
  created s hs := by
    intro cells hcells value hvalue
    have hshown : s.visualize = true ∧ (standard draw).machine.memory s.state = some cells := by
      simpa [Session.createdEvent] using hcells
    exact Builtin.holdsInt_memory draw hs cells hshown.2 value hvalue
  load source s hsource hs :=
    Session.telling_of_tells
      (Act.Tells.bind ((Builtin.tells draw).load source hsource)
        (fun _ => (Builtin.tells draw).reset) s.state hs)
  reset s hs := Session.telling_of_tells ((Builtin.tells draw).reset s.state hs)
  step s hs := Session.telling_of_tells ((Builtin.tells draw).step s.state hs)
  resume input s hs := Session.telling_of_tells ((Builtin.tells draw).resume input s.state hs)

/-- Every event of a run of commands fits the wire, if the programs are texts in memory. -/
theorem Host.fits_of_handleAll {limit : Option Nat} {bound : Nat} {commands : List Command}
    {steps : List (List Event)} {h : Host Builtin}
    (hsources : ∀ command ∈ commands, ∀ source, command.source? = some source →
      Text.InMemory source)
    (hrun : (new limit).handleAll (Catalogue.standard draw) bound commands = some (steps, h)) :
    ∀ e ∈ steps.flatten, e.Fits :=
  (Catalogue.standard_tells.handleAll (new_consistent limit) (keeps_new limit) hsources hrun).2

/-- The line of every event of a run of commands is read as an event: as the same but for a `null`
that stands for the value of a stack, and for a double, which comes back as a finite double of its
sign at most two doubles away. The same event comes back just if there is no such `null` and the
double is read back from its own text. -/
theorem Host.readEvent?_of_handleAll {limit : Option Nat} {bound : Nat} {commands : List Command}
    {steps : List (List Event)} {h : Host Builtin}
    (hsources : ∀ command ∈ commands, ∀ source, command.source? = some source →
      Text.InMemory source)
    (hrun : (new limit).handleAll (Catalogue.standard draw) bound commands = some (steps, h)) :
    ∀ e ∈ steps.flatten,
      (∃ e', Wire.readEvent? (Wire.writeEvent e) = some e' ∧ e.ReadAs e') ∧
      (Wire.readEvent? (Wire.writeEvent e) = some e ↔
        e.hasNull = false ∧
          ∀ x ∈ e.double?, Json.Number.reread? (.float x) = some (.float x)) := by
  intro e he
  have hfits := fits_of_handleAll hsources hrun e he
  exact ⟨Wire.exists_readEvent?_writeEvent hfits, Wire.readEvent?_writeEvent_iff hfits⟩

namespace Host

/-- A client that watches the token machine push what is not a number, and `3e23`. -/
def pushes : List Command :=
  [.setLanguage "element" (Options.empty.insert "updateVisuals" (.bool true)),
    .press .interpret ⟨some "nan 3e23", none⟩]

/-- Its program is a text in memory. -/
theorem inMemory_pushes :
    ∀ command ∈ pushes, ∀ source, command.source? = some source → Text.InMemory source := by
  simp only [pushes, List.mem_cons, List.not_mem_nil, or_false]
  rintro command (rfl | rfl) source hs
  · cases hs
  · cases hs
    decide

/-- Whether a double is read back from its own text. -/
def isReread (x : Float) : Bool :=
  match Json.Number.reread? (.float x) with
  | some (.float y) => Decimal.parts y = Decimal.parts x
  | _ => false

/-- The stack that the client sees has a `null` in it and a double that is not read back. -/
theorem pushes_run : ∃ steps h,
    (new none).handleAll (Catalogue.standard fun _ => .right) 9 pushes = some (steps, h) ∧
      (∃ e ∈ steps.flatten, e.hasNull = true) ∧
      ∃ e ∈ steps.flatten, ∃ x ∈ e.double?, isReread x = false := by
  have hrun : ((new none).handleAll (Catalogue.standard fun _ => .right) 9 pushes).any
      (fun p => p.1.flatten.any Event.hasNull &&
        p.1.flatten.any fun e => e.double?.any fun x => !isReread x) = true := by
    decide +kernel
  obtain ⟨⟨steps, h⟩, hsome, hp⟩ := (Option.any_eq_true _ _).mp hrun
  rw [Bool.and_eq_true, List.any_eq_true, List.any_eq_true] at hp
  refine ⟨steps, h, hsome, hp.1, ?_⟩
  obtain ⟨e, he, hx⟩ := hp.2
  obtain ⟨x, hx, hread⟩ := (Option.any_eq_true _ _).mp hx
  exact ⟨e, he, x, hx, by simpa using hread⟩

/-- The client reads all that it is sent, the `null` and the double among it. -/
theorem readEvent?_of_handleAll_pushes : ∃ steps h,
    (∀ command ∈ pushes, ∀ source, command.source? = some source → Text.InMemory source) ∧
      (new none).handleAll (Catalogue.standard fun _ => .right) 9 pushes = some (steps, h) ∧
      (∃ e ∈ steps.flatten, e.hasNull = true) ∧
      (∃ e ∈ steps.flatten, ∃ x ∈ e.double?, isReread x = false) ∧
      ∀ e ∈ steps.flatten,
        (∃ e', Wire.readEvent? (Wire.writeEvent e) = some e' ∧ e.ReadAs e') ∧
        (Wire.readEvent? (Wire.writeEvent e) = some e ↔
          e.hasNull = false ∧
            ∀ x ∈ e.double?, Json.Number.reread? (.float x) = some (.float x)) := by
  obtain ⟨steps, h, hrun, hnull, hdouble⟩ := pushes_run
  exact ⟨steps, h, inMemory_pushes, hrun, hnull, hdouble,
    readEvent?_of_handleAll inMemory_pushes hrun⟩

/-- Not every event comes back: the `null` does not, and neither does the double. -/
theorem readEvent?_ne_of_pushes : ∃ steps h,
    (new none).handleAll (Catalogue.standard fun _ => .right) 9 pushes = some (steps, h) ∧
      (∃ e ∈ steps.flatten, e.hasNull = true ∧ Wire.readEvent? (Wire.writeEvent e) ≠ some e) ∧
      ∃ e ∈ steps.flatten, e.hasNull = false ∧ Wire.readEvent? (Wire.writeEvent e) ≠ some e := by
  obtain ⟨steps, h, hrun, ⟨e, he, hnull⟩, ⟨d, hd, x, hx, hread⟩⟩ := pushes_run
  have hfits := fits_of_handleAll inMemory_pushes hrun
  refine ⟨steps, h, hrun, ⟨e, he, hnull, fun hsame => ?_⟩, ⟨d, hd, ?_, fun hsame => ?_⟩⟩
  · rw [((Wire.readEvent?_writeEvent_iff (hfits e he)).mp hsame).1] at hnull
    cases hnull
  · exact Event.hasNull_of_double? hx
  · have hsame := ((Wire.readEvent?_writeEvent_iff (hfits d hd)).mp hsame).2 x hx
    unfold isReread at hread
    rw [hsame] at hread
    simp at hread

end Host

end EsotericHost
