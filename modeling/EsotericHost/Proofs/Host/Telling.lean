import EsotericHost.Proofs.Host.History

/-!
# What a host tells of its machine

Two kinds of events show what is inside a machine: its updates, and the news of a machine with a
memory. All others are `Event.IsOutward`. If every call of the machines of a catalogue leaves a
property of the session and tells only events of a given kind (`Catalogue.Tells`), the same holds of
the history of a session (`Catalogue.Tells.history`), of every command (`Catalogue.Tells.course`)
and of every run of commands (`Catalogue.Tells.handleAll`).
-/

namespace EsotericHost

variable {σ : Type} {c : Catalogue σ} {bound : Nat} {h h' : Host σ} {s t : Session σ}
  {command : Command} {events : List Event} {strides : List (Session σ)}
  {Source : String → Prop} {K : Session σ → Prop} {E : Event → Prop}

/-! ## What calls tell -/

/-- A session with a property, and events of a given kind. -/
structure Telling (K : Session σ → Prop) (E : Event → Prop) (s : Session σ)
    (events : List Event) : Prop where
  session : K s
  events : ∀ e ∈ events, E e

/-- A session of which nothing is told. -/
theorem Telling.silent (hs : K s) : Telling K E s [] :=
  ⟨hs, fun _ he => absurd he List.not_mem_nil⟩

/-- What has been told before does not spoil what is told after. -/
theorem Telling.after {before : List Event} (ht : Telling K E s events) (hb : ∀ e ∈ before, E e) :
    Telling K E s (before ++ events) :=
  ⟨ht.session, fun e he => (List.mem_append.mp he).elim (hb e) (ht.events e)⟩

/-- A catalogue whose sessions have a property, which every call of its machines keeps, while it
tells only events of a given kind. Programs may be restricted to those of a given kind. -/
structure Catalogue.Tells (c : Catalogue σ) (Source : String → Prop) (K : Session σ → Prop)
    (E : Event → Prop) : Prop where
  outward : ∀ e, e.IsOutward → E e
  opens : ∀ lang options s, c.openSession lang options = .ok s → K s
  created : ∀ s, K s → E (s.createdEvent c.machine)
  load : ∀ source s, Source source → K s →
    Telling K E (s.left (Session.load c.machine source))
      (s.told c.machine (Session.load c.machine source))
  reset : ∀ s, K s → Telling K E (s.left c.machine.reset) (s.told c.machine c.machine.reset)
  step : ∀ s, K s → Telling K E (s.left c.machine.step) (s.told c.machine c.machine.step)
  resume : ∀ input s, K s →
    Telling K E (s.left (c.machine.resume input)) (s.told c.machine (c.machine.resume input))

/-! ## What commands tell -/

/-- A host whose session has a property, and whose held code is of a given kind. -/
structure Host.Keeps (Source : String → Prop) (K : Session σ → Prop) (h : Host σ) : Prop where
  session : ∀ s, h.session = some s → K s
  held : ∀ source, h.held = some source → Source source

/-- A host that has just been made keeps anything. -/
theorem Host.keeps_new (limit : Option Nat) : (Host.new limit : Host σ).Keeps Source K :=
  ⟨by rintro _ ⟨⟩, by rintro _ ⟨⟩⟩

/-- Code is held only after a command has brought it along. -/
theorem Course.held_source (hx : Course c bound h command events h') {source : String}
    (hs : h'.held = some source) : h.held = some source ∨ command.source? = some source := by
  cases hx with
  | refused dispatched idle kept => exact .inl hs
  | minified session answer => exact .inl hs
  | fromText session answer => exact .inl hs
  | crashed question dispatched operation => exact .inl hs
  | held busy => exact .inr hs
  | loaded operation session => exact .inl hs
  | opened session loads => cases hs
  | openCrashed session crash => cases hs
  | reset session loads => cases hs
  | resetCrashed session crash => cases hs
  | worked effort =>
    unfold Effort.leaves at hs
    split at hs
    · exact .inl hs
    · cases hs

namespace Catalogue.Tells

variable (hc : c.Tells Source K E)
include hc

/-- What a session goes through tells what the calls tell. -/
theorem history (hs : K s) (hx : s.History c.machine Source strides events t) :
    Telling K E t events := by
  induction hx with
  | start => exact .silent hs
  | said before outward ih =>
    refine .after ⟨ih.session, fun e he => ?_⟩ ih.events
    cases List.mem_singleton.mp he
    exact hc.outward _ outward
  | shown before ih =>
    refine .after ⟨ih.session, fun e he => ?_⟩ ih.events
    cases List.mem_singleton.mp he
    exact hc.created _ ih.session
  | reset before ih => exact (hc.reset _ ih.session).after ih.events
  | @called _ _ _ report u _ act _ before call reports ih =>
    have htold : Telling K E (u.left act) (u.told c.machine act) := by
      cases call with
      | load given => exact hc.load _ u given ih.session
      | step => exact hc.step u ih.session
      | resume input => exact hc.resume input u ih.session
    refine .after ⟨htold.session, fun e he => ?_⟩ ih.events
    exact (List.mem_append.mp he).elim (htold.events e) fun he =>
      hc.outward e (reports.outward e he)

/-- Every course of a command tells what the calls tell. -/
theorem course (hcons : h.Consistent) (hh : h.Keeps Source K)
    (hsource : ∀ source, command.source? = some source → Source source)
    (hx : Course c bound h command events h') :
    h'.Keeps Source K ∧ ∀ e ∈ events, E e := by
  have hheld : ∀ source, h'.held = some source → Source source := fun source hs =>
    (hx.held_source hs).elim (hh.held source) (hsource source)
  cases hm : c.makes command with
  | true =>
    obtain ⟨lang, options, s, t, hopened, hhistory, hplace⟩ :=
      hx.history_opened hcons hm hh.held
    have htelling := hc.history (hc.opens lang options s hopened) hhistory
    refine ⟨⟨fun u hu => ?_, hheld⟩, htelling.events⟩
    rcases hplace with ht | ⟨hkept, -⟩
    · obtain rfl := Option.some.inj (hu.symm.trans ht)
      exact htelling.session
    · exact hh.session u (hkept ▸ hu)
  | false =>
    cases hs : h.session with
    | none =>
      obtain ⟨hnone, houtward⟩ := hx.outward hs hm
      refine ⟨⟨fun u hu => ?_, hheld⟩, fun e he => hc.outward e (houtward e he)⟩
      rw [hnone] at hu
      cases hu
    | some s =>
      obtain ⟨t, ht, hhistory⟩ := hx.history hcons hs hm hh.held hsource
      have htelling := hc.history (hh.session s hs) hhistory
      refine ⟨⟨fun u hu => ?_, hheld⟩, htelling.events⟩
      obtain rfl := Option.some.inj (hu.symm.trans ht)
      exact htelling.session

/-- Every run of commands tells what the calls tell. -/
theorem handleAll {commands : List Command} {steps : List (List Event)} (hcons : h.Consistent)
    (hh : h.Keeps Source K)
    (hsources : ∀ command ∈ commands, ∀ source, command.source? = some source → Source source)
    (hrun : h.handleAll c bound commands = some (steps, h')) :
    h'.Keeps Source K ∧ ∀ e ∈ steps.flatten, E e := by
  induction commands generalizing h steps with
  | nil =>
    cases hrun
    exact ⟨hh, fun _ he => absurd he List.not_mem_nil⟩
  | cons command rest ih =>
    obtain ⟨events, h₁, more, hx, hrest, rfl⟩ := Host.handleAll_cons hrun
    have hcourse := Host.handle_course hcons hx
    obtain ⟨hkeeps, hevents⟩ := hc.course hcons hh (hsources command (by simp)) hcourse
    obtain ⟨hkeeps', hmore⟩ := ih (hcourse.consistent hcons) hkeeps
      (fun command hm => hsources command (List.mem_cons_of_mem _ hm)) hrest
    refine ⟨hkeeps', fun e he => ?_⟩
    rw [List.flatten_cons] at he
    exact (List.mem_append.mp he).elim (hevents e) (hmore e)

end Catalogue.Tells

end EsotericHost
