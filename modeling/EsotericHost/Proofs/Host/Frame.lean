import EsotericHost.Proofs.Host.Telling

/-!
# What commands leave alone

Some parts of a host outlive every command, and some change only in the sight of the client. The
step limit stays what it was (`Host.handleAll_stepLimit`). A session is always one that a language
of the catalogue has made, with the name, the options and the capabilities that it was made with
(`Host.handleAll_made`): calls of the machine change its state only. And a host has a session just
if it has told of one (`Host.handleAll_created`).
-/

namespace EsotericHost

variable {σ : Type} {c : Catalogue σ} {Good : σ → Prop} {waits : σ → Option InputKind}
  {bound : Nat} {h h' : Host σ} {s : Session σ} {command : Command} {events : List Event}

/-! ## The step limit -/

/-- To release an operation leaves the limit of steps as it is. -/
theorem Host.released_stepLimit (h : Host σ) : h.released.stepLimit = h.stepLimit := by
  unfold released
  cases h.operation <;> rfl

/-- No command changes the step limit. -/
theorem Course.stepLimit_eq (hc : Course c bound h command events h') :
    h'.stepLimit = h.stepLimit := by
  cases hc with
  | refused dispatched idle kept => rfl
  | minified session answer => rfl
  | fromText session answer => rfl
  | crashed question dispatched operation => rfl
  | held busy => rfl
  | loaded operation session => rfl
  | opened session loads => exact h.released_stepLimit
  | openCrashed session crash => exact h.released_stepLimit
  | reset session loads => exact h.released_stepLimit
  | resetCrashed session crash => exact h.released_stepLimit
  | worked effort =>
    unfold Effort.leaves
    split <;> rfl

/-- A run of commands keeps the step limit of the host. -/
theorem Host.handleAll_stepLimit {commands : List Command} {steps : List (List Event)}
    (hh : h.Consistent) (hrun : h.handleAll c bound commands = some (steps, h')) :
    h'.stepLimit = h.stepLimit := by
  have hkept := handleAll_preserves
    (P := fun k => k.Consistent ∧ k.stepLimit = h.stepLimit)
    (fun k command events k' hk hx => by
      have hcourse := handle_course hk.1 hx
      exact ⟨hcourse.consistent hk.1, hcourse.stepLimit_eq.trans hk.2⟩)
    hrun ⟨hh, rfl⟩
  exact hkept.2

/-! ## The make of a session -/

/-- A session that a language of the catalogue has made, whatever has become of its state. -/
def Session.Made (c : Catalogue σ) (s : Session σ) : Prop :=
  ∃ language ∈ c.languages, ∃ state, language.build s.options = .ok state ∧
    s.lang = language.name ∧ s.capabilities = c.machine.capabilities state ∧
    s.visualize = s.options.visualize

/-- A session that has just been opened is made by its language. -/
theorem Catalogue.made_of_openSession {lang : String} {options : Options}
    (ho : c.openSession lang options = .ok s) : s.Made c := by
  unfold openSession at ho
  split at ho
  · cases ho
  · rename_i language hfind
    split at ho
    · cases ho
    · rename_i state hbuild
      cases ho
      exact ⟨language, List.mem_of_find?_eq_some hfind, state, hbuild, rfl, rfl, rfl⟩

/-- Work in the course of a command leaves the make of the session in use. -/
theorem Effort.make {e : Effort σ} (he : h.effort? c bound command = some e) :
    ∃ s state, h.session = some s ∧ e.stretch.session = { s with state } := by
  obtain ⟨s, hs, hfollows⟩ := Effort.follows he fun _ _ => trivial
  exact ⟨s, _, hs, hfollows.make⟩

/-! ## What every call preserves -/

/-- A property of the sessions that the catalogue opens, which every call of the machine
preserves. -/
structure Catalogue.Maintains (c : Catalogue σ) (K : Session σ → Prop) : Prop where
  opens : ∀ lang options s, c.openSession lang options = .ok s → K s
  load : ∀ source s, K s → K (s.left (Session.load c.machine source))
  reset : ∀ s, K s → K (s.left c.machine.reset)
  step : ∀ s, K s → K (s.left c.machine.step)
  resume : ∀ input s, K s → K (s.left (c.machine.resume input))

namespace Catalogue.Maintains

variable {K : Session σ → Prop}

/-- Such a property is kept whatever the calls tell. -/
theorem tells (hK : c.Maintains K) : c.Tells (fun _ => True) K fun _ => True where
  outward _ _ := trivial
  opens := hK.opens
  created _ _ := trivial
  load source s _ hs := ⟨hK.load source s hs, fun _ _ => trivial⟩
  reset s hs := ⟨hK.reset s hs, fun _ _ => trivial⟩
  step s hs := ⟨hK.step s hs, fun _ _ => trivial⟩
  resume input s hs := ⟨hK.resume input s hs, fun _ _ => trivial⟩

/-- It holds of the session of a host, if there is one, after every course of a command. -/
theorem course (hK : c.Maintains K) (hcons : h.Consistent) (hh : ∀ s, h.session = some s → K s)
    (hc : Course c bound h command events h') : ∀ s, h'.session = some s → K s :=
  (hK.tells.course hcons ⟨hh, fun _ _ => trivial⟩ (fun _ _ => trivial) hc).1.session

/-- It holds of the session of a host, if there is one, after any run of commands. -/
theorem handleAll (hK : c.Maintains K) {limit : Option Nat} {commands : List Command}
    {steps : List (List Event)}
    (hrun : (Host.new limit).handleAll c bound commands = some (steps, h)) :
    ∀ s, h.session = some s → K s :=
  (hK.tells.handleAll (Host.new_consistent limit) (Host.keeps_new limit)
    (fun _ _ _ _ => trivial) hrun).1.session

end Catalogue.Maintains

/-- Calls leave the make of a session. -/
theorem Catalogue.maintains_made (c : Catalogue σ) : c.Maintains (Session.Made c) where
  opens _ _ _ ho := made_of_openSession ho
  load _ _ hs := hs
  reset _ hs := hs
  step _ hs := hs
  resume _ _ hs := hs

/-- The session of a host, if it has one, has been made by a language of the catalogue. -/
theorem Host.handleAll_made {limit : Option Nat} {commands : List Command}
    {steps : List (List Event)}
    (hrun : (Host.new limit).handleAll c bound commands = some (steps, h)) :
    ∀ s, h.session = some s → s.Made c :=
  c.maintains_made.handleAll hrun

/-! ## The sessions that the client has been told of -/

/-- Whether an event tells of a new session. -/
def Event.isCreated : Event → Bool
  | .created .. => true
  | _ => false

/-- Reports tell of no new session. -/
theorem any_isCreated_of_reports (hr : ∀ e ∈ events, e.IsReport) :
    events.any Event.isCreated = false := by
  apply List.any_eq_false.mpr
  intro e he
  have hreport := hr e he
  cases e <;> first | exact Bool.false_ne_true | exact hreport.elim

/-- A command leaves a host with a session just if there was one before or the client has been told
of one. -/
theorem Course.created (hc : c.Reliable Good waits) (hx : Course c bound h command events h') :
    h'.session.isSome = (h.session.isSome || events.any Event.isCreated) := by
  have hfreed (reason : String) (s : Session σ) (held : Option String) :
      (h.abandonEvents reason ++ s.heldEvents c.machine held).any Event.isCreated = false := by
    rw [List.any_append, any_isCreated_of_reports (h.isReport_abandonEvents reason),
      any_isCreated_of_reports (s.isReport_heldEvents c.machine held)]
    rfl
  cases hx with
  | refused dispatched idle kept => exact (Bool.or_false _).symm
  | minified session answer => exact (Bool.or_false _).symm
  | fromText session answer => exact (Bool.or_false _).symm
  | crashed question dispatched operation => exact (Bool.or_false _).symm
  | held busy => exact (Bool.or_false _).symm
  | loaded operation session =>
    rw [session]
    rfl
  | opened session loads =>
    rw [List.any_append, hfreed]
    exact (Bool.or_true _).symm
  | openCrashed session crash =>
    exact absurd crash (Session.heldResult_ne_crash hc.lawful (hc.opens session).good _ _)
  | reset session loads =>
    rw [session]
    rfl
  | resetCrashed session crash =>
    rw [session]
    rfl
  | worked effort =>
    obtain ⟨s, state, hsession, -⟩ := Effort.make effort
    rw [hsession]
    unfold Effort.leaves
    split <;> rfl

end EsotericHost
