import Mathlib.Data.List.Forall2
import EsotericHost.Proofs.Host.Reply
import EsotericHost.Proofs.Watching.Work

/-!
# Watching does not interfere

Two hosts that are given the same commands, but for one aspect of the options that are chosen with a
language, stay twins (`Host.Twin`): they differ in nothing but what the client sees of their
machines. So the sight of the changes inside a machine, and the echo of its instructions, have no
influence on states, errors, budgets or requests (`Host.watching_observes`).
-/

namespace EsotericHost

variable {a : Aspect} {draw : Nat → Befunge.Direction} {bound : Nat} {s t : Session Builtin}
  {h k : Host Builtin}

/-! ## Commands -/

/-- Commands that are the same but for the options, which differ in one aspect. -/
inductive Command.Alike (a : Aspect) : Command → Command → Prop
  | setLanguage {lang : String} {o p : Options} (options : o.Alike a p) :
    Alike a (.setLanguage lang o) (.setLanguage lang p)
  | loadCode {source : String} : Alike a (.loadCode source) (.loadCode source)
  | press {button : Button} {args : ButtonArgs} : Alike a (.press button args) (.press button args)
  | unblock {value : Json} {popStatus : Bool} :
    Alike a (.unblock value popStatus) (.unblock value popStatus)

namespace Host

/-- What is known of a host of the built-in languages between two commands: it is consistent, in
step with its machine, and the machine is as its options have made it. -/
structure Sound (draw : Nat → Befunge.Direction) (h : Host Builtin) : Prop where
  consistent : h.Consistent
  inStep : h.InStep Builtin.Good Builtin.waits
  optioned : ∀ s, h.session = some s → s.Optioned (.standard draw)

/-- What is known of a host between two commands is known after the next one. -/
theorem Sound.handle {command : Command} {events : List Event} {h' : Host Builtin}
    (hh : h.Sound draw) (hx : h.handle (.standard draw) bound command = some (events, h')) :
    h'.Sound draw := by
  have hcourse := handle_course hh.consistent hx
  exact ⟨hcourse.consistent hh.consistent,
    hcourse.inStep (Catalogue.standard_reliable draw) hh.consistent hh.inStep,
    (Catalogue.maintains_optioned draw).course hh.consistent hh.optioned hcourse⟩

/-- A new host is consistent, with no machine to be known of. -/
theorem new_sound (draw : Nat → Befunge.Direction) (limit : Option Nat) :
    (Host.new limit : Host Builtin).Sound draw :=
  ⟨new_consistent limit, fun _ hs => (nomatch hs), fun _ hs => (nomatch hs)⟩

/-- What twins make of a command: events that are seen alike, but for the echoes of the strides, and
twins. -/
def Answers (a : Aspect) (m : Machine Builtin) (e : Bool) (strides : List (Session Builtin))
    (here there : List Event × Host Builtin) : Prop :=
  Woven a m e strides here.1 there.1 ∧ here.2.Twin a there.2

namespace Twin

variable {m : Machine Builtin} {e : Bool} {command command' : Command}

/-- Twins to which a command does nothing but tell something stay twins. -/
theorem staying (hhk : h.Twin a k) (events : List Event) :
    Option.Rel (Answers a m e []) (h.staying events) (k.staying events) :=
  .some ⟨Woven.of_seen rfl, hhk⟩

/-- Twins refuse a command with the same error. -/
theorem refusing (hhk : h.Twin a k) (error : HostError) :
    Option.Rel (Answers a m e []) (h.refusing error) (k.refusing error) :=
  hhk.staying _

/-- A question is answered alike. -/
theorem asking (hhk : h.Twin a k) (supported : Bool) (answer : Except Crash (Option String))
    (lang capability line : String) (result : String → Event) :
    Option.Rel (Answers a m e []) (h.asking supported answer lang capability line result)
      (k.asking supported answer lang capability line result) := by
  cases answer with
  | ok code => exact hhk.staying _
  | error crash => exact .none

/-- Twins that work on an operation answer alike. -/
theorem working (hhk : h.Twin a k) (draw : Nat → Befunge.Direction) (bound : Nat)
    (command : Command) :
    Option.Rel
      (Answers a (Builtin.machine draw) (h.echoing k) (h.strides (.standard draw) bound command))
      (h.working (.standard draw) bound command) (k.working (.standard draw) bound command) := by
  refine rel_map (hhk.effort bound command) fun f g hfg => ⟨?_, hfg.leaves hhk⟩
  rw [hhk.held]
  exact hfg.woven h.held

/-- Twins stay so when their operation is released. -/
theorem released (hhk : h.Twin a k) : h.released.Twin a k.released := by
  unfold Host.released
  rw [hhk.operation]
  cases h.operation with
  | none => exact hhk
  | some op => exact ⟨hhk.stepLimit, hhk.session, hhk.held, by rw [hhk.activity], rfl, rfl⟩

/-- Twins say the same of an operation that is given up. -/
theorem abandonEvents_eq (hhk : h.Twin a k) (reason : String) :
    k.abandonEvents reason = h.abandonEvents reason := by
  unfold abandonEvents
  rw [hhk.operation, hhk.activity, hhk.request]

/-- Twins replace their sessions alike. -/
theorem replacing (hhk : h.Twin a k) (hst : s.Twin a t) :
    Option.Rel (Answers a (Builtin.machine draw) e [])
      (h.replacing (Builtin.machine draw) s) (k.replacing (Builtin.machine draw) t) := by
  have hheld : k.inherited = h.inherited := by
    unfold inherited
    rw [hhk.operation, hhk.held]
  have hloaded := hst.withHeld draw h.inherited
  have hreleased := hhk.released
  refine .some ⟨Woven.of_seen ?_, ?_⟩
  · simp only [Aspect.seen_append]
    rw [hhk.abandonEvents_eq, hheld, hst.seen_heldEvents, hloaded.seen_createdEvent]
  · rw [hheld]
    exact ⟨hreleased.stepLimit, .some hloaded, rfl, hreleased.activity, hreleased.request,
      hreleased.operation⟩

/-- Twins reset their sessions alike. -/
theorem resetting (hhk : h.Twin a k) (hst : s.Twin a t) :
    Option.Rel (Answers a (Builtin.machine draw) e [])
      (h.resetting (Builtin.machine draw) s) (k.resetting (Builtin.machine draw) t) := by
  have hreset := Builtin.silent_reset draw
  have hloaded := hst.withHeld draw h.held
  have hreleased := hhk.released
  refine .some ⟨Woven.of_seen ?_, ?_⟩
  · simp only [Aspect.seen_append, resetEvents]
    rw [hhk.abandonEvents_eq, hhk.held, hst.seen_heldEvents, hloaded.told_silent draw hreset,
      hloaded.result_eq hreset, hloaded.lang]
  · rw [hhk.held]
    exact ⟨hreleased.stepLimit, .some (hloaded.left hreset), rfl, hreleased.activity,
      hreleased.request, hreleased.operation⟩

/-- Twins reply alike to a button. -/
theorem press (hhk : h.Twin a k) (bound : Nat) (button : Button) (args : ButtonArgs) :
    Option.Rel
      (Answers a (Builtin.machine draw) (h.echoing k)
        (h.strides (.standard draw) bound (.press button args)))
      (h.reply (.standard draw) bound (.press button args))
      (k.reply (.standard draw) bound (.press button args)) := by
  have hwork := hhk.working draw bound (.press button args)
  unfold Host.reply
  dsimp only
  rcases hhk.sessions with ⟨hs, ht⟩ | ⟨s, t, hs, ht, hst⟩
  · have hstrides : h.strides (.standard draw) bound (.press button args) = [] := by
      unfold strides
      rw [hs]
      cases button <;> cases h.operation <;> rfl
    rw [hs, ht, hstrides]
    exact hhk.refusing _
  · rw [hs, ht]
    dsimp only
    rw [hst.lang, hst.capabilities, Catalogue.standard_machine, hst.minify_eq, hst.fromText_eq]
    cases button with
    | reset => exact hhk.resetting hst
    | minify => exact hhk.asking _ _ _ _ _ _
    | textToCode => exact hhk.asking _ _ _ _ _ _
    | interpret =>
      dsimp only
      rw [hhk.operation]
      cases hop : h.operation with
      | none => exact hwork
      | some op =>
        have hstrides : h.strides (.standard draw) bound (.press .interpret args) = [] := by
          simp only [strides, hop]
        rw [hstrides]
        exact hhk.refusing _
    | step =>
      dsimp only
      rw [hhk.operation]
      split
      · cases hop : h.operation with
        | none => exact hwork
        | some op =>
          have hstrides : h.strides (.standard draw) bound (.press .step args) = [] := by
            simp only [strides, hop]
          rw [hstrides]
          exact hhk.refusing _
      · rename_i hcap
        have hstrides : h.strides (.standard draw) bound (.press .step args) = [] := by
          cases hop : h.operation <;> simp only [strides, hop, hs, if_neg hcap]
        rw [hstrides]
        exact hhk.refusing _

/-- Twins reply alike to commands that are alike. -/
theorem reply (hhk : h.Twin a k) (bound : Nat) (hcommand : command.Alike a command') :
    Option.Rel
      (Answers a (Builtin.machine draw) (h.echoing k) (h.strides (.standard draw) bound command))
      (h.reply (.standard draw) bound command) (k.reply (.standard draw) bound command') := by
  cases hcommand with
  | setLanguage options =>
    rename_i lang o p
    unfold Host.reply
    dsimp only
    rcases Catalogue.standard_open_alike draw lang options with ⟨e, ho, hp⟩ | ⟨s, t, ho, hp, hst⟩
    · rw [ho, hp]
      exact hhk.refusing e
    · rw [ho, hp]
      exact hhk.replacing hst
  | loadCode =>
    rename_i source
    unfold Host.reply
    dsimp only
    rw [hhk.operation]
    cases h.operation with
    | some op =>
      exact .some ⟨Woven.of_seen rfl, hhk.stepLimit, hhk.session, rfl, hhk.activity, hhk.request,
        rfl⟩
    | none =>
      rcases hhk.sessions with ⟨hs, ht⟩ | ⟨s, t, hs, ht, hst⟩
      · rw [hs, ht]
        exact .some ⟨Woven.of_seen rfl, hhk.stepLimit, .none, rfl, hhk.activity, hhk.request, rfl⟩
      · rw [hs, ht]
        exact .some ⟨Woven.of_seen (hst.seen_heldEvents (some source)), hhk.stepLimit,
          .some (hst.withHeld draw (some source)), hhk.held, hhk.activity, hhk.request, rfl⟩
  | press =>
    rename_i button args
    exact hhk.press bound button args
  | unblock =>
    rename_i value popStatus
    have hwork := hhk.working draw bound (.unblock value popStatus)
    unfold Host.reply
    dsimp only
    rw [hhk.request]
    cases hr : Request.resolve h.request value with
    | ok answer => exact hwork
    | error e =>
      have hstrides : h.strides (.standard draw) bound (.unblock value popStatus) = [] := by
        unfold strides
        dsimp only
        rw [hr]
        cases h.operation <;> cases h.session <;> rfl
      rw [hstrides]
      exact hhk.refusing e

/-- Twins handle alike what commands are alike. -/
theorem handle (hhk : h.Twin a k) (draw : Nat → Befunge.Direction) (bound : Nat)
    (hcommand : command.Alike a command') (hh : h.Sound draw) (hk : k.Sound draw) :
    Option.Rel
      (Answers a (Builtin.machine draw) (h.echoing k) (h.strides (.standard draw) bound command))
      (h.handle (.standard draw) bound command) (k.handle (.standard draw) bound command') := by
  have hc := Catalogue.standard_reliable draw
  rw [handle_eq_reply hc hh.consistent hh.inStep, handle_eq_reply hc hk.consistent hk.inStep]
  exact hhk.reply bound hcommand

/-- A host echoes what its twin does not if its options alone say so, and its language has an
echo. -/
theorem echoing_eq (hhk : h.Twin a k) (hh : h.Sound draw) (hk : k.Sound draw)
    (hs : h.session = some s) (ht : k.session = some t) :
    h.echoing k = (t.options.flag "debug" && !s.options.flag "debug" &&
      decide (s.lang ∈ Catalogue.echoingLanguages)) := by
  rcases hhk.sessions with ⟨hs', -⟩ | ⟨s', t', hs', ht', hst⟩
  · rw [hs] at hs'
    cases hs'
  · obtain rfl : s = s' := Option.some.inj (hs.symm.trans hs')
    obtain rfl : t = t' := Option.some.inj (ht.symm.trans ht')
    unfold echoing
    rw [hs, ht]
    dsimp only
    unfold Session.echoing
    rw [(hh.optioned s hs).debug_eq, (hk.optioned t ht).debug_eq, hst.lang]
    cases t.options.flag "debug" <;> cases s.options.flag "debug" <;>
      cases decide (s.lang ∈ Catalogue.echoingLanguages) <;> rfl

/-- Only the aspect of the echo makes one of two twins echo alone. -/
theorem echoing_visuals (hhk : h.Twin .visuals k) : h.echoing k = false := by
  unfold echoing
  rcases hhk.sessions with ⟨hs, ht⟩ | ⟨s, t, hs, ht, hst⟩
  · rw [hs]
  · rw [hs, ht]
    dsimp only
    unfold Session.echoing
    rw [hst.debug rfl]
    cases s.state.debug <;> rfl

end Twin

/-- Hosts that agree in all that is not their client's alone: the machine in use, as far as it is
looked at, what is under way, the open request and the code held back. -/
structure Agree (look : Builtin → Builtin) (h k : Host Builtin) : Prop where
  machine : k.session.map (fun t => (t.lang, look t.state)) =
    h.session.map fun s => (s.lang, look s.state)
  operation : k.operation = h.operation
  activity : k.activity = h.activity
  request : k.request = h.request
  held : k.held = h.held

/-- A run of commands that are alike leaves twins. Apart from the visuals, the same events are
seen. -/
theorem twin_handleAll (draw : Nat → Befunge.Direction) (bound : Nat)
    {commands commands' : List Command} (hhk : h.Twin a k)
    (hcommands : List.Forall₂ (Command.Alike a) commands commands') (hh : h.Sound draw)
    (hk : k.Sound draw) :
    Option.Rel
      (fun (steps, h') (steps', k') => (h'.Twin a k' ∧ h'.Sound draw ∧ k'.Sound draw) ∧
        (a = .visuals → steps'.map a.seen = steps.map a.seen))
      (h.handleAll (.standard draw) bound commands)
      (k.handleAll (.standard draw) bound commands') := by
  induction hcommands generalizing h k with
  | nil => exact .some ⟨⟨hhk, hh, hk⟩, fun _ => rfl⟩
  | @cons command command' rest rest' hcommand _ ih =>
    have hone := hhk.handle draw bound hcommand hh hk
    unfold handleAll
    generalize hx : h.handle (.standard draw) bound command = here at hone ⊢
    generalize hy : k.handle (.standard draw) bound command' = there at hone ⊢
    cases hone with
    | none => exact .none
    | some hanswers =>
      rename_i x y
      obtain ⟨events, h'⟩ := x
      obtain ⟨events', k'⟩ := y
      obtain ⟨hwoven, htwin⟩ := hanswers
      refine rel_map (ih htwin (hh.handle hx) (hk.handle hy)) fun r r' hlater => ⟨hlater.1, ?_⟩
      intro ha
      subst ha
      rw [hhk.echoing_visuals] at hwoven
      exact congrArg₂ List.cons hwoven.seen_eq (hlater.2 rfl)

/-- New hosts are twins. -/
theorem new_twin (limit : Option Nat) : (Host.new limit).Twin a (Host.new limit) :=
  ⟨rfl, .none, rfl, rfl, rfl, rfl⟩

/-- Twins agree, if they are looked at without the echo of their machines. -/
theorem Twin.agree {look : Builtin → Builtin} (hhk : h.Twin a k)
    (hlook : ∀ s t : Session Builtin, s.Twin a t → look t.state = look s.state) :
    h.Agree look k := by
  refine ⟨?_, hhk.operation, hhk.activity, hhk.request, hhk.held⟩
  rcases hhk.sessions with ⟨hs, ht⟩ | ⟨s, t, hs, ht, hst⟩
  · rw [hs, ht]
  · rw [hs, ht, Option.map_some, Option.map_some, hst.lang, hlook s t hst]

end Host

/-- A machine without its echo. -/
def Builtin.muted : Builtin → Builtin
  | befunge s => befunge { s with debug := false }
  | brainfuck s => brainfuck s
  | element s => element s
  | length s => length { s with debug := false }

namespace Session.Twin

/-- Twins have the same machine, but for its echo. -/
theorem muted_eq (hst : s.Twin a t) : t.state.muted = s.state.muted := by
  rw [hst.state]
  cases s.state <;> rfl

/-- Twins that differ in the visuals have the same machine. -/
theorem state_eq (hst : s.Twin .visuals t) : t.state = s.state := by
  rw [hst.state, hst.debug rfl, Builtin.recast_self]

end Session.Twin

namespace Host

/-- Two hosts of the built-in languages are given the same commands, but for the options, which
differ in one aspect.

If it is the visuals, both hosts answer or neither does, their events are the same apart from the
updates and from what the event of a new machine says of the visuals, and they agree in their
machines, operations, activities, requests and held code.

If it is the echo, they agree in the same way, apart from the flag that turns the echo on. One host
echoes what the other does not if its options alone say so and its language has an echo. Whatever
command comes next, its events are then those of the other host with an echo before the events of
each instruction that is begun, and with nothing else. -/
theorem watching_observes (draw : Nat → Befunge.Direction) (bound : Nat) (limit : Option Nat)
    (commands commands' : List Command) :
    (List.Forall₂ (Command.Alike .visuals) commands commands' →
      Option.Rel
        (fun (steps, h) (steps', k) =>
          steps'.map Aspect.visuals.seen = steps.map Aspect.visuals.seen ∧ h.Agree id k)
        ((Host.new limit).handleAll (.standard draw) bound commands)
        ((Host.new limit).handleAll (.standard draw) bound commands')) ∧
    (List.Forall₂ (Command.Alike .debug) commands commands' →
      Option.Rel
        (fun (_, h) (_, k) => h.Agree Builtin.muted k ∧
          (∀ s t, h.session = some s → k.session = some t →
            h.echoing k = (t.options.flag "debug" && !s.options.flag "debug" &&
              decide (s.lang ∈ Catalogue.echoingLanguages))) ∧
          ∀ command command', command.Alike .debug command' →
            Option.Rel
              (fun (events, h') (events', k') => h'.Agree Builtin.muted k' ∧
                ∃ before after,
                  events = before ++ Session.stridesTold (Builtin.machine draw)
                    (h.strides (.standard draw) bound command) ++ after ∧
                  events' = before ++ Session.weave (Builtin.machine draw) (h.echoing k)
                    (h.strides (.standard draw) bound command) ++ after)
              (h.handle (.standard draw) bound command)
              (k.handle (.standard draw) bound command'))
        ((Host.new limit).handleAll (.standard draw) bound commands)
        ((Host.new limit).handleAll (.standard draw) bound commands')) := by
  have hmuted (s t : Session Builtin) (hst : s.Twin .debug t) : t.state.muted = s.state.muted :=
    hst.muted_eq
  refine ⟨fun hcommands => ?_, fun hcommands => ?_⟩
  · have hrun := twin_handleAll draw bound (new_twin limit) hcommands (new_sound draw limit)
      (new_sound draw limit)
    refine rel_imp hrun fun r r' ⟨⟨htwin, _, _⟩, hsteps⟩ => ⟨hsteps rfl, ?_⟩
    exact htwin.agree fun s t hst => hst.state_eq
  · have hrun := twin_handleAll draw bound (new_twin limit) hcommands (new_sound draw limit)
      (new_sound draw limit)
    refine rel_imp hrun fun r r' ⟨⟨htwin, hh, hk⟩, _⟩ =>
      ⟨htwin.agree hmuted, fun s t hs ht => htwin.echoing_eq hh hk hs ht, ?_⟩
    intro command command' hcommand
    refine rel_imp (htwin.handle draw bound hcommand hh hk) fun here there ⟨hwoven, htwin'⟩ =>
      ⟨htwin'.agree hmuted, ?_⟩
    -- Nothing is hidden but the visuals, so what is seen is what is there.
    obtain ⟨before, after, hevents, hseen⟩ := hwoven
    rw [Aspect.seen_debug, Aspect.seen_debug] at hseen
    exact ⟨before, after, hevents, hseen⟩

/-- The playfield language is chosen, and a program is run that adds, prints, and asks for a number
to print. -/
def sumThenAsk (options : Options) : List Command :=
  [.setLanguage "befunge" options, .press .interpret ⟨some "12+.&.@", none⟩]

/-- Options with one of them turned on. -/
def turnedOn (key : String) : Options :=
  ⟨[(key, .bool true)]⟩

/-- One option is all that an aspect is about. -/
theorem alike_sumThenAsk (a : Aspect) :
    List.Forall₂ (Command.Alike a) (sumThenAsk .empty) (sumThenAsk (turnedOn a.key)) := by
  refine .cons (.setLanguage ⟨fun key hk => ?_, fun _ hflag => (nomatch hflag)⟩) (.cons .press .nil)
  simp [turnedOn, Options.get?, Options.empty, Table.find?, hk]

/-- The run without options beside one that is watched or echoes, and the answer to the request of
both: each time the other host tells more. -/
theorem sumThenAsk_runs (a : Aspect) : ∃ steps h steps' k,
    (Host.new none).handleAll (.standard fun _ => .right) 40 (sumThenAsk .empty) = some (steps, h) ∧
      (Host.new none).handleAll (.standard fun _ => .right) 40 (sumThenAsk (turnedOn a.key)) =
        some (steps', k) ∧
      steps.flatten.length < steps'.flatten.length ∧ ∃ events h' events' k',
      h.handle (.standard fun _ => .right) 40 (.unblock (.ofNat 3) true) = some (events, h') ∧
        k.handle (.standard fun _ => .right) 40 (.unblock (.ofNat 3) true) = some (events', k') ∧
        events.length < events'.length := by
  have hruns : ((Host.new none).handleAll (.standard fun _ => .right) 40 (sumThenAsk .empty)).any
      (fun run => ((Host.new none).handleAll (.standard fun _ => .right) 40
        (sumThenAsk (turnedOn a.key))).any fun run' =>
          decide (run.1.flatten.length < run'.1.flatten.length) &&
          (run.2.handle (.standard fun _ => .right) 40 (.unblock (.ofNat 3) true)).any fun there =>
            (run'.2.handle (.standard fun _ => .right) 40 (.unblock (.ofNat 3) true)).any
              fun here => decide (there.1.length < here.1.length)) = true := by
    cases a <;> decide +kernel
  obtain ⟨⟨steps, h⟩, hrun, hruns⟩ := (Option.any_eq_true _ _).mp hruns
  obtain ⟨⟨steps', k⟩, hrun', hruns⟩ := (Option.any_eq_true _ _).mp hruns
  rw [Bool.and_eq_true, decide_eq_true_eq] at hruns
  obtain ⟨⟨events, h'⟩, hthere, hhere⟩ := (Option.any_eq_true _ _).mp hruns.2
  obtain ⟨⟨events', k'⟩, hhere, hmore⟩ := (Option.any_eq_true _ _).mp hhere
  exact ⟨steps, h, steps', k, hrun, hrun', hruns.1, events, h', events', k', hthere, hhere,
    of_decide_eq_true hmore⟩

/-- A playfield that is watched tells its updates beside what the other tells. One that echoes tells
the same with echoes among it, before and after the request is answered. -/
theorem watching_observes_field :
    (∃ steps h steps' k,
      (Host.new none).handleAll (.standard fun _ => .right) 40 (sumThenAsk .empty) =
        some (steps, h) ∧
      (Host.new none).handleAll (.standard fun _ => .right) 40
        (sumThenAsk (turnedOn "updateVisuals")) = some (steps', k) ∧
      steps.flatten.length < steps'.flatten.length ∧
      steps'.map Aspect.visuals.seen = steps.map Aspect.visuals.seen ∧ h.Agree id k) ∧
    ∃ steps h steps' k,
      (Host.new none).handleAll (.standard fun _ => .right) 40 (sumThenAsk .empty) =
        some (steps, h) ∧
      (Host.new none).handleAll (.standard fun _ => .right) 40 (sumThenAsk (turnedOn "debug")) =
        some (steps', k) ∧
      steps.flatten.length < steps'.flatten.length ∧ h.Agree Builtin.muted k ∧
      ∃ events h' events' k' before after,
        h.handle (.standard fun _ => .right) 40 (.unblock (.ofNat 3) true) = some (events, h') ∧
        k.handle (.standard fun _ => .right) 40 (.unblock (.ofNat 3) true) = some (events', k') ∧
        events.length < events'.length ∧ h'.Agree Builtin.muted k' ∧
        events = before ++ Session.stridesTold (Builtin.machine fun _ => .right)
          (h.strides (.standard fun _ => .right) 40 (.unblock (.ofNat 3) true)) ++ after ∧
        events' = before ++ Session.weave (Builtin.machine fun _ => .right) (h.echoing k)
          (h.strides (.standard fun _ => .right) 40 (.unblock (.ofNat 3) true)) ++ after := by
  obtain ⟨hvisuals, -⟩ := watching_observes (fun _ => .right) 40 none (sumThenAsk .empty)
    (sumThenAsk (turnedOn "updateVisuals"))
  obtain ⟨-, hdebug⟩ := watching_observes (fun _ => .right) 40 none (sumThenAsk .empty)
    (sumThenAsk (turnedOn "debug"))
  constructor
  · obtain ⟨steps, h, steps', k, hrun, hrun', hmore, -⟩ := sumThenAsk_runs .visuals
    have hseen := hvisuals (alike_sumThenAsk .visuals)
    rw [hrun, show (sumThenAsk (turnedOn "updateVisuals")) =
      sumThenAsk (turnedOn Aspect.visuals.key) from rfl, hrun'] at hseen
    cases hseen with
    | some hboth => exact ⟨steps, h, steps', k, hrun, hrun', hmore, hboth⟩
  · obtain ⟨steps, h, steps', k, hrun, hrun', hmore, events, h', events', k', hthere, hhere,
      hechoes⟩ := sumThenAsk_runs .debug
    have hagree := hdebug (alike_sumThenAsk .debug)
    rw [hrun, show (sumThenAsk (turnedOn "debug")) = sumThenAsk (turnedOn Aspect.debug.key) from rfl,
      hrun'] at hagree
    cases hagree with
    | some hboth =>
      have hnext := hboth.2.2 (.unblock (.ofNat 3) true) _ .unblock
      rw [hthere, hhere] at hnext
      cases hnext with
      | some hwoven =>
        obtain ⟨hagree', before, after, hevents, hevents'⟩ := hwoven
        exact ⟨steps, h, steps', k, hrun, hrun', hmore, hboth.1, events, h', events', k', before,
          after, hthere, hhere, hechoes, hagree', hevents, hevents'⟩

end Host

end EsotericHost
