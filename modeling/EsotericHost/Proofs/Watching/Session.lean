import EsotericHost.Proofs.Host.Strides
import EsotericHost.Proofs.Machine.Recast
import EsotericHost.Proofs.Rewinding.Machines

/-!
# Sessions that are watched differently

Two options let a client watch a machine: `updateVisuals` sends it the changes inside the machine,
and `debug` makes two of the languages echo the instructions that they begin. Sessions that differ
in one of these aspects are twins (`Session.Twin`). A call of the machine has the same result in
both and leaves twins; what it tells is the same, as far as it is seen apart from the aspect
(`Event.seen`), after the echo of an instruction that it begins (`Session.Twin.told_call`). By
induction so does a run, whose events are those of the plain one with the echoes woven in
(`Session.Twin.run`).
-/

namespace EsotericHost

variable {α : Type}

/-! ## Aspects -/

/-- What a client can have of a machine beside its work: the sight of the changes inside it, or the
echo of its instructions. -/
inductive Aspect where
  | visuals
  | debug
  deriving Repr, DecidableEq

/-- The option that turns an aspect on. -/
def Aspect.key : Aspect → String
  | .visuals => "updateVisuals"
  | .debug => "debug"

/-- An event as it is seen apart from an aspect. Apart from the visuals there are no updates, and
the event of a new machine does not tell whether it is watched, nor what is in its memory. -/
def Event.seen : Aspect → Event → Option Event
  | .visuals, .update _ => none
  | .visuals, .created lang _ _ => some (.created lang false none)
  | _, event => some event

/-- Events as they are seen apart from an aspect. -/
def Aspect.seen (a : Aspect) (events : List Event) : List Event := events.filterMap (Event.seen a)

/-- Options that differ in one aspect at most, and the second of which echo if the first do. -/
structure Options.Alike (a : Aspect) (o p : Options) : Prop where
  get_eq : ∀ key, key ≠ a.key → p.get? key = o.get? key
  echoes : a = .debug → o.flag "debug" = true → p.flag "debug" = true

namespace Aspect

variable {a : Aspect}

/-- Events one after the other are seen as those of the first and of the second row. -/
@[simp] theorem seen_append (events more : List Event) :
    a.seen (events ++ more) = a.seen events ++ a.seen more :=
  List.filterMap_append

/-- Apart from the echo, which is printed like any other text, everything is seen. -/
@[simp] theorem seen_debug (events : List Event) : Aspect.debug.seen events = events := by
  have hseen : Event.seen .debug = some := by
    funext event
    cases event <;> rfl
  unfold seen
  rw [hseen, List.filterMap_some]

end Aspect

variable {a : Aspect}

namespace Options.Alike

variable {o p : Options}

/-- Options that are alike have all flags in common but the one of the aspect. -/
theorem flag_eq (ho : o.Alike a p) {key : String} (hk : key ≠ a.key) : p.flag key = o.flag key := by
  unfold flag
  rw [ho.get_eq key hk]

/-- Options that are alike have all numbers in common, but under the key of the aspect. -/
theorem number_eq (ho : o.Alike a p) {key : String} (hk : key ≠ a.key) :
    p.number? key = o.number? key := by
  unfold number?
  rw [ho.get_eq key hk]

/-- Options that are alike have all texts in common, but under the key of the aspect. -/
theorem string_eq (ho : o.Alike a p) {key : String} (hk : key ≠ a.key) :
    p.string? key = o.string? key := by
  unfold string?
  rw [ho.get_eq key hk]

/-- In either aspect, the second options echo if the first do. -/
theorem echoes_of_flag (ho : o.Alike a p) (hflag : o.flag "debug" = true) :
    p.flag "debug" = true := by
  cases a with
  | visuals => exact (ho.flag_eq (by decide)).trans hflag
  | debug => exact ho.echoes rfl hflag

end Options.Alike

/-! ## The machines -/

namespace Builtin

variable {draw : Nat → Befunge.Direction}

/-- A call that does with the echo turned on what it does otherwise, after the texts that the echo
prints, and that turns no echo on or off. -/
structure Echoes (act : Act Upset Builtin α) (texts : Builtin → List String) : Prop where
  recast : ∀ e s, act (s.recast e 0) =
    ((act s).mapState (Builtin.recast e 0)).after (if e && !s.debug then texts s else [])
  debug : ∀ s, (act s).state.debug = s.debug

/-- A call that echoes nothing. -/
abbrev Silent (act : Act Upset Builtin α) : Prop := Echoes act fun _ => []

/-- Only the options say whether a machine echoes. -/
theorem debug_of_bare {s t : Builtin} (hst : s.bare = t.bare) : s.debug = t.debug := by
  have hbare (s : Builtin) : s.bare.debug = s.debug := by cases s <;> rfl
  rw [← hbare, hst, hbare]

/-- A load echoes nothing. -/
theorem silent_load (draw : Nat → Befunge.Direction) (source : String) :
    Silent (Session.load (machine draw) source) where
  recast e s := by
    have hload : Act.Follows (recast e 0) (Session.load (machine draw) source)
        (Session.load (machine draw) source) :=
      .bind (load_recast draw e 0 source) fun _ => reset_recast draw e 0
    rw [hload s, ite_self]
    rfl
  debug s := debug_of_bare ((rewinds draw).bare_loaded source s)

/-- A reset echoes nothing. -/
theorem silent_reset (draw : Nat → Befunge.Direction) : Silent (machine draw).reset where
  recast e s := by
    rw [reset_recast, ite_self]
    rfl
  debug s := debug_of_bare ((rewinds draw).bare_of_ready (rewinds draw s).ready_reset)

/-- An input echoes nothing. -/
theorem silent_resume (draw : Nat → Befunge.Direction) (input : Input) :
    Silent ((machine draw).resume input) where
  recast e s := by
    rw [resume_recast, ite_self]
    rfl
  debug s := debug_of_bare ((rewinds draw).bare_of_ready ((rewinds draw s).ready_resume input))

/-- A step echoes the instruction that it begins. -/
theorem echoes_step (draw : Nat → Befunge.Direction) : Echoes (machine draw).step echo where
  recast e s := step_recast draw e 0 s
  debug s := debug_of_bare ((rewinds draw).bare_of_ready (rewinds draw s).ready_step)

/-- A machine with its echo as it is, and all of its random directions before it. -/
theorem recast_self (s : Builtin) : s.recast s.debug 0 = s := by
  cases s with
  | befunge s => exact congrArg _ (show Befunge.State.recast s.debug 0 s = s by
      unfold Befunge.State.recast; rw [Bool.or_self]; rfl)
  | brainfuck s => rfl
  | element s => rfl
  | length s => exact congrArg _ (show Length.State.recast s.debug s = s by
      unfold Length.State.recast; rw [Bool.or_self])

/-- Only the machines that echo depend on whether they do. -/
theorem recast_debug (s : Builtin) (e : Bool) (he : s.debug = true → e = true) :
    s.recast (s.recast e 0).debug 0 = s.recast e 0 := by
  have hdebug : (e || s.debug) = e := by
    cases hs : s.debug with
    | true => rw [he hs]; rfl
    | false => exact Bool.or_false e
  cases s with
  | befunge s => exact congrArg (recast · 0 (.befunge s)) hdebug
  | brainfuck s => rfl
  | element s => rfl
  | length s => exact congrArg (recast · 0 (.length s)) hdebug

end Builtin

/-! ## Sessions -/

namespace Session

/-- Sessions of machines in the same state, which may be watched differently in one aspect. -/
structure Twin (a : Aspect) (s t : Session Builtin) : Prop where
  lang : t.lang = s.lang
  capabilities : t.capabilities = s.capabilities
  visualize : a = .debug → t.visualize = s.visualize
  debug : a = .visuals → t.state.debug = s.state.debug
  state : t.state = s.state.recast t.state.debug 0

/-- Whether a session echoes the instructions that its twin does not. -/
def echoing (s t : Session Builtin) : Bool := t.state.debug && !s.state.debug

/-- The events of an echo. -/
def echoed (e : Bool) (texts : List String) : List Event :=
  if e then texts.map .print else []

/-- The events of steps, each after the echo of the instruction that it begins. -/
def weave (m : Machine Builtin) (e : Bool) (strides : List (Session Builtin)) : List Event :=
  strides.flatMap fun s => echoed e s.state.echo ++ s.told m m.step

/-- Without an echo, the events of steps are their own. -/
theorem weave_false (m : Machine Builtin) (strides : List (Session Builtin)) :
    weave m false strides = stridesTold m strides := rfl

/-- The events of effects are the same, as far as they are seen, whether the client watches or
not. -/
theorem seen_effects (portray : Notice → List Update) {watched watched' : Bool}
    (hw : a = .debug → watched' = watched) (effects : List Effect) :
    a.seen (effects.flatMap (Effect.events watched' portray)) =
      a.seen (effects.flatMap (Effect.events watched portray)) := by
  cases a with
  | debug => rw [hw rfl]
  | visuals =>
    have hunseen (updates : List Update) : Aspect.visuals.seen (updates.map .update) = [] := by
      induction updates with
      | nil => rfl
      | cons update updates ih => exact ih
    have hone (watched : Bool) (notice : Notice) :
        Aspect.visuals.seen (Effect.events watched portray (.notify notice)) = [] := by
      cases watched with
      | true => exact hunseen _
      | false => rfl
    induction effects with
    | nil => rfl
    | cons effect effects ih =>
      rw [List.flatMap_cons, List.flatMap_cons, Aspect.seen_append, Aspect.seen_append, ih]
      cases effect with
      | print text => rfl
      | notify notice => rw [hone, hone]

namespace Twin

variable {draw : Nat → Befunge.Direction} {act : Act Upset Builtin α}
  {texts : Builtin → List String} {s t : Session Builtin}

/-- Twins make the same short text of a source. -/
theorem minify_eq (hst : s.Twin a t) (source : String) :
    (Builtin.machine draw).minify t.state source =
      (Builtin.machine draw).minify s.state source := by
  rw [hst.state]
  cases s.state <;> rfl

/-- Twins make the same code of a text. -/
theorem fromText_eq (hst : s.Twin a t) (text : String) :
    (Builtin.machine draw).fromText t.state text =
      (Builtin.machine draw).fromText s.state text := by
  rw [hst.state]
  cases s.state <;> rfl

/-- A call has the same result in twin sessions, and effects that differ by the echo. -/
theorem act_eq (hst : s.Twin a t) (hact : Builtin.Echoes act texts) :
    act t.state = ((act s.state).mapState (Builtin.recast t.state.debug 0)).after
      (if s.echoing t then texts s.state else []) := by
  have hrecast := hact.recast t.state.debug s.state
  rw [← hst.state] at hrecast
  exact hrecast

/-- A call has the same result in twins. -/
theorem result_eq (hst : s.Twin a t) (hact : Builtin.Echoes act texts) :
    (act t.state).result = (act s.state).result := by
  rw [hst.act_eq hact]
  rfl

/-- A call leaves twins. -/
theorem left (hst : s.Twin a t) (hact : Builtin.Echoes act texts) :
    (s.left act).Twin a (t.left act) where
  lang := hst.lang
  capabilities := hst.capabilities
  visualize := hst.visualize
  debug ha := (hact.debug t.state).trans ((hst.debug ha).trans (hact.debug s.state).symm)
  state := by
    change (act t.state).state = (act s.state).state.recast (act t.state).state.debug 0
    rw [hact.debug, hst.act_eq hact]
    rfl

/-- A call leaves it as it is whether a session echoes what its twin does not. -/
theorem echoing_left (hact : Builtin.Echoes act texts) :
    (s.left act).echoing (t.left act) = s.echoing t := by
  change ((act t.state).state.debug && !(act s.state).state.debug) = _
  rw [hact.debug, hact.debug]
  rfl

/-- A call tells the same in twin sessions, after the echo. -/
theorem told_call (hst : s.Twin a t) (draw : Nat → Befunge.Direction)
    (hact : Builtin.Echoes act texts) :
    a.seen (t.told (Builtin.machine draw) act) =
      a.seen (echoed (s.echoing t) (texts s.state) ++ s.told (Builtin.machine draw) act) := by
  have hleft : (t.left act).state = (s.left act).state.recast t.state.debug 0 := by
    change (act t.state).state = _
    rw [hst.act_eq hact]
    rfl
  have hprints (texts : List String) (watched : Bool) (portray : Notice → List Update) :
      (texts.map Effect.print).flatMap (Effect.events watched portray) = texts.map .print := by
    induction texts with
    | nil => rfl
    | cons text texts ih =>
      rw [List.map_cons, List.flatMap_cons, ih]
      rfl
  unfold told events
  rw [hleft, Builtin.portray_recast draw t.state.debug 0, hst.act_eq hact]
  -- The texts of the echo come first, and what follows is told in the one state as in the other.
  change a.seen (List.flatMap _ (List.map _ _ ++ (act s.state).effects)) = _
  rw [List.flatMap_append, hprints, Aspect.seen_append, Aspect.seen_append]
  have hshown := seen_effects ((Builtin.machine draw).portray (s.left act).state) hst.visualize
    (act s.state).effects
  unfold echoed
  cases s.echoing t with
  | true => exact congrArg _ hshown
  | false => exact congrArg _ hshown

/-- A call without an echo tells the same in twin sessions. -/
theorem told_silent (hst : s.Twin a t) (draw : Nat → Befunge.Direction)
    (hact : Builtin.Silent act) :
    a.seen (t.told (Builtin.machine draw) act) = a.seen (s.told (Builtin.machine draw) act) := by
  have htold := hst.told_call draw hact
  unfold echoed at htold
  rwa [List.map_nil, ite_self, List.nil_append] at htold

/-! ## Loads -/

/-- Held code leaves twins. -/
theorem withHeld (hst : s.Twin a t) (draw : Nat → Befunge.Direction) (held : Option String) :
    (s.withHeld (Builtin.machine draw) held).Twin a (t.withHeld (Builtin.machine draw) held) := by
  cases held with
  | none => exact hst
  | some source => exact hst.left (Builtin.silent_load draw source)

/-- Held code is loaded into twins with the same result. -/
theorem heldResult_eq (hst : s.Twin a t) (held : Option String) :
    t.heldResult (Builtin.machine draw) held = s.heldResult (Builtin.machine draw) held := by
  cases held with
  | none => rfl
  | some source => exact hst.result_eq (Builtin.silent_load draw source)

/-- The load of held code tells the same in twin sessions. -/
theorem seen_heldEvents (hst : s.Twin a t) (held : Option String) :
    a.seen (t.heldEvents (Builtin.machine draw) held) =
      a.seen (s.heldEvents (Builtin.machine draw) held) := by
  have htold : a.seen (t.heldTold (Builtin.machine draw) held) =
      a.seen (s.heldTold (Builtin.machine draw) held) := by
    cases held with
    | none => rfl
    | some source => exact hst.told_silent draw (Builtin.silent_load draw source)
  unfold heldEvents
  rw [Aspect.seen_append, Aspect.seen_append, htold, hst.heldResult_eq, hst.lang]

/-- A new machine is announced alike in twin sessions. -/
theorem seen_createdEvent (hst : s.Twin a t) :
    a.seen [t.createdEvent (Builtin.machine draw)] =
      a.seen [s.createdEvent (Builtin.machine draw)] := by
  have hmemory : (Builtin.machine draw).memory t.state = (Builtin.machine draw).memory s.state := by
    rw [hst.state]
    cases s.state <;> rfl
  unfold createdEvent
  rw [hmemory, hst.lang]
  cases a with
  | visuals => rfl
  | debug => rw [hst.visualize rfl]

/-! ## Runs -/

/-- A run takes the same course in twin sessions. Its events in the second one are those in the
first one with the echoes woven in. -/
theorem run (hst : s.Twin a t) (draw : Nat → Befunge.Direction) (bound : Nat) (budget : Budget)
    (out out' : Transcript) :
    Option.Rel
      (fun (answer, charged, s', _) (answer', charged', t', told) =>
        answer' = answer ∧ charged' = charged ∧ s'.Twin a t' ∧
          ∃ more : List Event, told = out' ++ more ∧
            a.seen more = a.seen (weave (Builtin.machine draw) (s.echoing t)
              (s.strides (Builtin.machine draw) bound budget)))
      (s.run (Builtin.machine draw) bound budget out)
      (t.run (Builtin.machine draw) bound budget out') := by
  -- The induction is on the bound, as the run recurses, from the twins that each step leaves.
  induction bound generalizing budget s t out out' with
  | zero => exact .none
  | succ bound ih =>
    have hstep := Builtin.echoes_step draw
    have hleft := hst.left hstep
    have htold := hst.told_call draw hstep
    unfold Session.run Session.strides weave
    simp only [call_eq, List.flatMap_cons]
    rw [hst.result_eq hstep]
    have hlast : ∃ more : List Event,
        out' ++ t.told (Builtin.machine draw) (Builtin.machine draw).step = out' ++ more ∧
        a.seen more = a.seen (echoed (s.echoing t) s.state.echo ++
          s.told (Builtin.machine draw) (Builtin.machine draw).step ++ []) :=
      ⟨_, rfl, by rw [List.append_nil]; exact htold⟩
    cases (Builtin.machine draw |>.step s.state).result with
    | error upset => exact .some ⟨rfl, rfl, hleft, hlast⟩
    | ok outcome =>
      cases outcome with
      | halted => exact .some ⟨rfl, rfl, hleft, hlast⟩
      | suspended kind => exact .some ⟨rfl, rfl, hleft, hlast⟩
      | progressed =>
        dsimp only
        cases budget.charge.exceeded? with
        | some limit => exact .some ⟨rfl, rfl, hleft, hlast⟩
        | none =>
          have hlater := ih hleft budget.charge
            (out ++ s.told (Builtin.machine draw) (Builtin.machine draw).step)
            (out' ++ t.told (Builtin.machine draw) (Builtin.machine draw).step)
          rw [echoing_left hstep] at hlater
          dsimp only
          generalize Session.run (Builtin.machine draw) bound budget.charge
            (s.left (Builtin.machine draw).step) _ = here at hlater ⊢
          generalize Session.run (Builtin.machine draw) bound budget.charge
            (t.left (Builtin.machine draw).step) _ = there at hlater ⊢
          cases hlater with
          | none => exact .none
          | some hr =>
            obtain ⟨hanswer, hbudget, htwin, more, htranscript, hseen⟩ := hr
            refine .some ⟨hanswer, hbudget, htwin, _, htranscript.trans
              (Transcript.append_append _ _ _), ?_⟩
            rw [Aspect.seen_append, htold, hseen, ← Aspect.seen_append]
            rfl

end Twin

end Session

end EsotericHost
