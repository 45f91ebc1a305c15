import EsotericHost.Proofs.Host.Requests
import EsotericHost.Proofs.Host.Traceless

/-!
# Commands that have an answer

The handling of a command has no answer only if a run passes the bound on its instructions or if the
machine crashes twice. `Handling.Total` says of a part that it has an answer from every host; all
parts are total but the run itself, and the run has an answer as soon as the work on the operation
has one (`Handling.drive_isSome`).

With machines that do not crash it follows that every command without work is answered, and that a
command with work is answered by that work (`Host.handle_of_effort`). Which course a command takes
is then settled by the host alone, and its answer is stated as an equation: `Host.handle_hold` and
`Host.handle_load` for code, `Host.handle_setLanguage` and `Host.handle_reset`.
-/

namespace EsotericHost

variable {σ α β : Type} {c : Catalogue σ} {m : Machine σ} {Good : σ → Prop}
  {waits : σ → Option InputKind} {bound : Nat} {h : Host σ} {s : Session σ} {op : Operation}
  {command : Command}

namespace Handling

/-- A part that has an answer from every host. -/
def Total (x : Handling σ α) : Prop :=
  ∀ h, (x h).isSome = true

/-- A sequence has an answer if its first part has one and the second one has one after it. -/
theorem bind_isSome {x : Handling σ α} {f : α → Handling σ β} (hx : (x h).isSome = true)
    (hf : ∀ a h', x h = some (.ok a, h') → (f a h').isSome = true) :
    ((x >>= f) h).isSome = true := by
  obtain ⟨⟨answer, h'⟩, hx⟩ := Option.isSome_iff_exists.mp hx
  cases answer with
  | ok a =>
    rw [bind_of_ok hx]
    exact hf a h' hx
  | error stop =>
    rw [bind_of_stop hx]
    rfl

/-- A sequence of total parts is total. -/
theorem total_bind {x : Handling σ α} {f : α → Handling σ β} (hx : Total x)
    (hf : ∀ a, Total (f a)) : Total (x >>= f) :=
  fun h => bind_isSome (hx h) fun a h' _ => hf a h'

/-- To give a value has an answer. -/
theorem total_pure (a : α) : Total (pure a : Handling σ α) := fun _ => rfl

/-- To look at the host has an answer. -/
theorem total_get : Total (get : Handling σ (Host σ)) := fun _ => rfl

/-- To change the host has an answer. -/
theorem total_modify (f : Host σ → Host σ) : Total (modify f) := fun _ => rfl

/-- A change that is made or left out before a total part. -/
theorem total_modifyIf (b : Bool) (g : Host σ → Host σ) {f : Unit → Handling σ β}
    (hf : Total (f ())) : Total (if b then modify g >>= f else f ()) := by
  cases b with
  | true => exact total_bind (total_modify g) fun _ => hf
  | false => exact hf

/-- To stop is an answer, too. -/
theorem total_stop (stop : Stop) : Total (Handling.stop stop : Handling σ α) := fun _ => rfl

/-- What may be refused has an answer either way. -/
theorem total_ofExcept (x : Except HostError α) : Total (ofExcept x : Handling σ α) := by
  cases x with
  | ok a => exact total_pure a
  | error e => exact total_stop _

/-- To settle a result has an answer, also if it is a crash. -/
theorem total_settle (answer : Except Upset α) :
    Total (settle answer : Handling σ (Except Fault α)) := by
  match answer with
  | .ok a => exact total_pure _
  | .error (.fault fault) => exact total_pure _
  | .error (.crash message) => exact total_stop _

/-- A call of the machine in use is answered, by a crash if by nothing else. -/
theorem total_call (m : Machine σ) (act : Act Upset σ α) (s : Session σ) :
    Total (call m act s) := by
  intro h
  rw [call_apply]
  exact total_settle _ _

/-- A call of the machine has an answer, whatever it comes to. -/
theorem total_callOn (m : Machine σ) (act : Act Upset σ α) (s : Session σ) :
    Total (callOn m act s) := by
  intro h
  rw [callOn_apply]
  exact total_bind (total_settle _) (fun answer => total_pure _) _

/-- Held code is loaded, or not, with an answer. -/
theorem total_loadHeld (m : Machine σ) : Total (loadHeld m) := by
  apply total_bind total_get
  intro h
  split
  · apply total_bind (total_modify _)
    intro _
    apply total_bind (total_call m _ _)
    intro answer
    cases answer with
    | ok _ => exact total_pure _
    | error fault => exact total_modify _
  · exact total_pure _

/-- To close an operation has an answer. -/
theorem total_close (task : Task) (ending : Ending) : Total (close task ending (σ := σ)) := by
  intro h
  rw [close_apply]
  rfl

/-- The end of an operation is answered. -/
theorem total_finish (m : Machine σ) (ending : Ending) : Total (finish m ending) := by
  apply total_bind total_get
  intro h
  split
  · exact total_pure _
  · apply total_bind (total_modify _)
    intro _
    apply total_bind (total_modify _)
    intro _
    exact total_bind (total_close _ _) fun _ => total_loadHeld m

/-- To abandon an operation has an answer, also if there is none. -/
theorem total_abandon (reason : String) : Total (abandon reason (σ := σ)) := by
  intro h
  rw [abandon_apply]
  rfl

/-- To suspend an operation has an answer. -/
theorem total_suspend (m : Machine σ) (kind : InputKind) : Total (suspend m kind) := by
  apply total_bind total_get
  intro h
  split
  · apply total_bind (total_modify _)
    intro _
    exact total_bind (total_modify _) fun _ => total_modify _
  · exact total_finish m _

/-- Whatever the machine answers, the host makes something of it. -/
theorem total_conclude (m : Machine σ) (lang : String) (answer : Except Fault Outcome) :
    Total (conclude m lang answer) := by
  match answer with
  | .ok (.suspended kind) => exact total_suspend m kind
  | .ok .halted => exact total_finish m _
  | .ok .progressed => exact total_finish m _
  | .error fault => exact total_finish m _

/-- The host works on the operation in flight with an answer just if the machine does. -/
theorem drive_isSome (hop : h.operation = some op) (hs : h.session = some s) :
    (drive m bound h).isSome = (s.toil m bound op).isSome := by
  unfold drive
  rw [get_bind, hop, hs]
  dsimp only
  unfold Session.toil
  cases htask : op.task with
  | run =>
    dsimp only
    cases hrun : s.run m bound op.budget #[] with
    | none =>
      rw [bind_of_none (run_of_none m bound op s hrun h)]
      rfl
    | some r =>
      obtain ⟨answer, budget, s', more⟩ := r
      rw [bind_congr _ (run_of_some m bound op s hrun h)]
      exact total_bind (total_settle _) (total_conclude m _) _
  | step => exact total_bind (total_call m _ _) (total_conclude m _) h

/-! ## Commands without work -/

/-- To ask for the session has an answer, also if there is none. -/
theorem total_needSession (action : String) : Total (needSession action (σ := σ)) := by
  apply total_bind total_get
  intro h
  split
  · exact total_pure _
  · exact total_stop _

/-- To ask the machine for what it may not support has an answer. -/
theorem total_needAnswer (supported : Bool) (answer : Except Crash (Option String))
    (lang capability : String) : Total (needAnswer supported answer lang capability (σ := σ)) := by
  unfold needAnswer
  split
  · exact total_stop _
  · split
    · exact total_pure _
    · exact total_stop _
    · exact total_stop _

/-- To install a session has an answer. -/
theorem total_install (s : Session σ) : Total (setLanguage.install c s) := by
  intro h
  rw [install_apply]
  rfl

/-- A language is refused or opened. -/
theorem total_setLanguage (c : Catalogue σ) (lang : String) (options : Options) :
    Total (setLanguage c lang options) := by
  apply total_bind (total_ofExcept _)
  intro s
  apply total_bind (total_abandon _)
  intro abandoned
  -- Whatever was given up, the held code is looked at next.
  apply total_modifyIf
  apply total_bind total_get
  intro h
  split
  · exact total_install s
  · apply total_bind (total_modify _)
    intro _
    apply total_bind (total_callOn _ _ _)
    rintro ⟨answer, s'⟩
    cases answer with
    | ok _ => exact total_install s'
    | error fault => exact total_bind (total_modify _) fun _ => total_install s'

/-- Code is held back, loaded or refused. -/
theorem total_loadCode (m : Machine σ) (source : String) : Total (loadCode m source) := by
  apply total_bind total_get
  intro h
  split
  · apply total_bind (total_call m _ _)
    intro answer
    cases answer with
    | ok _ => exact total_pure _
    | error fault => exact total_stop _
  · exact total_modify _

/-- A reset is refused or carried out. -/
theorem total_resetButton (m : Machine σ) : Total (resetButton m) := by
  apply total_bind (total_needSession _)
  intro s
  apply total_bind (total_abandon _)
  intro _
  apply total_bind (total_loadHeld m)
  intro _
  apply total_bind total_get
  intro h
  split
  · exact total_bind (total_call m _ _) fun _ => total_modify _
  · exact total_modify _

/-- A question is refused, answered or crashes the machine. -/
theorem total_asked (supported : Bool) (answer : Except Crash (Option String))
    (lang capability line : String) (result : String → Event) :
    Total (needAnswer supported answer lang capability >>= fun code =>
      print line >>= fun _ => emit (result code) : Handling σ Unit) :=
  total_bind (total_needAnswer _ _ _ _) fun _ => total_bind (total_modify _) fun _ => total_modify _

/-! ## Commands with work -/

/-- The host at work on an operation has an answer just if the machine's work has one. -/
theorem drive_atWork (labels : Activity) (opening : List Event) (hs : h.session = some s) :
    (drive m bound (h.atWork op labels opening)).isSome = (s.toil m bound op).isSome := by
  have hop : (h.atWork op labels opening).operation = some op := rfl
  have hs' : (h.atWork op labels opening).session = some s := hs
  exact drive_isSome hop hs'

/-- A call that prepares work, and the work, have an answer if the work has one. -/
theorem call_isSome {act : Act Upset σ Unit} {error : Fault → HostError}
    {proceed : Except Fault Unit → Handling σ Unit} {next : Session σ → Option (Stretch σ)}
    (hw : (s.toilAfter m op error act next).isSome = true)
    (hok : (next (s.left act)).isSome = true →
      (proceed (.ok ()) (h.called m act s)).isSome = true)
    (herror : ∀ fault, Total (proceed (.error fault))) :
    ((call m act s >>= proceed) h).isSome = true := by
  rw [bind_congr _ (call_apply m act s h)]
  unfold Session.toilAfter at hw
  match hr : (act s.state).result with
  | .ok _ =>
    rw [hr] at hw
    rw [bind_of_ok (settle_ok _ _)]
    exact hok (by simpa using hw)
  | .error (.fault fault) =>
    rw [bind_of_ok (settle_fault fault _)]
    exact herror fault _
  | .error (.crash message) =>
    rw [bind_of_stop (settle_crash message _)]
    rfl

/-- The button that runs has an answer if its work has one. -/
theorem interpretButton_isSome {args : ButtonArgs} {e : Effort σ} (hh : h.Consistent)
    (he : h.effort? c bound (.press .interpret args) = some e) :
    (interpretButton c.machine bound args.code h).isSome = true := by
  simp only [Host.effort?] at he
  split at he
  · rename_i s hop hs
    obtain ⟨-, -, -, hw⟩ := Effort.of_beginEffort he
    unfold interpretButton
    rw [bind_of_ok (needSession_of_some _ hs), bind_of_ok (needIdle_of_none _ hop),
      bind_of_ok (print_apply _ _),
      bind_of_ok (begin_apply .run s.lang _ (hh.request_of_idle hop))]
    cases hcode : args.code with
    | none =>
      rw [hcode] at hw
      exact (drive_atWork _ _ hs).trans (Option.isSome_of_eq_some hw)
    | some source =>
      rw [hcode] at hw
      dsimp only at hw ⊢
      apply call_isSome (Option.isSome_of_eq_some hw)
      · intro hnext
        rw [drive_isSome rfl rfl]
        exact hnext
      · intro fault
        exact total_finish _ _
  · cases he

/-- The button that takes a step has an answer if its work has one. -/
theorem stepButton_isSome {args : ButtonArgs} {e : Effort σ} (hh : h.Consistent)
    (he : h.effort? c bound (.press .step args) = some e) :
    (stepButton c.machine bound h).isSome = true := by
  simp only [Host.effort?] at he
  split at he
  · rename_i s hop hs
    split at he
    · rename_i hcap
      obtain ⟨-, -, -, hw⟩ := Effort.of_beginEffort he
      unfold stepButton
      rw [bind_of_ok (needSession_of_some _ hs), if_neg (not_not_intro hcap),
        bind_of_ok (needIdle_of_none _ hop), ← h.say_nil,
        bind_of_ok (begin_apply .step s.lang _ (hh.request_of_idle hop))]
      exact (drive_atWork _ _ hs).trans (Option.isSome_of_eq_some hw)
    · cases he
  · cases he

/-- An answer to the open request has an answer itself if the work that follows it has one. -/
theorem unblock_isSome {value : Json} {popStatus : Bool} {e : Effort σ}
    (he : h.effort? c bound (.unblock value popStatus) = some e) :
    (unblock c.machine bound value popStatus h).isSome = true := by
  simp only [Host.effort?] at he
  split at he
  · rename_i op s kind input hop hs hr
    obtain ⟨w, hw, -⟩ := Option.map_eq_some_iff.mp he
    have hanswer : (ofExcept (.ok (kind, input)) : Handling σ (InputKind × Input)) h =
        some (.ok (kind, input), h) := rfl
    unfold unblock
    rw [get_bind, hr, bind_of_ok hanswer]
    dsimp only
    rw [answered_apply popStatus _ hop, hs]
    dsimp only
    apply call_isSome (Option.isSome_of_eq_some hw)
    · intro hnext
      rw [hop]
      dsimp only
      cases htask : op.task with
      | run =>
        rw [htask] at hnext
        dsimp only at hnext ⊢
        rw [drive_isSome rfl rfl]
        exact hnext
      | step => exact total_finish _ _ _
    · intro fault
      rw [hop]
      exact total_finish _ _
  · cases he

/-- A command is dispatched with an answer if its work has one. -/
theorem dispatch_of_effort {e : Effort σ} (hh : h.Consistent)
    (he : h.effort? c bound command = some e) :
    (dispatch c bound command h).isSome = true := by
  match command with
  | .press .interpret args => exact interpretButton_isSome hh he
  | .press .step args => exact stepButton_isSome hh he
  | .unblock value popStatus => exact unblock_isSome he
  | .press .minify args =>
    exact total_bind (total_needSession _) (fun s => total_asked _ _ _ _ _ _) h
  | .press .textToCode args =>
    exact total_bind (total_needSession _) (fun s => total_asked _ _ _ _ _ _) h
  | .press .reset args => exact total_resetButton _ h
  | .setLanguage lang options => exact total_setLanguage c lang options h
  | .loadCode source => exact total_loadCode _ source h

end Handling

namespace Host

/-- A command that is dispatched with an answer has an answer, since the machine does not crash. -/
theorem handle_of_dispatch (hc : c.Reliable Good waits) (hh : h.Consistent)
    (hs : h.InStep Good waits) (hd : (Handling.dispatch c bound command h).isSome = true) :
    ∃ events h', h.handle c bound command = some (events, h') := by
  obtain ⟨⟨answer, h'⟩, hd⟩ := Option.isSome_iff_exists.mp hd
  cases answer with
  | ok _ =>
    refine ⟨h'.transcript.toList, { h' with transcript := #[] }, ?_⟩
    unfold handle
    rw [Handling.handleCommand_eq, hd]
    rfl
  | error stop =>
    obtain ⟨e, -, -, hx⟩ := handle_of_stop hc hh hs hd
    exact ⟨_, _, hx⟩

/-- A command that makes the machine work is answered by the work. -/
theorem handle_of_effort {e : Effort σ} (hc : c.Reliable Good waits) (hh : h.Consistent)
    (hs : h.InStep Good waits) (he : h.effort? c bound command = some e) :
    h.handle c bound command = some (e.events c.machine h.held, e.leaves c.machine h) := by
  obtain ⟨events, h', hx⟩ := handle_of_dispatch hc hh hs (Handling.dispatch_of_effort hh he)
  rcases (handle_course hh hx).operations hh hx with
    ⟨hnone, -⟩ | ⟨hnone, -⟩ | ⟨e', he', -, rfl, rfl, -⟩
  · rw [he] at hnone
    cases hnone
  · rw [he] at hnone
    cases hnone
  · obtain rfl : e' = e := Option.some.inj (he'.symm.trans he)
    exact hx

/-- The work of a run without code of its own. -/
theorem effort_interpret {text : Option String} (hop : h.operation = none)
    (hs : h.session = some s) :
    h.effort? c bound (.press .interpret ⟨none, text⟩) =
      (s.toil c.machine bound (h.beginning .run s.lang)).map fun w =>
        ⟨h.beginning .run s.lang, h.activity.push (Task.run.label s.lang),
          [.print s!"\n> interpreter execute --lang {s.lang} --file ./userInput\n",
            .status (Task.run.label s.lang)], w⟩ := by
  simp only [effort?, hop, hs]
  rfl

/-- A run that begins has an answer only if the machine's work has one. -/
theorem effort_of_interpret {args : ButtonArgs} {events : List Event} {h' : Host σ}
    (hh : h.Consistent) (hop : h.operation = none) (hs : h.session = some s)
    (hx : h.handle c bound (.press .interpret args) = some (events, h')) :
    ∃ e, h.effort? c bound (.press .interpret args) = some e := by
  have hd : (Handling.interpretButton c.machine bound args.code h).isSome = true := by
    unfold handle at hx
    rw [Handling.handleCommand_eq] at hx
    cases hd : Handling.dispatch c bound (.press .interpret args) h with
    | none =>
      rw [hd] at hx
      cases hx
    | some answer => exact Option.isSome_of_eq_some hd
  unfold Handling.interpretButton at hd
  rw [Handling.bind_of_ok (Handling.needSession_of_some _ hs),
    Handling.bind_of_ok (Handling.needIdle_of_none _ hop),
    Handling.bind_of_ok (Handling.print_apply _ _),
    Handling.bind_of_ok (Handling.begin_apply .run s.lang _ (hh.request_of_idle hop))] at hd
  apply Option.isSome_iff_exists.mp
  simp only [effort?, hop, hs, beginEffort, Option.isSome_map]
  cases hcode : args.code with
  | none =>
    rw [hcode] at hd
    exact (Handling.drive_atWork _ _ hs).symm.trans hd
  | some source =>
    rw [hcode] at hd
    dsimp only at hd ⊢
    unfold Session.toilAfter
    cases hr : (Session.load c.machine source s.state).result with
    | error upset => rfl
    -- Code that loads is run, and the run is what may have no answer.
    | ok _ =>
      rw [Handling.bind_congr _ (Handling.call_apply _ _ s _), hr,
        Handling.bind_of_ok (Handling.settle_ok _ _)] at hd
      dsimp only at hd ⊢
      rw [Handling.drive_isSome rfl rfl] at hd
      rw [Option.isSome_map]
      exact hd

/-! ## Answers to commands without work -/

/-- Code is held back from a busy machine, and from none at all, without an event. -/
theorem handle_hold (source : String) (hh : h.Consistent)
    (hb : h.operation.isSome ∨ h.session = none) :
    h.handle c bound (.loadCode source) = some ([], { h with held := some source }) := by
  obtain ⟨limit, session, held, activity, request, operation, out⟩ := h
  obtain rfl : out = #[] := hh.delivered
  unfold handle
  rw [Handling.handleCommand_eq, Handling.loadCode_of_held source hb]
  rfl

/-- A command whose rescue leaves a host with some events to deliver is answered by these. -/
theorem handle_of_rescue {k : Host σ} {events : List Event}
    (hx : Handling.rescue c.machine (Handling.dispatch c bound command h) =
      some (.ok (), k.say events)) (h0 : k.transcript = #[]) :
    h.handle c bound command = some (events, k) := by
  obtain ⟨limit, session, held, activity, request, operation, out⟩ := k
  obtain rfl : out = #[] := h0
  unfold handle
  rw [Handling.handleCommand_eq, hx]
  simp [say]

/-- Code is loaded into a free machine at once, with or without success. -/
theorem handle_load (source : String) (hh : h.Consistent) (hop : h.operation = none)
    (hsession : h.session = some s) :
    h.handle c bound (.loadCode source) = some (s.heldEvents c.machine (some source),
      { h with session := some (s.withHeld c.machine (some source)) }) :=
  handle_of_rescue (Handling.rescue_loadCode hop (hh.request_of_idle hop) hsession) hh.delivered

/-- A language that there is takes the place of the one in use, with the code that was waiting for
it. -/
theorem handle_setLanguage (bound : Nat) {lang : String} {options : Options}
    (hc : c.Reliable Good waits) (hh : h.Consistent) (hs : h.InStep Good waits)
    (ho : c.openSession lang options = .ok s) :
    h.handle c bound (.setLanguage lang options) =
      some (h.abandonEvents "setLanguage" ++ s.heldEvents c.machine h.inherited ++
          [(s.withHeld c.machine h.inherited).createdEvent c.machine],
        h.released.seated (s.withHeld c.machine h.inherited)) := by
  have hd : (Handling.dispatch c bound (.setLanguage lang options) h).isSome = true :=
    Handling.total_setLanguage c lang options h
  obtain ⟨events, h', hx⟩ := handle_of_dispatch hc hh hs hd
  cases handle_course hh hx with
  | refused dispatched idle kept =>
    have hrefuses := refuses_of_dispatch dispatched
    rw [refuses_setLanguage hh ho] at hrefuses
    cases hrefuses
  | opened session loads =>
    obtain rfl := Except.ok.inj (session.symm.trans ho)
    exact hx
  | openCrashed session crash =>
    exact absurd crash (Session.heldResult_ne_crash hc.lawful (hc.opens session).good _ _)
  | worked effort => cases effort

/-- A reset gives up what is in flight, loads the held code and resets the machine. -/
theorem handle_reset (args : ButtonArgs) (hc : c.Reliable Good waits) (hh : h.Consistent)
    (hs : h.InStep Good waits) (hsession : h.session = some s) :
    h.handle c bound (.press .reset args) =
      some (h.abandonEvents "reset" ++ s.heldEvents c.machine h.held ++
          resetEvents c.machine (s.withHeld c.machine h.held),
        h.released.seated ((s.withHeld c.machine h.held).left c.machine.reset)) := by
  have hd : (Handling.dispatch c bound (.press .reset args) h).isSome = true :=
    Handling.total_resetButton c.machine h
  obtain ⟨events, h', hx⟩ := handle_of_dispatch hc hh hs hd
  cases handle_course hh hx with
  | refused dispatched idle kept =>
    -- With a session in use there is nothing to refuse.
    have hreset : Handling.dispatch c bound (.press .reset args) h = _ :=
      Handling.bind_of_ok (Handling.needSession_of_some _ hsession)
    rw [hreset] at dispatched
    have hholds : Handling.Holds (fun s => Good s.state) h := fun s hs' => (hs s hs').good
    obtain ⟨message, hstop, hfalse⟩ :=
      (Handling.proceeds_resetWith hc.keeps s.lang h _ _ hholds dispatched).2 _ rfl
    exact hfalse.elim
  | crashed question dispatched operation => rcases question with hq | hq <;> cases hq
  | reset session loads =>
    obtain rfl := Option.some.inj (session.symm.trans hsession)
    exact hx
  | resetCrashed session crash =>
    exact absurd crash (Session.heldResult_ne_crash hc.lawful (hs _ session).good _ _)
  | worked effort => cases effort

end Host

end EsotericHost
