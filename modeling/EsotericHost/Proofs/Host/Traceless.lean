import EsotericHost.Host.Message
import EsotericHost.Proofs.Host.Attunement
import EsotericHost.Proofs.Machine.Builtin

/-!
# Commands without a trace

A command that is refused is answered by one error and leaves the host as it was, down to the state
of the machine: code that does not load into a lawful machine has not touched it
(`Handling.Refusal.kept`). The questions that the host puts to a machine leave it as it was as well,
and so does a text that is no command. Any number of such messages may come between a request and
its answer (`Host.receiveAll_traceless`).
-/

namespace EsotericHost

variable {σ α : Type} {c : Catalogue σ} {m : Machine σ} {Good : σ → Prop}
  {waits : σ → Option InputKind} {bound : Nat} {h h' : Host σ} {s : Session σ}
  {command : Command} {e : HostError}

/-! ## Refused commands -/

/-- A call that neither changes the state nor has effects leaves the host as it was. -/
theorem Host.called_eq {act : Act Upset σ α} {result : Except Upset α}
    (hs : h.session = some s) (hact : act s.state = ⟨result, s.state, []⟩) :
    h.called m act s = h := by
  have hleft : s.left act = s := by
    unfold Session.left
    rw [hact]
  have htold : s.told m act = [] := by
    unfold Session.told
    rw [hact]
    rfl
  unfold called
  rw [hleft, htold, say_nil, ← hs]

/-- A refused command leaves a host with a lawful machine as it was. -/
theorem Handling.Refusal.kept (hc : c.Reliable Good waits) (hs : h.InStep Good waits)
    (hr : Refusal c h command e h') : h' = h := by
  cases hr with
  | language opening => rfl
  | noSession session => rfl
  | busy session operation => rfl
  | unsupported session => rfl
  | answer resolve => rfl
  | code operation session load =>
    rename_i source s fault
    -- The machine has refused the code, so it has neither changed nor said anything.
    rcases (hc.lawful s.state (hs s session).good).load_cases source with ⟨hok, -⟩ | ⟨_, hload⟩
    · rw [hok] at load
      cases load
    · exact Host.called_eq session hload

/-- A command that stops is answered by one error, and the host stays as it was. -/
theorem Host.handle_of_stop {stop : Stop} (hc : c.Reliable Good waits) (hh : h.Consistent)
    (hs : h.InStep Good waits)
    (hd : Handling.dispatch c bound command h = some (.error stop, h')) :
    ∃ e, stop = .refused e ∧ h' = h ∧ h.handle c bound command = some ([.error e.message], h) := by
  cases stop with
  | refused e =>
    obtain rfl := (Handling.refusal_of_dispatch hh hd).kept hc hs
    exact ⟨e, rfl, rfl, handle_of_refused hh hd⟩
  | crashed message => exact absurd hd (hc.dispatch_ne_crashed hh hs message)

/-! ## Questions -/

/-- The end of a command that has gone well. -/
theorem Host.handle_of_ok {events : List Event} (hh : h.Consistent)
    (hd : Handling.dispatch c bound command h = some (.ok (), h.say events)) :
    h.handle c bound command = some (events, h) := by
  obtain ⟨limit, session, held, activity, request, operation, out⟩ := h
  obtain rfl : out = #[] := hh.delivered
  unfold handle
  rw [Handling.handleCommand_eq, hd]
  simp [Handling.rescue, say]

/-- A question to a machine that does not crash over it is refused, or answered by an echo and the
result. -/
theorem Handling.asked_cases {supported : Bool} {answer : Except Crash (Option String)}
    {lang capability line : String} {result : String → Event} {x : Handling σ Unit}
    (ha : ∃ code, answer = .ok code)
    (hx : x h = (needAnswer supported answer lang capability >>= fun code =>
      print line >>= fun _ => emit (result code)) h) :
    (∃ e, x h = some (.error (.refused e), h)) ∨
      ∃ code, answer = .ok (some code) ∧ x h = some (.ok (), h.say [.print line, result code]) := by
  obtain ⟨answer, rfl⟩ := ha
  cases supported with
  | false => exact .inl ⟨.notSupported lang capability, hx⟩
  | true =>
    cases answer with
    | none => exact .inl ⟨.notSupported lang capability, hx⟩
    | some code =>
      have hn : needAnswer true (.ok (some code)) lang capability h = some (.ok code, h) := rfl
      rw [bind_of_ok hn, bind_of_ok (print_apply _ _), emit_apply, Host.say_say] at hx
      exact .inr ⟨code, rfl, hx⟩

/-- A request to shorten a program is refused, or answered by an echo and the program. -/
theorem Host.handle_minify (hc : c.Reliable Good waits) (hh : h.Consistent)
    (hs : h.InStep Good waits) (args : ButtonArgs) :
    (∃ e : HostError, h.handle c bound (.press .minify args) = some ([.error e.message], h)) ∨
      ∃ s code, h.session = some s ∧
        c.machine.minify s.state (args.code.getD "") = .ok (some code) ∧
        h.handle c bound (.press .minify args) =
          some ([.print s!"> interpreter minify --lang {s.lang} --file ./userInput\n",
            .minified code], h) := by
  cases hsession : h.session with
  | none => exact .inl ⟨_, handle_of_refused hh (Handling.press_of_none .minify args hsession)⟩
  | some s =>
    have hanswer := (hc.lawful s.state (hs s hsession).good).minify_ok (args.code.getD "")
    rcases Handling.asked_cases hanswer (Handling.minify_apply hsession) with
      ⟨e, hd⟩ | ⟨code, hcode, hd⟩
    · exact .inl ⟨e, handle_of_refused hh hd⟩
    · exact .inr ⟨s, code, rfl, hcode, handle_of_ok hh hd⟩

/-- A request for a program that prints a text is refused, or answered by an echo and the
program. -/
theorem Host.handle_textToCode (hc : c.Reliable Good waits) (hh : h.Consistent)
    (hs : h.InStep Good waits) (args : ButtonArgs) :
    (∃ e : HostError, h.handle c bound (.press .textToCode args) = some ([.error e.message], h)) ∨
      ∃ s code, h.session = some s ∧
        c.machine.fromText s.state (args.text.getD "") = .ok (some code) ∧
        h.handle c bound (.press .textToCode args) =
          some ([.print s!"> interpreter --from-text ./userText.txt --lang {s.lang}\n",
            .fromText s.lang code], h) := by
  cases hsession : h.session with
  | none =>
    exact .inl ⟨_, handle_of_refused hh (Handling.press_of_none .textToCode args hsession)⟩
  | some s =>
    have hanswer := (hc.lawful s.state (hs s hsession).good).fromText_ok (args.text.getD "")
    rcases Handling.asked_cases hanswer (Handling.textToCode_apply hsession) with
      ⟨e, hd⟩ | ⟨code, hcode, hd⟩
    · exact .inl ⟨e, handle_of_refused hh hd⟩
    · exact .inr ⟨s, code, rfl, hcode, handle_of_ok hh hd⟩

/-! ## Messages -/

/-- What a client may send: a command, or a text that is to be read as one. -/
inductive Message where
  | command (command : Command)
  | text (text : String)

namespace Host

/-- The events of a message, and the host after it. -/
def receive (c : Catalogue σ) (bound : Nat) (h : Host σ) : Message → Option (List Event × Host σ)
  | .command command => h.handle c bound command
  | .text text => h.handleMessage c bound text

/-- The events of a list of messages, message by message, and the host after them. -/
def receiveAll (c : Catalogue σ) (bound : Nat) : List Message → Host σ →
    Option (List (List Event) × Host σ)
  | [], h => some ([], h)
  | message :: rest, h =>
    match h.receive c bound message with
    | none => none
    | some (events, h) => (h.receiveAll c bound rest).map fun (more, h) => (events :: more, h)

/-- A command that stops early, or a question to the machine. -/
def IdleCommand (c : Catalogue σ) (bound : Nat) (h : Host σ) (command : Command) : Prop :=
  (∃ stop h', Handling.dispatch c bound command h = some (.error stop, h')) ∨
    ∃ args, command = .press .minify args ∨ command = .press .textToCode args

/-- A message that is such a command, or a text that is none or spells such a command. -/
def IdleMessage (c : Catalogue σ) (bound : Nat) (h : Host σ) : Message → Prop
  | .command command => h.IdleCommand c bound command
  | .text text => ∀ command, Wire.readCommand? text = some command → h.IdleCommand c bound command

variable {message : Message} {messages : List Message}

/-- A message leaves a host as a command does, or as it was. -/
theorem receive_preserves {P : Host σ → Prop} {events : List Event}
    (hstep : ∀ h command events h', P h → h.handle c bound command = some (events, h') → P h')
    (hx : h.receive c bound message = some (events, h')) (hp : P h) : P h' := by
  cases message with
  | command command => exact hstep h command events h' hp hx
  | text text =>
    change h.handleMessage c bound text = _ at hx
    unfold handleMessage at hx
    split at hx
    · exact hstep h _ events h' hp hx
    · cases hx
      exact hp

/-- What every command preserves holds after a run of messages. -/
theorem receiveAll_preserves {P : Host σ → Prop} {steps : List (List Event)}
    (hstep : ∀ h command events h', P h → h.handle c bound command = some (events, h') → P h')
    (hrun : h.receiveAll c bound messages = some (steps, h')) (hp : P h) : P h' := by
  induction messages generalizing h steps with
  | nil =>
    cases hrun
    exact hp
  | cons message rest ih =>
    unfold receiveAll at hrun
    cases hx : h.receive c bound message with
    | none =>
      rw [hx] at hrun
      cases hrun
    | some answer =>
      rw [hx] at hrun
      obtain ⟨⟨more, h₂⟩, hrest, hsteps⟩ := Option.map_eq_some_iff.mp hrun
      cases hsteps
      exact ih hrest (receive_preserves hstep hx hp)

/-- A run of messages keeps host and machine in step. -/
theorem receiveAll_inStep (hc : c.Reliable Good waits) {limit : Option Nat}
    {steps : List (List Event)}
    (hrun : (Host.new limit).receiveAll c bound messages = some (steps, h)) :
    h.Consistent ∧ h.InStep Good waits :=
  receiveAll_preserves (P := fun h => h.Consistent ∧ h.InStep Good waits)
    (fun _ _ _ _ hh hx => ⟨(handle_course hh.1 hx).consistent hh.1,
      (handle_course hh.1 hx).inStep hc hh.1 hh.2⟩)
    hrun ⟨new_consistent limit, fun _ hs => nomatch hs⟩

/-- An idle command leaves the host as it was. -/
theorem IdleCommand.handle (hc : c.Reliable Good waits) (hh : h.Consistent)
    (hs : h.InStep Good waits) (hi : h.IdleCommand c bound command) :
    ∃ events, h.handle c bound command = some (events, h) := by
  -- Either the command stops, or it is one of the two questions.
  rcases hi with ⟨stop, h', hd⟩ | ⟨args, rfl | rfl⟩
  · obtain ⟨e, -, -, hx⟩ := handle_of_stop hc hh hs hd
    exact ⟨_, hx⟩
  · rcases handle_minify hc hh hs args with ⟨e, hx⟩ | ⟨s, code, -, -, hx⟩ <;> exact ⟨_, hx⟩
  · rcases handle_textToCode hc hh hs args with ⟨e, hx⟩ | ⟨s, code, -, -, hx⟩ <;> exact ⟨_, hx⟩

/-- An idle message leaves the host as it was. -/
theorem IdleMessage.receive (hc : c.Reliable Good waits) (hh : h.Consistent)
    (hs : h.InStep Good waits) (hi : h.IdleMessage c bound message) :
    ∃ events, h.receive c bound message = some (events, h) := by
  cases message with
  | command command => exact IdleCommand.handle hc hh hs hi
  | text text =>
    change ∃ events, h.handleMessage c bound text = some (events, h)
    unfold handleMessage
    split
    · exact IdleCommand.handle hc hh hs (hi _ ‹_›)
    · exact ⟨_, rfl⟩

/-- One message is a run of its own. -/
theorem receiveAll_singleton :
    h.receiveAll c bound [message] =
      (h.receive c bound message).map fun (events, h') => ([events], h') := by
  unfold receiveAll
  cases h.receive c bound message with
  | none => rfl
  | some answer => rfl

/-- Idle messages leave the host as it was, so that it makes of all that follows what it would have
made of it without them. -/
theorem receiveAll_idle (hc : c.Reliable Good waits) (hh : h.Consistent)
    (hs : h.InStep Good waits) (hi : ∀ message ∈ messages, h.IdleMessage c bound message) :
    ∃ steps, steps.length = messages.length ∧ ∀ rest,
      h.receiveAll c bound (messages ++ rest) =
        (h.receiveAll c bound rest).map fun (more, h') => (steps ++ more, h') := by
  induction messages with
  | nil => exact ⟨[], rfl, fun rest => by simp⟩
  | cons message messages ih =>
    obtain ⟨events, hx⟩ := (hi message List.mem_cons_self).receive hc hh hs
    -- The host is the same after the first message, so that the others are idle there too.
    obtain ⟨steps, hlength, hrest⟩ := ih fun m hm => hi m (List.mem_cons_of_mem _ hm)
    refine ⟨events :: steps, congrArg (· + 1) hlength, fun rest => ?_⟩
    rw [List.cons_append, receiveAll, hx]
    dsimp only
    rw [hrest, Option.map_map]
    rfl

/-- After every run of messages to a host of the built-in languages: a command that stops early is
refused, answered by one error, and leaves the host as it was; so does a text that is no command; a
question to the machine leaves the host as it was, and is answered by one error or by an echo and
the result. And any number of such messages can stand before an answer to the open request: the
answer has the same events and leaves the same host as without them. -/
theorem receiveAll_traceless (draw : Nat → Befunge.Direction) (bound : Nat) (limit : Option Nat)
    (sent : List Message) {steps : List (List Event)} {h : Host Builtin}
    (hrun : (Host.new limit).receiveAll (.standard draw) bound sent = some (steps, h)) :
    (∀ command stop h', Handling.dispatch (.standard draw) bound command h =
        some (.error stop, h') →
      ∃ e, stop = .refused e ∧
        h.handle (.standard draw) bound command = some ([.error e.message], h)) ∧
    (∀ text, Wire.readCommand? text = none →
      h.handleMessage (.standard draw) bound text = some ([.error "Malformed command"], h)) ∧
    (∀ args, (∃ e : HostError,
        h.handle (.standard draw) bound (.press .minify args) = some ([.error e.message], h)) ∨
      ∃ s code, h.session = some s ∧
        (Builtin.machine draw).minify s.state (args.code.getD "") = .ok (some code) ∧
        h.handle (.standard draw) bound (.press .minify args) =
          some ([.print s!"> interpreter minify --lang {s.lang} --file ./userInput\n",
            .minified code], h)) ∧
    (∀ args, (∃ e : HostError,
        h.handle (.standard draw) bound (.press .textToCode args) =
          some ([.error e.message], h)) ∨
      ∃ s code, h.session = some s ∧
        (Builtin.machine draw).fromText s.state (args.text.getD "") = .ok (some code) ∧
        h.handle (.standard draw) bound (.press .textToCode args) =
          some ([.print s!"> interpreter --from-text ./userText.txt --lang {s.lang}\n",
            .fromText s.lang code], h)) ∧
    ∀ inserted : List Message,
      (∀ message ∈ inserted, h.IdleMessage (.standard draw) bound message) →
      ∃ answers, answers.length = inserted.length ∧
        h.receiveAll (.standard draw) bound inserted = some (answers, h) ∧
        ∀ value popStatus,
          h.receiveAll (.standard draw) bound
              (inserted ++ [.command (.unblock value popStatus)]) =
            (h.handle (.standard draw) bound (.unblock value popStatus)).map
              fun (events, h') => (answers ++ [events], h') := by
  have hc := Catalogue.standard_reliable draw
  obtain ⟨hh, hs⟩ := receiveAll_inStep hc hrun
  -- The first four parts are about the host after the run; the last is an induction from it.
  refine ⟨fun command stop h' hd => ?_, fun text ht => ?_, handle_minify hc hh hs,
    handle_textToCode hc hh hs, fun inserted hi => ?_⟩
  · obtain ⟨e, hstop, -, hx⟩ := handle_of_stop hc hh hs hd
    exact ⟨e, hstop, hx⟩
  · unfold handleMessage
    rw [ht]
    rfl
  · obtain ⟨answers, hlength, hrest⟩ := receiveAll_idle hc hh hs hi
    refine ⟨answers, hlength, ?_, fun value popStatus => ?_⟩
    · have hnil := hrest []
      rw [List.append_nil] at hnil
      rw [hnil, receiveAll, Option.map_some]
      dsimp only
      rw [List.append_nil]
    · rw [hrest, receiveAll_singleton, Option.map_map]
      rfl

/-- While a playfield waits for a byte, a run that is refused and a question do not change what the
answer brings. -/
theorem receiveAll_traceless_reading :
    ∃ steps h answers, (Host.new none).receiveAll (.standard fun _ => .right) 5
        [.command (.setLanguage "befunge" .empty),
          .command (.press .interpret ⟨some "~.@", none⟩)] = some (steps, h) ∧
      h.request = some .byte ∧
      h.receiveAll (.standard fun _ => .right) 5
          [.command (.press .interpret ⟨none, none⟩), .command (.press .minify ⟨none, none⟩),
            .command (.unblock .null true)] =
        (h.handle (.standard fun _ => .right) 5 (.unblock .null true)).map
          fun (events, h') => (answers ++ [events], h') := by
  have hbyte : (((Host.new none).receiveAll (.standard fun _ => .right) 5
      [.command (.setLanguage "befunge" .empty),
        .command (.press .interpret ⟨some "~.@", none⟩)]).bind fun run => run.2.request) =
      some .byte := by decide +kernel
  obtain ⟨⟨steps, h⟩, hrun, hreq⟩ := Option.bind_eq_some_iff.mp hbyte
  obtain ⟨hh, -⟩ := receiveAll_inStep (Catalogue.standard_reliable _) hrun
  obtain ⟨-, -, -, -, hinserted⟩ := receiveAll_traceless _ 5 none _ hrun
  have hidle : ∀ message ∈ [Message.command (.press .interpret ⟨none, none⟩),
      .command (.press .minify ⟨none, none⟩)],
      h.IdleMessage (.standard fun _ => .right) 5 message := by
    intro message hm
    rcases List.mem_cons.mp hm with rfl | hm
    · obtain ⟨e, hd⟩ := refused_of_busy (.inl rfl) hh (hh.busy_iff.mpr (by rw [hreq]; rfl))
      exact .inl ⟨_, _, hd⟩
    · obtain rfl := List.mem_singleton.mp hm
      exact .inr ⟨_, .inl rfl⟩
  obtain ⟨answers, -, -, hanswer⟩ := hinserted _ hidle
  exact ⟨steps, h, answers, hrun, hreq, hanswer .null true⟩

end Host

end EsotericHost
