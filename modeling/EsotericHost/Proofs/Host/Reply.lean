import EsotericHost.Proofs.Host.Holding

/-!
# The reply to a command

With machines that do not crash, what the host makes of a command is settled by its checks and by
the work that the command sets off. `Host.reply` says it in one place, command by command, without
the steps in between, and `Host.handle_eq_reply` proves that it is what the handling comes to. What
two hosts make of their commands can be compared there.
-/

namespace EsotericHost

variable {σ : Type} {c : Catalogue σ} {Good : σ → Prop} {waits : σ → Option InputKind}
  {bound : Nat} {h : Host σ} {s : Session σ}

namespace Host

/-- The reply of a host that stays as it was. -/
def staying (h : Host σ) (events : List Event) : Option (List Event × Host σ) := some (events, h)

/-- The reply of a host that refuses the command. -/
def refusing (h : Host σ) (e : HostError) : Option (List Event × Host σ) :=
  h.staying [.error e.message]

/-- The reply of a host whose machine works on an operation: none if the work has none. -/
def working (c : Catalogue σ) (bound : Nat) (h : Host σ) (command : Command) :
    Option (List Event × Host σ) :=
  (h.effort? c bound command).map fun e => (e.events c.machine h.held, e.leaves c.machine h)

/-- The reply of a host whose session is replaced by a new one. -/
def replacing (m : Machine σ) (h : Host σ) (s : Session σ) : Option (List Event × Host σ) :=
  some (h.abandonEvents "setLanguage" ++ s.heldEvents m h.inherited ++
      [(s.withHeld m h.inherited).createdEvent m],
    h.released.seated (s.withHeld m h.inherited))

/-- The reply of a host whose session is reset. -/
def resetting (m : Machine σ) (h : Host σ) (s : Session σ) : Option (List Event × Host σ) :=
  some (h.abandonEvents "reset" ++ s.heldEvents m h.held ++ resetEvents m (s.withHeld m h.held),
    h.released.seated ((s.withHeld m h.held).left m.reset))

/-- The reply of a host that puts a question to the machine. -/
def asking (h : Host σ) (supported : Bool) (answer : Except Crash (Option String))
    (lang capability line : String) (result : String → Event) : Option (List Event × Host σ) :=
  match answer with
  | .ok code => h.staying (askedEvents supported code lang capability line result)
  | .error _ => none

/-- The events of a command and the host after it, if the machines of the host do not crash. -/
def reply (c : Catalogue σ) (bound : Nat) (h : Host σ) : Command → Option (List Event × Host σ)
  | .setLanguage lang options =>
    match c.openSession lang options with
    | .error e => h.refusing e
    | .ok s => h.replacing c.machine s
  | .loadCode source =>
    match h.operation, h.session with
    | none, some s =>
      some (s.heldEvents c.machine (some source),
        { h with session := some (s.withHeld c.machine (some source)) })
    | _, _ => some ([], { h with held := some source })
  | .press button args =>
    match h.session with
    | none => h.refusing (.noLanguage button.name)
    | some s =>
      match button with
      | .reset => h.resetting c.machine s
      | .minify =>
        h.asking s.capabilities.minify (c.machine.minify s.state (args.code.getD "")) s.lang
          "minify" s!"> interpreter minify --lang {s.lang} --file ./userInput\n" .minified
      | .interpret =>
        match h.operation with
        | some op => h.refusing (.busy s.lang op.task.action)
        | none => h.working c bound (.press .interpret args)
      | .step =>
        if s.capabilities.step then
          match h.operation with
          | some op => h.refusing (.busy s.lang op.task.action)
          | none => h.working c bound (.press .step args)
        else h.refusing (.notSupported s.lang "step")
      | .textToCode =>
        h.asking s.capabilities.fromText (c.machine.fromText s.state (args.text.getD "")) s.lang
          "text-to-code" s!"> interpreter --from-text ./userText.txt --lang {s.lang}\n"
          (.fromText s.lang)
  | .unblock value popStatus =>
    match Request.resolve h.request value with
    | .error e => h.refusing e
    | .ok _ => h.working c bound (.unblock value popStatus)

/-- A command that makes the machine work, if it has an answer, is replied to by the work. -/
theorem handle_eq_working {command : Command} (hc : c.Reliable Good waits) (hh : h.Consistent)
    (hs : h.InStep Good waits)
    (hwork : ∀ events h', h.handle c bound command = some (events, h') →
      ∃ e, h.effort? c bound command = some e) :
    h.handle c bound command = h.working c bound command := by
  unfold working
  cases he : h.effort? c bound command with
  | some e => exact handle_of_effort hc hh hs he
  | none =>
    cases hx : h.handle c bound command with
    | none => rfl
    | some answer =>
      obtain ⟨e, he'⟩ := hwork answer.1 answer.2 hx
      rw [he] at he'
      cases he'

/-- A button is replied to as the session in use and the operation in flight have it. -/
theorem handle_press (button : Button) (args : ButtonArgs) (hc : c.Reliable Good waits)
    (hh : h.Consistent) (hs : h.InStep Good waits) :
    h.handle c bound (.press button args) = h.reply c bound (.press button args) := by
  cases hsession : h.session with
  | none =>
    simp only [reply, hsession]
    exact handle_of_refused hh (Handling.press_of_none button args hsession)
  | some s =>
    have hlawful := hc.lawful s.state (hs s hsession).good
    cases button with
    | reset =>
      simp only [reply, hsession]
      exact handle_reset args hc hh hs hsession
    | minify =>
      obtain ⟨code, hcode⟩ := hlawful.minify_ok (args.code.getD "")
      simp only [reply, hsession, hcode]
      exact handle_minify_ok hh hsession hcode
    | textToCode =>
      obtain ⟨code, hcode⟩ := hlawful.fromText_ok (args.text.getD "")
      simp only [reply, hsession, hcode]
      exact handle_textToCode_ok hh hsession hcode
    | interpret =>
      cases hop : h.operation with
      | some op =>
        simp only [reply, hsession, hop]
        exact handle_of_refused hh (Handling.interpret_of_busy args hsession hop)
      | none =>
        simp only [reply, hsession, hop]
        exact handle_eq_working hc hh hs fun _ _ hx => effort_of_interpret hh hop hsession hx
    | step =>
      simp only [reply, hsession]
      by_cases hcap : s.capabilities.step = true
      · rw [if_pos hcap]
        cases hop : h.operation with
        | some op => exact handle_of_refused hh (Handling.step_of_busy args hsession hcap hop)
        | none =>
          -- One step always comes to an answer, so the work is there.
          refine handle_eq_working hc hh hs fun _ _ _ => Option.isSome_iff_exists.mp ?_
          simp only [effort?, hop, hsession, if_pos hcap]
          rfl
      · rw [if_neg hcap]
        exact handle_of_refused hh (Handling.step_of_unsupported args hsession hcap)

/-- The handling of a command comes to its reply. -/
theorem handle_eq_reply (hc : c.Reliable Good waits) (hh : h.Consistent)
    (hs : h.InStep Good waits) (command : Command) :
    h.handle c bound command = h.reply c bound command := by
  match command with
  | .press button args => exact handle_press button args hc hh hs
  | .setLanguage lang options =>
    unfold reply
    dsimp only
    cases ho : c.openSession lang options with
    | error e =>
      refine handle_of_refused hh ?_
      change Handling.setLanguage c lang options h = _
      unfold Handling.setLanguage
      rw [ho]
      rfl
    | ok s => exact handle_setLanguage bound hc hh hs ho
  | .loadCode source =>
    unfold reply
    dsimp only
    split
    · exact handle_load source hh ‹_› ‹_›
    · rename_i hbusy
      refine handle_hold source hh ?_
      cases hop : h.operation with
      | some op => exact .inl rfl
      | none =>
        cases hsession : h.session with
        | none => exact .inr rfl
        | some s => exact absurd hsession (hbusy s hop)
  | .unblock value popStatus =>
    unfold reply
    dsimp only
    cases hr : Request.resolve h.request value with
    | error e => exact handle_of_refused hh (Handling.unblock_of_error hr)
    | ok answer =>
      refine handle_eq_working hc hh hs fun events h' hx => ?_
      obtain ⟨e, he, -⟩ := effort_of_answers hh ((answers_iff hh).mpr ⟨answer, hr⟩) hx
      exact ⟨e, he⟩

end Host

end EsotericHost
