import EsotericHost.Proofs.Host.Attunement
import EsotericHost.Proofs.Machine.Builtin

/-!
# Suspension

The host and the built-in machines agree about who waits for what (`Host.handleAll_suspension`).
From that it follows that no command comes to an error of the host's own: an answer always finds a
machine that waits for it, and no call of a machine crashes. What is left to show is that no other
error can be taken for one of these, since each has a text that begins otherwise (`Course.plain`).
-/

namespace EsotericHost

variable {σ : Type} {c : Catalogue σ} {m : Machine σ} {Good : σ → Prop}
  {waits : σ → Option InputKind} {bound : Nat} {h h' : Host σ} {command : Command}
  {events : List Event} {e : HostError} {lang : String}

/-! ## Errors that are not the host's own -/

/-- A text that begins with another letter than the reports of the host's own errors do. -/
def PlainText (text : String) : Prop :=
  ∃ letter, letter ≠ 'I' ∧ text.toList.head? = some letter

/-- A plain text does not report an error of the host's own. -/
theorem PlainText.ne_internal {text : String} (ht : PlainText text) (detail : String) :
    text ≠ "Internal error: " ++ detail := by
  obtain ⟨letter, hne, hhead⟩ := ht
  intro heq
  rw [heq, String.toList_append] at hhead
  exact hne (Option.some.inj hhead.symm)

/-- A text is plain if its first part is. -/
theorem PlainText.append {first : String} (hf : PlainText first) (rest : String) :
    PlainText (first ++ rest) := by
  obtain ⟨letter, hne, hhead⟩ := hf
  refine ⟨letter, hne, ?_⟩
  rw [String.toList_append, List.head?_append, hhead]
  rfl

/-- An error that is not the host's own, and speaks of a language with a plain name. -/
def HostError.IsPlain : HostError → Prop
  | busy lang _ | notSupported lang _ | failed lang _ => PlainText lang
  | internal _ => False
  | _ => True

/-- The text of a plain error is plain. -/
theorem HostError.IsPlain.plainText (he : e.IsPlain) : PlainText e.message := by
  have error : PlainText "Error whilst creating interpreter for '" := ⟨'E', by decide, rfl⟩
  have loading : PlainText "Error whilst loading " := ⟨'E', by decide, rfl⟩
  have unblock : PlainText "Command 'unblock': " := ⟨'C', by decide, rfl⟩
  cases e with
  | unknownLanguage lang => exact (error.append _).append _
  | badOptions lang detail => exact ((error.append _).append _).append _
  | badCode lang fault => exact ((loading.append _).append _).append _
  | busy lang action => exact ((PlainText.append he _).append _).append _
  | notSupported lang capability => exact ((PlainText.append he _).append _).append _
  | nothingAsked => exact ⟨'C', by decide, rfl⟩
  | badInput detail => exact unblock.append _
  | failed lang fault => exact (PlainText.append he _).append _
  | noLanguage action =>
    have first : PlainText "No interpreter loaded: send setLanguage before '" :=
      ⟨'N', by decide, rfl⟩
    exact (first.append _).append _
  | malformed detail =>
    have first : PlainText "Malformed command: " := ⟨'M', by decide, rfl⟩
    exact first.append _
  | internal detail => exact he.elim

/-- A value that does not answer a request is refused as bad input. -/
theorem Request.answer_error {kind : InputKind} {value : Json}
    (ha : answer kind value = .error e) : ∃ detail, e = .badInput detail := by
  cases kind with
  | byte =>
    have hb : byte value = .error e := eq_error_of_map (f := Input.byte) ha
    unfold byte at hb
    split at hb
    · split at hb <;> cases hb
      exact ⟨_, rfl⟩
    · cases hb
    · cases hb
    · cases hb
      exact ⟨_, rfl⟩
  | line =>
    have hl : line value = .error e := eq_error_of_map (f := Input.line) ha
    unfold line at hl
    split at hl <;> cases hl
    exact ⟨_, rfl⟩

/-- An answer that is refused is no fault of the host's own. -/
theorem Request.resolve_error {outstanding : Option InputKind} {value : Json}
    (hr : resolve outstanding value = .error e) : e.IsPlain := by
  cases outstanding with
  | none =>
    cases hr
    trivial
  | some kind =>
    obtain ⟨detail, rfl⟩ := answer_error (eq_error_of_map (f := (kind, ·)) hr)
    trivial

/-- A language that is refused is no fault of the host's own. -/
theorem Catalogue.openSession_error {lang : String} {options : Options}
    (ho : c.openSession lang options = .error e) : e.IsPlain := by
  unfold openSession at ho
  split at ho
  · cases ho
    trivial
  · split at ho
    · cases ho
      trivial
    · cases ho

/-- An event that does not report an error of the host's own. -/
def Event.IsPlain : Event → Prop
  | .error text => PlainText text
  | _ => True

/-- A machine does not report errors. -/
theorem Event.IsOfMachine.isPlain {x : Event} (hx : x.IsOfMachine) : x.IsPlain := by
  cases x <;> trivial

/-- The reports of a stack that is cut down are plain. -/
theorem Activity.plain_unwindReports (a : Activity) (depth : Nat) :
    ∀ x ∈ a.unwindReports depth, x.IsPlain := by
  intro x hx
  obtain ⟨n, -, rfl⟩ := List.mem_map.mp hx
  trivial

/-- The report of the end of an operation is plain if its error is. -/
theorem plain_endReport {task : Task} {ending : Ending}
    (he : ∀ error, ending = .failed error → error.IsPlain) :
    ∀ x ∈ endReport task ending, x.IsPlain := by
  intro x hx
  rcases List.mem_append.mp hx with hx | hx
  · cases ending with
    | halted => cases hx
    | progressed => cases hx
    | failed error =>
      obtain rfl := List.mem_singleton.mp hx
      exact (he error rfl).plainText
  · cases task with
    | run =>
      obtain rfl := List.mem_singleton.mp hx
      trivial
    | step =>
      dsimp only at hx
      split at hx
      · cases hx
      · obtain rfl := List.mem_singleton.mp hx
        trivial

/-- Loading held code into a lawful machine is plain, also when it fails. -/
theorem Session.plain_heldEvents {s : Session σ} (hm : m.Lawful Good waits) (hs : Good s.state)
    (held : Option String) : ∀ x ∈ s.heldEvents m held, x.IsPlain := by
  intro x hx
  rcases List.mem_append.mp hx with hx | hx
  · cases held with
    | none => cases hx
    | some source => exact (isOfMachine_of_mem_told hx).isPlain
  · unfold loadReport at hx
    split at hx
    · cases hx
    · rename_i fault hr
      obtain rfl := List.mem_singleton.mp hx
      exact HostError.IsPlain.plainText (e := .badCode _ fault) trivial
    · rename_i message hr
      exact absurd hr (heldResult_ne_crash hm hs held message)

/-- Giving an operation up is plain if the name of its language is. -/
theorem Host.plain_abandonEvents {reason : String}
    (hl : ∀ op, h.operation = some op → PlainText op.lang) :
    ∀ x ∈ h.abandonEvents reason, x.IsPlain := by
  intro x hx
  unfold abandonEvents at hx
  split at hx
  · cases hx
  · rename_i op hop
    rcases List.mem_append.mp hx with hx | hx
    · exact h.activity.plain_unwindReports _ x hx
    · obtain rfl := List.mem_singleton.mp hx
      exact ((((((((hl op hop).append _).append _).append _).append _).append _).append _).append _)

/-! ## The courses of a command -/

/-- A host that speaks of languages with plain names only. -/
structure Host.PlainSpoken (h : Host σ) : Prop where
  session : ∀ s, h.session = some s → PlainText s.lang
  operation : ∀ op, h.operation = some op → PlainText op.lang

/-- A refusal is no error of the host's own. -/
theorem Handling.Refusal.isPlain (hn : h.PlainSpoken) (hr : Refusal c h command e h') :
    e.IsPlain := by
  cases hr with
  | language opening => exact Catalogue.openSession_error opening
  | noSession session => trivial
  | busy session operation => exact hn.session _ session
  | unsupported session => exact hn.session _ session
  | answer resolve => exact Request.resolve_error resolve
  | code operation session load => trivial

/-- The operation that a machine works on is of a language with a plain name. -/
theorem Effort.Origin.plain_lang {e : Effort σ} (hn : h.PlainSpoken)
    (ho : e.Origin h command) : PlainText e.operation.lang := by
  cases ho with
  | run idle session operation labels opening =>
    rw [operation]
    exact hn.session _ session
  | step idle session supported operation labels opening =>
    rw [operation]
    exact hn.session _ session
  | answer busy labels opening => exact hn.operation _ busy
  | question question busy labels opening rest => exact hn.operation _ busy

/-- The events before a machine works are plain. -/
theorem Effort.Origin.plain_opening {e : Effort σ} (ho : e.Origin h command) :
    ∀ x ∈ e.opening, x.IsPlain := by
  intro x hx
  rcases ho.opening_cases hx with ⟨text, rfl⟩ | ⟨label, rfl⟩ <;> trivial

/-- An error that a program is to blame for is plain if its language has a plain name. -/
theorem HostError.Blames.isPlain (hl : PlainText lang) (he : e.Blames lang) : e.IsPlain := by
  rcases he with ⟨fault, rfl⟩ | ⟨fault, -, rfl⟩
  · trivial
  · exact hl

/-- Work on an operation is plain: it fails only by its program. -/
theorem Effort.plain {e : Effort σ} {s : Session σ} (hm : m.Lawful Good waits)
    (ho : e.Origin h command) (hl : PlainText s.lang)
    (hw : e.stretch.Sound Good waits s.lang)
    (hmachine : ∀ x ∈ e.stretch.events, x.IsOfMachine) (held : Option String) :
    ∀ x ∈ e.events m held, x.IsPlain := by
  intro x hx
  unfold events at hx
  rcases List.mem_append.mp hx with hx | hx
  · rcases List.mem_append.mp hx with hx | hx
    · exact ho.plain_opening x hx
    · exact (hmachine x hx).isPlain
  · cases hrest : e.stretch.rest with
    | waits kind =>
      rw [hrest] at hx
      rcases List.mem_cons.mp hx with rfl | hx
      · trivial
      · obtain rfl := List.mem_singleton.mp hx
        trivial
    | ends ending =>
      rw [hrest] at hx
      rcases List.mem_append.mp hx with hx | hx
      · rcases List.mem_append.mp hx with hx | hx
        · exact e.labels.plain_unwindReports _ x hx
        · refine plain_endReport (fun error he => ?_) x hx
          rw [he] at hrest
          exact (hw.blames error hrest).isPlain hl
      · exact Session.plain_heldEvents hm hw.inStep.good held x hx

/-- The events of every course of a command are plain. -/
theorem Course.plain (hc : c.Reliable Good waits) (hh : h.Consistent) (hs : h.InStep Good waits)
    (hn : h.PlainSpoken) (hx : Course c bound h command events h') :
    ∀ x ∈ events, x.IsPlain := by
  intro x hmem
  cases hx with
  | refused dispatched idle kept =>
    obtain rfl := List.mem_singleton.mp hmem
    exact ((Handling.refusal_of_dispatch hh dispatched).isPlain hn).plainText
  | minified session answer =>
    rcases List.mem_cons.mp hmem with rfl | hmem
    · trivial
    · obtain rfl := List.mem_singleton.mp hmem
      trivial
  | fromText session answer =>
    rcases List.mem_cons.mp hmem with rfl | hmem
    · trivial
    · obtain rfl := List.mem_singleton.mp hmem
      trivial
  | crashed question dispatched operation =>
    exact absurd dispatched (hc.dispatch_ne_crashed hh hs _)
  | held busy => cases hmem
  | loaded operation session =>
    exact Session.plain_heldEvents hc.lawful (hs _ session).good _ x hmem
  | opened session loads =>
    rcases List.mem_append.mp hmem with hmem | hmem
    · rcases List.mem_append.mp hmem with hmem | hmem
      · exact Host.plain_abandonEvents hn.operation x hmem
      · exact Session.plain_heldEvents hc.lawful (hc.opens session).good _ x hmem
    · obtain rfl := List.mem_singleton.mp hmem
      trivial
  | openCrashed session crash =>
    exact absurd crash (Session.heldResult_ne_crash hc.lawful (hc.opens session).good _ _)
  | reset session loads =>
    have hgood := (hs _ session).good
    have hheld := Session.withHeld_good hc.lawful hgood h.held
    rcases List.mem_append.mp hmem with hmem | hmem
    · rcases List.mem_append.mp hmem with hmem | hmem
      · exact Host.plain_abandonEvents hn.operation x hmem
      · exact Session.plain_heldEvents hc.lawful hgood _ x hmem
    · rcases List.mem_append.mp hmem with hmem | hmem
      · exact (Session.isOfMachine_of_mem_told hmem).isPlain
      -- A lawful machine is always reset, so what follows its own events is the line that says so.
      · rw [(hc.lawful _ hheld).reset_ready.1] at hmem
        obtain rfl := List.mem_singleton.mp hmem
        trivial
  | resetCrashed session crash =>
    exact absurd crash (Session.heldResult_ne_crash hc.lawful (hs _ session).good _ _)
  | worked effort =>
    obtain ⟨s, hsession, hsound⟩ := hc.effort_sound hh hs effort
    exact Effort.plain hc.lawful (Effort.origin effort) (hn.session s hsession) hsound
      (Effort.isOfMachine effort) _ x hmem

/-- Every course of a command keeps the names of the languages plain. -/
theorem Course.plainSpoken (hc : c.Reliable Good waits)
    (hnames : ∀ language ∈ c.languages, PlainText language.name) (hh : h.Consistent)
    (hs : h.InStep Good waits) (hn : h.PlainSpoken) (hx : Course c bound h command events h') :
    h'.PlainSpoken := by
  -- A new session has the name of one of the languages.
  have hopens {lang : String} {options : Options} {s : Session σ}
      (ho : c.openSession lang options = .ok s) : PlainText s.lang := by
    obtain ⟨language, hl, -, hlang⟩ := Catalogue.openSession_ok ho
    rw [hlang]
    exact hnames language hl
  -- A host with a session in place of the one in use, and without its operation.
  have hseated {s : Session σ} (hl : PlainText s.lang) : (h.released.seated s).PlainSpoken := by
    refine ⟨fun s' hs' => ?_, fun op hop => ?_⟩
    · cases hs'
      exact hl
    · rw [show (h.released.seated s).operation = none from h.released_operation] at hop
      cases hop
  cases hx with
  | refused dispatched idle kept => exact hn
  | minified session answer => exact hn
  | fromText session answer => exact hn
  | crashed question dispatched operation => exact hn
  | held busy => exact ⟨hn.session, hn.operation⟩
  | loaded operation session =>
    refine ⟨fun s' hs' => ?_, hn.operation⟩
    cases hs'
    rw [Session.withHeld_lang]
    exact hn.session _ session
  | opened session loads => exact hseated ((Session.withHeld_lang _ _ _).symm ▸ hopens session)
  | openCrashed session crash =>
    exact absurd crash (Session.heldResult_ne_crash hc.lawful (hc.opens session).good _ _)
  | reset session loads =>
    exact hseated ((Session.withHeld_lang _ _ _).symm ▸ hn.session _ session)
  | resetCrashed session crash =>
    exact hseated ((Session.withHeld_lang _ _ _).symm ▸ hn.session _ session)
  | worked effort =>
    obtain ⟨s, hsession, hsound⟩ := hc.effort_sound hh hs effort
    have hlang : PlainText _ := hsound.lang_eq ▸ hn.session s hsession
    have hop := (Effort.origin effort).plain_lang hn
    unfold Effort.leaves
    split
    · refine ⟨fun s' hs' => ?_, fun op hop' => ?_⟩
      · cases hs'
        exact hlang
      · cases hop'
        exact hop
    · refine ⟨fun s' hs' => ?_, fun op hop' => nomatch hop'⟩
      cases hs'
      rw [Session.withHeld_lang]
      exact hlang

/-! ## The built-in languages -/

/-- The names of the built-in languages are plain. -/
theorem Catalogue.plainText_names (draw : Nat → Befunge.Direction) :
    ∀ language ∈ (standard draw).languages, PlainText language.name := by
  intro language hl
  simp only [standard, List.mem_cons, List.not_mem_nil, or_false] at hl
  rcases hl with rfl | rfl | rfl | rfl
  · exact ⟨'b', by decide, rfl⟩
  · exact ⟨'b', by decide, rfl⟩
  · exact ⟨'e', by decide, rfl⟩
  · exact ⟨'l', by decide, rfl⟩

namespace Host

/-- A run of commands of the built-in languages keeps host and machine in step and has plain events
only. -/
theorem standard_handleAll {draw : Nat → Befunge.Direction} {limit : Option Nat}
    {commands : List Command} {steps : List (List Event)} {h : Host Builtin}
    (hrun : (Host.new limit).handleAll (.standard draw) bound commands = some (steps, h)) :
    (h.Consistent ∧ h.InStep Builtin.Good Builtin.waits ∧ h.PlainSpoken) ∧
      ∀ x ∈ steps.flatten, x.IsPlain := by
  have hc := Catalogue.standard_reliable draw
  have hnew : (Host.new limit : Host Builtin).InStep Builtin.Good Builtin.waits :=
    fun s hs => nomatch hs
  refine handleAll_events
    (P := fun h => h.Consistent ∧ h.InStep Builtin.Good Builtin.waits ∧ h.PlainSpoken)
    (fun h command events h' hp hx => ?_) hrun
    ⟨new_consistent limit, hnew, ⟨fun s hs => (nomatch hs), fun op hop => (nomatch hop)⟩⟩
  obtain ⟨hh, hs, hn⟩ := hp
  have hcourse := handle_course hh hx
  exact ⟨⟨hcourse.consistent hh, hcourse.inStep hc hh hs,
    hcourse.plainSpoken hc (Catalogue.plainText_names draw) hh hs hn⟩, hcourse.plain hc hh hs hn⟩

/-- After every run of commands of the built-in languages: the host has requested an input of a kind
just if the machine in use waits for it, that is, if its next step would do nothing but say so; an
answer that fits the request reaches a machine that waits for an input of its kind, and does not
fail because the machine would not wait; no command crashes a machine. And no event of the run
reports an error of the host's own. -/
theorem handleAll_suspension (draw : Nat → Befunge.Direction) (bound : Nat) (limit : Option Nat)
    (commands : List Command) {steps : List (List Event)} {h : Host Builtin}
    (hrun : (Host.new limit).handleAll (.standard draw) bound commands = some (steps, h)) :
    (∀ kind, h.request = some kind ↔ ∃ s, h.session = some s ∧ s.state.waits = some kind) ∧
    (∀ kind s, h.session = some s → (s.state.waits = some kind ↔
      (Builtin.machine draw).step s.state = ⟨.ok (.suspended kind), s.state, []⟩)) ∧
    (∀ s value kind input, h.session = some s →
      Request.resolve h.request value = .ok (kind, input) →
      s.state.waits = some kind ∧ input.kind = kind ∧
        ∀ upset, ((Builtin.machine draw).resume input s.state).result = .error upset →
          ∃ fault, upset = .fault fault ∧ fault ≠ .notSuspended) ∧
    (∀ command message h', Handling.dispatch (.standard draw) bound command h ≠
      some (.error (.crashed message), h')) ∧
    ∀ detail, Event.error ("Internal error: " ++ detail) ∉ steps.flatten := by
  have hc := Catalogue.standard_reliable draw
  obtain ⟨⟨hh, hs, -⟩, hplain⟩ := standard_handleAll hrun
  refine ⟨fun kind => ⟨fun hreq => ?_, ?_⟩, fun kind s hsession => ?_,
    fun s value kind input hsession hr => ?_,
    fun command message h' => hc.dispatch_ne_crashed hh hs message, fun detail hmem => ?_⟩
  -- An open request belongs to an operation, and that to a session.
  · have hbusy : h.operation.isSome := hh.busy_iff.mpr (by rw [hreq]; rfl)
    obtain ⟨s, hsession⟩ := Option.isSome_iff_exists.mp (hh.busy_session hbusy)
    exact ⟨s, hsession, (hs s hsession).waits_eq.trans hreq⟩
  · rintro ⟨s, hsession, hwaits⟩
    exact (hs s hsession).waits_eq.symm.trans hwaits
  · exact (hc.lawful s.state (hs s hsession).good).waits_iff kind
  · obtain ⟨hgood, hwaits, rfl⟩ := hs.of_resolve hsession hr
    refine ⟨hwaits, rfl, fun upset hu => ?_⟩
    have hmild := ((hc.lawful s.state hgood).resume_safe input hwaits).2 upset hu
    cases upset with
    | fault fault => exact ⟨fault, rfl, hmild⟩
    | crash message => exact hmild.elim
  · exact (hplain _ hmem).ne_internal detail rfl

/-- A playfield that reads a byte leaves its machine waiting for one. -/
theorem handleAll_suspension_reading :
    ∃ steps h s, (Host.new none).handleAll (.standard fun _ => .right) 5
        [.setLanguage "befunge" .empty, .press .interpret ⟨some "~.@", none⟩] = some (steps, h) ∧
      h.request = some .byte ∧ h.session = some s ∧
      (Builtin.machine fun _ => .right).step s.state = ⟨.ok (.suspended .byte), s.state, []⟩ := by
  have hbyte : (((Host.new none).handleAll (.standard fun _ => .right) 5
      [.setLanguage "befunge" .empty, .press .interpret ⟨some "~.@", none⟩]).bind
        fun run => run.2.request) = some .byte := by decide +kernel
  obtain ⟨⟨steps, h⟩, hrun, hreq⟩ := Option.bind_eq_some_iff.mp hbyte
  obtain ⟨hagree, hstep, -⟩ := handleAll_suspension _ 5 none _ hrun
  obtain ⟨s, hsession, hwaits⟩ := (hagree .byte).mp hreq
  exact ⟨steps, h, s, hrun, hreq, hsession, (hstep .byte s hsession).mp hwaits⟩

end Host

end EsotericHost
