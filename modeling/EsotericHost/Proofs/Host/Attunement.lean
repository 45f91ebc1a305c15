import EsotericHost.Proofs.Host.Refusal
import EsotericHost.Proofs.Machine.Lawful

/-!
# Host and machine in step

Two records say whether input is waited for: the open request of the host, and the state of the
machine itself. With machines that are lawful, and that do not wait from the start, the two agree
after every command (`Course.inStep`), so that an answer to the request reaches a machine that waits
for an input of its kind.

No command crashes such a machine (`Catalogue.Reliable.dispatch_ne_crashed`).
-/

namespace EsotericHost

variable {σ : Type} {c : Catalogue σ} {m : Machine σ} {Good : σ → Prop}
  {waits : σ → Option InputKind} {bound : Nat} {h h' : Host σ} {s : Session σ} {op : Operation}
  {command : Command} {events : List Event}

/-! ## Answers to requests -/

/-- An input that a value stands for is of the kind that was asked for. -/
theorem Request.answer_kind {kind : InputKind} {value : Json} {input : Input}
    (ha : answer kind value = .ok input) : input.kind = kind := by
  cases kind with
  | byte =>
    obtain ⟨b, -, rfl⟩ := exists_of_map_eq_ok (f := Input.byte) ha
    rfl
  | line =>
    obtain ⟨text, -, rfl⟩ := exists_of_map_eq_ok (f := Input.line) ha
    rfl

/-- An answer that fits has found an open request, and is of its kind. -/
theorem Request.resolve_ok {outstanding : Option InputKind} {value : Json} {kind : InputKind}
    {input : Input} (hr : resolve outstanding value = .ok (kind, input)) :
    outstanding = some kind ∧ input.kind = kind := by
  cases outstanding with
  | none => cases hr
  | some asked =>
    obtain ⟨given, ha, hgiven⟩ := exists_of_map_eq_ok (f := (asked, ·)) hr
    obtain ⟨rfl, rfl⟩ := Prod.mk.inj hgiven
    exact ⟨rfl, answer_kind ha⟩

/-! ## Calls of a lawful machine -/

/-- An upset that is no crash. -/
def Upset.IsFault : Upset → Prop
  | .fault _ => True
  | .crash _ => False

namespace Machine.Lawful

/-- Code that does not load leaves no trace, so a machine that does not wait still does not. -/
theorem load_safe (hm : m.Lawful Good waits) {s : σ} (hs : Good s) (hw : waits s = none)
    (source : String) :
    (Session.load m source s).Safe (fun s => Good s ∧ waits s = none) Upset.IsFault := by
  rcases (hm s hs).load_cases source with ⟨hok, hready⟩ | ⟨fault, hfault⟩
  · exact ⟨hready, fun u hu => nomatch hok.symm.trans hu⟩
  · rw [hfault]
    refine ⟨⟨hs, hw⟩, fun u hu => ?_⟩
    cases hu
    trivial

/-- Loading code keeps the invariant, also while the machine waits. -/
theorem load_good (hm : m.Lawful Good waits) {s : σ} (hs : Good s) (source : String) :
    (Session.load m source s).Safe Good Upset.IsFault := by
  rcases (hm s hs).load_cases source with ⟨hok, hready⟩ | ⟨fault, hfault⟩
  · exact ⟨hready.1, fun u hu => nomatch hok.symm.trans hu⟩
  · rw [hfault]
    refine ⟨hs, fun u hu => ?_⟩
    cases hu
    trivial

/-- A run keeps the invariant, waits exactly when it says so, and ends with no other error than the
host expects. -/
theorem run (hm : m.Lawful Good waits) {budget budget' : Budget} {s s' : Session σ}
    {out out' : Transcript} {answer : Except Upset Outcome} (hs : Good s.state)
    (hr : s.run m bound budget out = some (answer, budget', s', out')) :
    Good s'.state ∧ waits s'.state = suspension answer ∧ ∀ u, answer = .error u → u.Mild := by
  obtain ⟨last, -, hlast, rfl, -, hanswer⟩ :=
    Session.run_ends (P := fun k _ => Good k.state) hr hs fun k _ hk => (hm k.state hk).step_safe.1
  obtain ⟨hgood, hmild⟩ := (hm last.state hlast).step_safe
  have hwaits := (hm last.state hlast).step_waits
  -- The run has the answer of its last step, or is out of budget after a step that went well.
  rcases hanswer with rfl | ⟨hprogressed, limit, rfl⟩
  · exact ⟨hgood, hwaits, hmild⟩
  · rw [hprogressed] at hwaits
    refine ⟨hgood, hwaits, fun u hu => ?_⟩
    cases hu
    exact Fault.noConfusion

end Machine.Lawful

/-! ## Sessions -/

/-- A session whose machine is in a state in which its invariant holds, and waits for the given
input. -/
structure Session.InStep (Good : σ → Prop) (waits : σ → Option InputKind)
    (awaited : Option InputKind) (s : Session σ) : Prop where
  good : Good s.state
  waits_eq : waits s.state = awaited

namespace Session

/-- Held code that is loaded keeps the invariant of the machine. -/
theorem withHeld_good (hm : m.Lawful Good waits) (hs : Good s.state) (held : Option String) :
    Good (s.withHeld m held).state := by
  cases held with
  | none => exact hs
  | some source => exact (hm.load_good hs source).1

/-- Held code does not crash a lawful machine. -/
theorem heldResult_ne_crash (hm : m.Lawful Good waits) (hs : Good s.state) (held : Option String)
    (message : Crash) : s.heldResult m held ≠ .error (.crash message) := by
  intro hr
  cases held with
  | none => cases hr
  | some source => exact (hm.load_good hs source).2 _ hr

/-- Held code does not make a machine wait. -/
theorem InStep.withHeld (hm : m.Lawful Good waits) (hs : s.InStep Good waits none)
    (held : Option String) : (s.withHeld m held).InStep Good waits none := by
  cases held with
  | none => exact hs
  | some source =>
    obtain ⟨hgood, hnone⟩ := (hm.load_safe hs.good hs.waits_eq source).1
    exact ⟨hgood, hnone⟩

/-- A reset ends every wait. -/
theorem InStep.reset (hm : m.Lawful Good waits) (hs : Good s.state) :
    (s.left m.reset).InStep Good waits none := by
  obtain ⟨-, hgood, hnone⟩ := (hm s.state hs).reset_ready
  exact ⟨hgood, hnone⟩

end Session

/-! ## Work on an operation -/

/-- The input that is waited for when work has come to rest. -/
def Rest.awaited : Rest → Option InputKind
  | .waits kind => some kind
  | .ends _ => none

/-- Work rests as the answer of the machine says. -/
theorem Rest.awaited_ofAnswer (lang : String) (answer : Except Upset Outcome) :
    (Rest.ofAnswer lang answer).awaited = suspension answer := by
  cases answer with
  | ok outcome => cases outcome <;> rfl
  | error upset => rfl

/-- An error that the program of a language is to blame for: it does not load, or it fails for
another reason than that the machine does not wait. -/
def HostError.Blames (lang : String) (e : HostError) : Prop :=
  (∃ fault, e = .badCode lang fault) ∨ ∃ fault, fault ≠ .notSuspended ∧ e = .failed lang fault

/-- A stretch of work of a language that leaves its machine waiting just if the work waits, and
that fails only by its program. -/
structure Stretch.Sound (Good : σ → Prop) (waits : σ → Option InputKind) (lang : String)
    (w : Stretch σ) : Prop where
  inStep : w.session.InStep Good waits w.rest.awaited
  lang_eq : w.session.lang = lang
  blames : ∀ error, w.rest = .ends (.failed error) → error.Blames lang

/-- An answer without a crash ends the work by a failure of the program, if by any failure. -/
theorem Rest.blames_ofAnswer {lang : String} {answer : Except Upset Outcome} {error : HostError}
    (hmild : ∀ u, answer = .error u → u.Mild)
    (hr : Rest.ofAnswer lang answer = .ends (.failed error)) : error.Blames lang := by
  match answer with
  | .ok (.suspended kind) => cases hr
  | .ok .halted => cases hr
  | .ok .progressed => cases hr
  | .error (.fault fault) =>
    cases hr
    exact .inr ⟨fault, hmild _ rfl, rfl⟩
  | .error (.crash message) => exact (hmild _ rfl).elim

/-- Work of a lawful machine is sound. -/
theorem Session.sound_of_toil (hm : m.Lawful Good waits) (hs : Good s.state) {w : Stretch σ}
    (hw : s.toil m bound op = some w) : w.Sound Good waits s.lang := by
  unfold toil at hw
  split at hw
  · obtain ⟨⟨answer, budget, s', out⟩, hr, rfl⟩ := Option.map_eq_some_iff.mp hw
    obtain ⟨hgood, hwaits, hmild⟩ := hm.run hs hr
    have hlang : s'.lang = s.lang := run_lang hr
    refine ⟨⟨hgood, ?_⟩, hlang, fun error hrest => ?_⟩
    · rw [Rest.awaited_ofAnswer]
      exact hwaits
    · rw [← hlang]
      exact Rest.blames_ofAnswer hmild hrest
  · cases hw
    obtain ⟨hgood, hmild⟩ := (hm s.state hs).step_safe
    refine ⟨⟨hgood, ?_⟩, rfl, fun error hrest => Rest.blames_ofAnswer hmild hrest⟩
    rw [Rest.awaited_ofAnswer]
    exact (hm s.state hs).step_waits

/-- The same holds for work after a call that does not crash and leaves a machine which does not
wait. -/
theorem Session.sound_of_toilAfter {error : Fault → HostError} {act : Act Upset σ Unit}
    {next : Session σ → Option (Stretch σ)} {w : Stretch σ}
    (hact : Good (s.left act).state ∧ waits (s.left act).state = none)
    (hblames : ∀ u, (act s.state).result = .error u →
      ∃ fault, u = .fault fault ∧ (error fault).Blames s.lang)
    (hnext : ∀ w', next (s.left act) = some w' → w'.Sound Good waits (s.left act).lang)
    (hw : s.toilAfter m op error act next = some w) : w.Sound Good waits s.lang := by
  unfold toilAfter at hw
  split at hw
  · obtain ⟨w', hw', rfl⟩ := Option.map_eq_some_iff.mp hw
    obtain ⟨hstep, hlang, hrest⟩ := hnext w' hw'
    exact ⟨hstep, hlang, hrest⟩
  · rename_i upset hr
    cases hw
    obtain ⟨fault, rfl, hfault⟩ := hblames upset hr
    refine ⟨⟨hact.1, hact.2⟩, rfl, fun e he => ?_⟩
    cases he
    exact hfault

/-- The machine in use, if there is one, waits for the input that the host has requested. -/
def Host.InStep (Good : σ → Prop) (waits : σ → Option InputKind) (h : Host σ) : Prop :=
  ∀ s, h.session = some s → s.InStep Good waits h.request

/-- An answer that fits the open request reaches a machine that waits for an input of its kind. -/
theorem Host.InStep.of_resolve (hs : h.InStep Good waits) (hsession : h.session = some s)
    {value : Json} {kind : InputKind} {input : Input}
    (hr : Request.resolve h.request value = .ok (kind, input)) :
    Good s.state ∧ waits s.state = some kind ∧ input.kind = kind := by
  obtain ⟨hreq, hkind⟩ := Request.resolve_ok hr
  have hstep := hs s hsession
  exact ⟨hstep.good, hstep.waits_eq.trans hreq, hkind⟩

namespace Catalogue.Reliable

/-- A session that has just been opened does not wait. -/
theorem opens (hc : c.Reliable Good waits) {lang : String} {options : Options}
    (hs : c.openSession lang options = .ok s) : s.InStep Good waits none := by
  obtain ⟨language, hl, hb, -⟩ := openSession_ok hs
  obtain ⟨hgood, hnone⟩ := hc.builds language hl options s.state hb
  exact ⟨hgood, hnone⟩

/-- Work on a run that begins is sound for the language in use, also if the code that comes with the
button does not load. -/
theorem interpret_sound (hc : c.Reliable Good waits) (hh : h.Consistent)
    (hs : h.InStep Good waits) {args : ButtonArgs} {e : Effort σ}
    (he : h.effort? c bound (.press .interpret args) = some e) :
    ∃ s, h.session = some s ∧ e.stretch.Sound Good waits s.lang := by
  simp only [Host.effort?] at he
  split at he
  · rename_i s hop hsession
    refine ⟨s, hsession, ?_⟩
    -- An idle host has requested nothing, so the machine does not wait.
    have hstep := hs s hsession
    rw [hh.request_of_idle hop] at hstep
    obtain ⟨-, -, -, hw⟩ := Effort.of_beginEffort he
    split at hw
    · exact Session.sound_of_toil hc.lawful hstep.good hw
    · rename_i source hcode
      obtain ⟨hload, hfault⟩ := hc.lawful.load_safe hstep.good hstep.waits_eq source
      refine Session.sound_of_toilAfter hload (fun u hu => ?_)
        (fun w' hw' => Session.sound_of_toil hc.lawful hload.1 hw') hw
      cases u with
      | fault fault => exact ⟨fault, rfl, .inl ⟨fault, rfl⟩⟩
      | crash message => exact (hfault _ hu).elim
  · cases he

/-- Work on a single step is sound for the language in use. -/
theorem step_sound (hc : c.Reliable Good waits) (hs : h.InStep Good waits) {args : ButtonArgs}
    {e : Effort σ} (he : h.effort? c bound (.press .step args) = some e) :
    ∃ s, h.session = some s ∧ e.stretch.Sound Good waits s.lang := by
  simp only [Host.effort?] at he
  split at he
  · rename_i s hop hsession
    split at he
    · obtain ⟨-, -, -, hw⟩ := Effort.of_beginEffort he
      exact ⟨s, hsession, Session.sound_of_toil hc.lawful (hs s hsession).good hw⟩
    · cases he
  · cases he

/-- Work that goes on with an answer is sound for the language in use: the answer reaches a machine
that waits for it. -/
theorem unblock_sound (hc : c.Reliable Good waits) (hs : h.InStep Good waits) {value : Json}
    {popStatus : Bool} {e : Effort σ}
    (he : h.effort? c bound (.unblock value popStatus) = some e) :
    ∃ s, h.session = some s ∧ e.stretch.Sound Good waits s.lang := by
  simp only [Host.effort?] at he
  split at he
  · rename_i op s kind input hop hsession hr
    refine ⟨s, hsession, ?_⟩
    obtain ⟨hgood, hwaits, rfl⟩ := hs.of_resolve hsession hr
    obtain ⟨hresume, hmild⟩ := (hc.lawful s.state hgood).resume_safe input hwaits
    obtain ⟨w, hw, rfl⟩ := Option.map_eq_some_iff.mp he
    refine Session.sound_of_toilAfter hresume (fun u hu => ?_) (fun w' hw' => ?_) hw
    · have hu' := hmild u hu
      cases u with
      | fault fault => exact ⟨fault, rfl, .inr ⟨fault, hu', rfl⟩⟩
      | crash message => exact hu'.elim
    · -- A run goes on; a single step is done once its input is there.
      cases htask : op.task with
      | run =>
        rw [htask] at hw'
        exact Session.sound_of_toil hc.lawful hresume.1 hw'
      | step =>
        rw [htask] at hw'
        cases hw'
        refine ⟨⟨hresume.1, hresume.2⟩, rfl, fun error hfailed => ?_⟩
        cases hfailed
  · cases he

/-- Work in the course of a command is sound for the language in use. -/
theorem effort_sound (hc : c.Reliable Good waits) (hh : h.Consistent) (hs : h.InStep Good waits)
    {e : Effort σ} (he : h.effort? c bound command = some e) :
    ∃ s, h.session = some s ∧ e.stretch.Sound Good waits s.lang := by
  cases command with
  | setLanguage lang options => cases he
  | loadCode source => cases he
  | unblock value popStatus => exact hc.unblock_sound hs he
  | press button args =>
    cases button with
    | reset => cases he
    | interpret => exact hc.interpret_sound hh hs he
    | step => exact hc.step_sound hs he
    | minify =>
      -- The only work over a question is the end by a crash, and there is none.
      obtain ⟨s, hsession, he⟩ := Option.bind_eq_some_iff.mp he
      obtain ⟨code, hanswer⟩ := (hc.lawful s.state (hs s hsession).good).minify_ok _
      rw [hanswer, h.crashEffort_of_ok] at he
      cases he
    | textToCode =>
      obtain ⟨s, hsession, he⟩ := Option.bind_eq_some_iff.mp he
      obtain ⟨code, hanswer⟩ := (hc.lawful s.state (hs s hsession).good).fromText_ok _
      rw [hanswer, h.crashEffort_of_ok] at he
      cases he

/-- The calls that come with every command keep the invariant and do not crash. -/
theorem keeps (hc : c.Reliable Good waits) :
    Handling.Keeps c.machine (fun s => Good s.state) fun _ => False where
  load source s hs := by
    obtain ⟨hgood, hfault⟩ := hc.lawful.load_good hs source
    exact ⟨hgood, fun message hr => hfault _ hr⟩
  reset s hs := by
    obtain ⟨hok, hgood, -⟩ := (hc.lawful s.state hs).reset_ready
    exact ⟨hgood, fun message hr => nomatch hok.symm.trans hr⟩
  step s hs := by
    obtain ⟨hgood, hmild⟩ := (hc.lawful s.state hs).step_safe
    exact ⟨hgood, fun message hr => hmild _ hr⟩
  minify source s crash hs hr := by
    obtain ⟨answer, ha⟩ := (hc.lawful s.state hs).minify_ok source
    rw [ha] at hr
    cases hr
  fromText text s crash hs hr := by
    obtain ⟨answer, ha⟩ := (hc.lawful s.state hs).fromText_ok text
    rw [ha] at hr
    cases hr

/-- No command crashes a machine of the catalogue. -/
theorem dispatch_ne_crashed (hc : c.Reliable Good waits) (hh : h.Consistent)
    (hs : h.InStep Good waits) (message : Crash) :
    Handling.dispatch c bound command h ≠ some (.error (.crashed message), h') := by
  intro hd
  refine Handling.dispatch_stops hc.keeps hh (fun s hsession => (hs s hsession).good)
    (fun lang options s ho => (hc.opens ho).good) (fun s value kind input hsession hr => ?_) hd
  obtain ⟨hgood, hwaits, rfl⟩ := hs.of_resolve hsession hr
  obtain ⟨⟨hgood', -⟩, hmild⟩ := (hc.lawful s.state hgood).resume_safe input hwaits
  exact ⟨hgood', fun message hr => hmild _ hr⟩

end Catalogue.Reliable

/-! ## The courses of a command -/

/-- Work on an operation keeps host and machine in step: the host that comes to rest waits just if
the work does, and code that is loaded last does not make the machine wait. -/
theorem Effort.leaves_inStep {e : Effort σ} (hm : m.Lawful Good waits)
    (he : e.stretch.session.InStep Good waits e.stretch.rest.awaited) :
    (e.leaves m h).InStep Good waits := by
  intro s hs
  unfold leaves at hs ⊢
  cases hrest : e.stretch.rest with
  | waits kind =>
    rw [hrest] at hs he
    cases hs
    exact he
  | ends ending =>
    rw [hrest] at hs he
    cases hs
    exact he.withHeld hm h.held

/-- Every course of a command keeps host and machine in step. -/
theorem Course.inStep (hc : c.Reliable Good waits) (hh : h.Consistent)
    (hs : h.InStep Good waits) (hx : Course c bound h command events h') :
    h'.InStep Good waits := by
  cases hx with
  | refused dispatched idle kept => exact hs
  | minified session answer => exact hs
  | fromText session answer => exact hs
  | crashed question dispatched operation => exact hs
  | held busy => exact hs
  | loaded operation session =>
    intro s' hs'
    cases hs'
    have hstep := hs _ session
    change Session.InStep Good waits h.request _
    -- The host is idle, so neither it nor the machine waits, before the load or after it.
    rw [hh.request_of_idle operation] at hstep ⊢
    exact hstep.withHeld hc.lawful _
  | opened session loads =>
    intro s' hs'
    cases hs'
    change Session.InStep Good waits h.released.request _
    rw [hh.released_request]
    exact (hc.opens session).withHeld hc.lawful _
  | openCrashed session crash =>
    exact absurd crash (Session.heldResult_ne_crash hc.lawful (hc.opens session).good _ _)
  | reset session loads =>
    intro s' hs'
    cases hs'
    change Session.InStep Good waits h.released.request _
    rw [hh.released_request]
    -- The machine may still wait for the answer that was given up; the reset ends that.
    exact .reset hc.lawful (Session.withHeld_good hc.lawful (hs _ session).good _)
  | resetCrashed session crash =>
    exact absurd crash (Session.heldResult_ne_crash hc.lawful (hs _ session).good _ _)
  | worked effort =>
    obtain ⟨s, -, hsound⟩ := hc.effort_sound hh hs effort
    exact Effort.leaves_inStep hc.lawful hsound.inStep

end EsotericHost
