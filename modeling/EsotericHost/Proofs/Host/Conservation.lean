import EsotericHost.Proofs.Host.Requests

/-!
# The account of requests

A client learns from the events alone whether it owes an answer. Every command keeps the account of
requests (`Host.RequestStep.account`): one that was open or has been sent has been answered, has
been dropped or is open. From that follow, by induction over a run of commands, the account of the
run (`Host.requests_run`) and that the open request is the one that was sent last
(`Host.sentLast_of_open`). The machines are left open, and may crash.
-/

namespace EsotericHost

variable {σ : Type} {c : Catalogue σ} {bound : Nat} {h h' : Host σ} {command : Command}
  {events : List Event}

namespace Host

/-! ## The account of a run -/

/-- On how many commands of a run something holds of the command and the host that it finds. -/
def tally (c : Catalogue σ) (bound : Nat) (p : Host σ → Command → Bool) :
    List Command → Host σ → Nat
  | [], _ => 0
  | command :: rest, h =>
    match h.handle c bound command with
    | none => 0
    | some (_, h') => (p h command).toNat + tally c bound p rest h'

/-- How many requests a run of commands has answered. -/
def answered (c : Catalogue σ) (bound : Nat) (commands : List Command) (h : Host σ) : Nat :=
  tally c bound (answers c bound) commands h

/-- How many requests a run of commands has dropped. -/
def dropped (c : Catalogue σ) (bound : Nat) (commands : List Command) (h : Host σ) : Nat :=
  tally c bound (drops c bound) commands h

/-- The tally of a run is that of its first command and that of the rest. -/
theorem tally_cons {p : Host σ → Command → Bool} {rest : List Command}
    (hx : h.handle c bound command = some (events, h')) :
    tally c bound p (command :: rest) h = (p h command).toNat + tally c bound p rest h' := by
  rw [tally, hx]

/-- The tally of a run is that of all its commands but the last and that of the last. -/
theorem tally_concat {p : Host σ → Command → Bool} {commands : List Command}
    {steps : List (List Event)} {h'' : Host σ}
    (hrun : h.handleAll c bound commands = some (steps, h'))
    (hx : h'.handle c bound command = some (events, h'')) :
    tally c bound p (commands ++ [command]) h =
      tally c bound p commands h + (p h' command).toNat := by
  induction commands generalizing h steps with
  | nil =>
    cases hrun
    rw [List.nil_append, tally_cons hx]
    exact Nat.add_comm _ _
  | cons first rest ih =>
    obtain ⟨opening, h₁, more, hfirst, hrest, rfl⟩ := handleAll_cons hrun
    rw [List.cons_append, tally_cons hfirst, tally_cons hfirst, ih hrest, Nat.add_assoc]

/-- One command keeps the account: a request that was open or has been sent has been answered, has
been dropped or is open. -/
theorem RequestStep.account (hh : h.Consistent) (hs : RequestStep c bound h command events h') :
    (requestsIn events).length + h.request.isSome.toNat =
      (h.answers c bound command).toNat + (h.drops c bound command).toNat +
        h'.request.isSome.toNat := by
  cases hs with
  | asked outstanding last silent closed =>
    have hone : (requestsIn events).length = 1 := by
      rw [last, requestsIn_append, silent]
      rfl
    rw [hone, outstanding]
    rcases closed with hnone | hanswers
    · -- Nothing was open, so nothing could be answered or dropped.
      rw [answers_of_none hh hnone, drops_of_none hnone, hnone]
      rfl
    · rw [hanswers, drops_of_answers hanswers, request_of_answers hh hanswers]
      rfl
  | closed silent outstanding closed =>
    rw [silent, outstanding]
    rcases closed with hnone | hanswers | hdrops
    · rw [answers_of_none hh hnone, drops_of_none hnone, hnone]
      rfl
    · rw [hanswers, drops_of_answers hanswers, request_of_answers hh hanswers]
      rfl
    · rw [answers_of_drops hdrops, hdrops, request_of_drops hdrops]
      rfl
  | kept silent outstanding unanswered undropped =>
    rw [silent, outstanding, unanswered, undropped]
    rfl

/-- A command that finds no request open, or answers the one that is, sends the request that it
leaves open and no other one. -/
theorem RequestStep.requestsIn_eq (hs : RequestStep c bound h command events h')
    (hclosed : h.request = none ∨ h.answers c bound command = true) :
    requestsIn events = h'.request.toList := by
  cases hs with
  | asked outstanding last silent closed =>
    rw [last, requestsIn_append, silent, outstanding]
    rfl
  | closed silent outstanding closed =>
    rw [silent, outstanding]
    rfl
  | kept silent outstanding unanswered undropped =>
    rcases hclosed with hnone | hanswers
    · rw [silent, outstanding, hnone]
      rfl
    · rw [unanswered] at hanswers
      cases hanswers

/-- A run of commands keeps the account. -/
theorem requests_run {commands : List Command} {steps : List (List Event)} (hh : h.Consistent)
    (hrun : h.handleAll c bound commands = some (steps, h')) :
    (requestsIn steps.flatten).length + h.request.isSome.toNat =
      h.answered c bound commands + h.dropped c bound commands + h'.request.isSome.toNat := by
  induction commands generalizing h steps with
  | nil =>
    cases hrun
    rfl
  | cons command rest ih =>
    obtain ⟨events, h₁, more, hx, hrest, rfl⟩ := handleAll_cons hrun
    have hcourse := handle_course hh hx
    have hone := (hcourse.requestStep hh).account hh
    have hlater := ih (hcourse.consistent hh) hrest
    have hanswered : h.answered c bound (command :: rest) =
        (h.answers c bound command).toNat + h₁.answered c bound rest := tally_cons hx
    have hdropped : h.dropped c bound (command :: rest) =
        (h.drops c bound command).toNat + h₁.dropped c bound rest := tally_cons hx
    rw [List.flatten_cons, requestsIn_append, List.length_append]
    omega

/-! ## The request that was sent last -/

/-- The request of the given kind that is open after a run of commands is the one that was sent
last: a command of the run has sent it, and none of those after it has sent, answered or dropped
any. -/
def SentLast (c : Catalogue σ) (bound : Nat) (commands : List Command) (h h' : Host σ)
    (kind : InputKind) : Prop :=
  ∃ before opener since sent h₀ events h₁ later,
    commands = before ++ opener :: since ∧
    h.handleAll c bound before = some (sent, h₀) ∧
    h₀.handle c bound opener = some (events ++ [.request kind], h₁) ∧
    h₁.handleAll c bound since = some (later, h') ∧
    requestsIn later.flatten = [] ∧ h₁.answered c bound since = 0 ∧ h₁.dropped c bound since = 0

/-- A run of commands from the host that a command leaves. -/
theorem handleAll_of_cons {rest : List Command} {more : List (List Event)} {h'' : Host σ}
    (hx : h.handle c bound command = some (events, h'))
    (hrest : h'.handleAll c bound rest = some (more, h'')) :
    h.handleAll c bound (command :: rest) = some (events :: more, h'') := by
  rw [handleAll, hx]
  dsimp only
  rw [hrest]
  rfl

/-- A request that was sent last in the rest of a run was sent last in the run. -/
theorem SentLast.cons {kind : InputKind} {rest : List Command} {h'' : Host σ}
    (hx : h.handle c bound command = some (events, h'))
    (hlast : SentLast c bound rest h' h'' kind) :
    SentLast c bound (command :: rest) h h'' kind := by
  obtain ⟨before, opener, since, sent, h₀, sending, h₁, later, rfl, hbefore, hrest⟩ := hlast
  exact ⟨command :: before, opener, since, events :: sent, h₀, sending, h₁, later, rfl,
    handleAll_of_cons hx hbefore, hrest⟩

/-- A request that is open after a run of commands was open all along, or is the one that was sent
last. -/
theorem sentLast_of_open {commands : List Command} {steps : List (List Event)} {kind : InputKind}
    (hh : h.Consistent) (hrun : h.handleAll c bound commands = some (steps, h'))
    (hopen : h'.request = some kind) :
    (h.request = some kind ∧ requestsIn steps.flatten = [] ∧ h.answered c bound commands = 0 ∧
        h.dropped c bound commands = 0) ∨
      SentLast c bound commands h h' kind := by
  -- The induction is from the last command back to the one that has sent the request.
  induction commands generalizing h steps with
  | nil =>
    cases hrun
    exact .inl ⟨hopen, rfl, rfl, rfl⟩
  | cons command rest ih =>
    obtain ⟨events, h₁, more, hx, hrest, rfl⟩ := handleAll_cons hrun
    have hcourse := handle_course hh hx
    rcases ih (hcourse.consistent hh) hrest with ⟨hopen₁, hsilent, hanswered, hdropped⟩ | hlast
    · cases hcourse.requestStep hh with
      | asked outstanding last silent closed =>
        rename_i asked before
        obtain rfl : asked = kind := Option.some.inj (outstanding.symm.trans hopen₁)
        rw [last] at hx
        exact .inr ⟨[], command, rest, [], h, before, h₁, more, rfl, rfl, hx, hrest, hsilent,
          hanswered, hdropped⟩
      | closed silent outstanding closed =>
        rw [outstanding] at hopen₁
        cases hopen₁
      | kept silent outstanding unanswered undropped =>
        refine .inl ⟨outstanding.symm.trans hopen₁, ?_, ?_, ?_⟩
        · rw [List.flatten_cons, requestsIn_append, silent, hsilent]
          rfl
        · have htally : h.answered c bound (command :: rest) =
              (h.answers c bound command).toNat + h₁.answered c bound rest := tally_cons hx
          rw [htally, unanswered, hanswered]
          rfl
        · have htally : h.dropped c bound (command :: rest) =
              (h.drops c bound command).toNat + h₁.dropped c bound rest := tally_cons hx
          rw [htally, undropped, hdropped]
          rfl
    · exact .inr (hlast.cons hx)

/-! ## The wire -/

/-- A command asks for input just if it opens the request that is open after it. -/
theorem RequestStep.mem_iff (hs : RequestStep c bound h command events h') (kind : InputKind) :
    Event.request kind ∈ events ↔
      h.opens c bound command h' = true ∧ h'.request = some kind := by
  rw [← mem_requestsIn]
  unfold opens
  cases hs with
  | asked outstanding last silent closed =>
    rw [last, requestsIn_append, silent, outstanding]
    have hclosed : (h.request.isNone || h.answers c bound command ||
        h.drops c bound command) = true := by
      rcases closed with hnone | hanswers
      · rw [hnone]
        rfl
      · rw [hanswers, Bool.or_true, Bool.true_or]
    rw [hclosed]
    simp [requestsIn, Event.request?, eq_comm]
  | closed silent outstanding closed =>
    rw [silent, outstanding]
    simp
  | kept silent outstanding unanswered undropped =>
    rw [silent, outstanding, unanswered, undropped]
    cases h.request <;> simp

/-- A command that asks for input does so by its last event, and only once. -/
theorem RequestStep.last (hs : RequestStep c bound h command events h') {kind : InputKind}
    (hk : Event.request kind ∈ events) :
    ∃ before, events = before ++ [.request kind] ∧ ∀ k, Event.request k ∉ before := by
  rw [← mem_requestsIn] at hk
  cases hs with
  | asked outstanding last silent closed =>
    rename_i asked before
    rw [last, requestsIn_append, silent] at hk
    obtain rfl : kind = asked := List.mem_singleton.mp hk
    refine ⟨before, last, fun k hmem => ?_⟩
    rw [← mem_requestsIn, silent] at hmem
    cases hmem
  | closed silent outstanding closed =>
    rw [silent] at hk
    cases hk
  | kept silent outstanding unanswered undropped =>
    rw [silent] at hk
    cases hk

/-- An answer that has been taken has made the machine go on with the input. -/
theorem effort_of_answers {value : Json} {popStatus : Bool} (hh : h.Consistent)
    (ha : h.answers c bound (.unblock value popStatus) = true)
    (hx : h.handle c bound (.unblock value popStatus) = some (events, h')) :
    ∃ e, h.effort? c bound (.unblock value popStatus) = some e ∧
      events = e.events c.machine h.held ∧ h' = e.leaves c.machine h := by
  cases handle_course hh hx with
  | refused dispatched idle kept =>
    rw [answers_of_refused dispatched] at ha
    cases ha
  | worked effort => exact ⟨_, effort, rfl, rfl⟩

/-- After every run of commands, with any machines that may be plugged in, the requests that have
been sent are those that have been answered, those that have been dropped and the one that is open.

A command asks for an input of a kind just if it opens the request that is open after it, of that
kind, and it does so by its last event only. An answer that is taken answers the request that was
sent last, and the machine goes on with an input of its kind; a value that does not fit leaves the
host as it was. -/
theorem requests_conserved (c : Catalogue σ) (bound : Nat) (limit : Option Nat)
    (commands : List Command) {steps : List (List Event)} {h : Host σ}
    (hrun : (Host.new limit).handleAll c bound commands = some (steps, h)) :
    (requestsIn steps.flatten).length =
        (Host.new limit).answered c bound commands + (Host.new limit).dropped c bound commands +
          (if h.request.isSome then 1 else 0) ∧
    (∀ command events h', h.handle c bound command = some (events, h') →
      (∀ kind, Event.request kind ∈ events ↔
        h.opens c bound command h' = true ∧ h'.request = some kind) ∧
      ∀ kind, Event.request kind ∈ events →
        ∃ before, events = before ++ [.request kind] ∧ ∀ k, Event.request k ∉ before) ∧
    (∀ value popStatus, h.answers c bound (.unblock value popStatus) = true →
      ∃ kind input, h.request = some kind ∧ SentLast c bound commands (Host.new limit) h kind ∧
        Request.answer kind value = .ok input ∧ input.kind = kind ∧
        ∀ events h', h.handle c bound (.unblock value popStatus) = some (events, h') →
          ∃ (s : Session σ) (e : Effort σ), h.session = some s ∧ h.operation = some e.operation ∧
            s.toilWith c.machine bound e.operation input = some e.stretch ∧
            events = e.events c.machine h.held ∧ h' = e.leaves c.machine h) ∧
    ∀ kind value popStatus e, h.request = some kind → Request.answer kind value = .error e →
      h.handle c bound (.unblock value popStatus) = some ([.error e.message], h) := by
  have hh : h.Consistent := handleAll_consistent (new_consistent limit) hrun
  refine ⟨?_, fun command events h' hx => ?_, fun value popStatus ha => ?_,
    fun kind value popStatus e hopen hanswer => ?_⟩
  · have haccount := requests_run (new_consistent limit) hrun
    have hnew : (Host.new limit : Host σ).request.isSome.toNat = 0 := rfl
    rw [hnew, Nat.add_zero] at haccount
    rw [haccount]
    cases h.request <;> rfl
  · have hstep := (handle_course hh hx).requestStep hh
    exact ⟨hstep.mem_iff, fun kind hk => hstep.last hk⟩
  · obtain ⟨⟨kind, input⟩, hr⟩ := (answers_iff hh).mp ha
    obtain ⟨hopen, hkind⟩ := Request.resolve_ok hr
    have hanswer : Request.answer kind value = .ok input := by
      rw [hopen] at hr
      show Request.answer kind value = .ok input
      cases hgiven : Request.answer kind value with
      | error e => simp [Request.resolve, hgiven, Except.map] at hr
      | ok given =>
        simp only [Request.resolve, hgiven, Except.map, Except.ok.injEq, Prod.mk.injEq] at hr
        rw [hr.2]
    -- A new host has no request open, so the open one was sent in the course of the run.
    have hlast : SentLast c bound commands (Host.new limit) h kind := by
      rcases sentLast_of_open (new_consistent limit) hrun hopen with ⟨hnew, -⟩ | hlast
      · cases hnew
      · exact hlast
    refine ⟨kind, input, hopen, hlast, hanswer, hkind, fun events h' hx => ?_⟩
    obtain ⟨e, he, hevents, hleaves⟩ := effort_of_answers hh ha hx
    obtain ⟨kind', input', s, hop, hsession, hr', hw⟩ := Effort.of_unblock he
    obtain ⟨rfl, rfl⟩ : kind' = kind ∧ input' = input := by
      rw [hr] at hr'
      cases hr'
      exact ⟨rfl, rfl⟩
    exact ⟨s, e, hsession, hop, hw, hevents, hleaves⟩
  · have hr : Request.resolve h.request value = .error e := by
      rw [hopen]
      show (Request.answer kind value).map (kind, ·) = .error e
      rw [hanswer]
      rfl
    exact handle_of_refused hh (Handling.unblock_of_error hr)

/-- A client that starts a program which reads two bytes, sends an answer that does not fit and then
one that does. -/
def answerOnce : List Command :=
  [.setLanguage "befunge" .empty, .press .interpret ⟨some "~~@", none⟩, .unblock (.bool true) true,
    .unblock .null true]

/-- Of the two requests that such a client is sent, one has been answered and the other one is
open. -/
theorem requests_conserved_twice :
    ∃ steps h, (Host.new none).handleAll (Catalogue.standard fun _ => .right) 5 answerOnce =
        some (steps, h) ∧ h.request = some .byte ∧
      (requestsIn steps.flatten).length = 2 ∧
      (Host.new none).answered (Catalogue.standard fun _ => .right) 5 answerOnce = 1 := by
  have hbyte : ((Host.new none).handleAll (Catalogue.standard fun _ => .right) 5
      answerOnce).bind (fun run => run.2.request) = some .byte := by decide +kernel
  have hone : (Host.new none).answered (Catalogue.standard fun _ => .right) 5 answerOnce = 1 := by
    decide +kernel
  have hzero : (Host.new none).dropped (Catalogue.standard fun _ => .right) 5 answerOnce = 0 := by
    decide +kernel
  obtain ⟨⟨steps, h⟩, hrun, hreq⟩ := Option.bind_eq_some_iff.mp hbyte
  have haccount := (requests_conserved _ 5 none _ hrun).1
  have hreq' : h.request = some .byte := hreq
  rw [hone, hzero, hreq'] at haccount
  exact ⟨steps, h, hrun, hreq', haccount, hone⟩

end Host

end EsotericHost
