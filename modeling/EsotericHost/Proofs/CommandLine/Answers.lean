import EsotericHost.Catalogue.Standard
import EsotericHost.Proofs.CommandLine.Feed
import EsotericHost.Proofs.CommandLine.Scene
import EsotericHost.Proofs.Host.Conservation

/-!
# Answering the requests of a program

A program that is run from the command line is given its input request by request: the events of
each command are searched for a request, the feed answers it, and the answer is the next command.
`Round` is where this loop stands and `Reached` says which rounds it comes to. A job ends just if it
comes to a round without a request (`ends_run_iff`).

In every round (`Reached.account`) the requests that the host has sent are those that have been
answered, in their order, and the one that is open. Each of them has been answered from the feed,
whose answers divide the input among themselves, and the host has taken every answer.
-/

namespace EsotericHost.CommandLine

variable {σ : Type}

/-! ## The rounds of the loop -/

/-- Where the loop that answers requests stands. -/
structure Round (σ : Type) where
  /-- The kinds of the requests that have been answered. -/
  kinds : List InputKind
  /-- The events of all commands, command by command. -/
  steps : List (List Event)
  /-- The events that are searched for a request. -/
  events : List Event
  feed : Feed
  host : Host σ

/-- The rounds that the loop comes to after the given commands to a new host, with a text to
feed. -/
inductive Reached (c : Catalogue σ) (bound : Nat) (limit : Option Nat) (commands : List Command)
    (text : String) : Round σ → Prop where
  | begun {steps : List (List Event)} {h : Host σ}
    (ran : (Host.new limit).handleAll c bound commands = some (steps, h)) :
    Reached c bound limit commands text ⟨[], steps, steps.flatten, .ofText text, h⟩
  | answered {r : Round σ} {kind : InputKind} {events : List Event} {h : Host σ}
    (before : Reached c bound limit commands text r) (asked : openRequest? r.events = some kind)
    (handled : r.host.handle c bound (.unblock (r.feed.next kind).1 true) = some (events, h)) :
    Reached c bound limit commands text
      ⟨r.kinds ++ [kind], r.steps ++ [events], events, (r.feed.next kind).2, h⟩

/-- The answers from a text to requests of some kinds, as commands. -/
def answersFrom (text : String) (kinds : List InputKind) : List Command :=
  ((Feed.ofText text).serve kinds).1.map (.unblock · true)

/-- The account of a round: the answers are those of the feed, the requests are those that have been
answered and the one that is open, and each answer has been taken. -/
structure Account (c : Catalogue σ) (bound : Nat) (limit : Option Nat) (commands : List Command)
    (text : String) (r : Round σ) : Prop where
  feed_eq : r.feed = ((Feed.ofText text).serve r.kinds).2
  ran : (Host.new limit).handleAll c bound (commands ++ answersFrom text r.kinds) =
    some (r.steps, r.host)
  requests_eq : requestsIn r.steps.flatten = r.kinds ++ r.host.request.toList
  answered_eq : (Host.new limit).answered c bound (commands ++ answersFrom text r.kinds) =
    r.kinds.length
  dropped_eq : (Host.new limit).dropped c bound (commands ++ answersFrom text r.kinds) = 0
  open_eq : openRequest? r.events = r.host.request

variable {c : Catalogue σ} {bound : Nat} {limit : Option Nat} {commands : List Command}
  {text : String} {r : Round σ} {s : Scene}

/-- The request that is searched for is the last one. -/
theorem openRequest?_eq (events : List Event) :
    openRequest? events = (requestsIn events).getLast? := by
  unfold openRequest?
  rw [← Option.or_none (o := (requestsIn events).getLast?)]
  -- The last request takes the place of any that has been found before.
  generalize (none : Option InputKind) = found
  induction events generalizing found with
  | nil => rfl
  | cons e rest ih =>
    rw [List.foldl_cons, ih]
    cases e with
    | request kind =>
      have hcons : requestsIn (.request kind :: rest) = kind :: requestsIn rest := rfl
      rw [hcons, List.getLast?_cons]
      cases (requestsIn rest).getLast? <;> rfl
    | _ => rfl

/-- The answer to one more request is given by what the feed has left after the others. -/
theorem answersFrom_concat (text : String) (kinds : List InputKind) (kind : InputKind) :
    answersFrom text (kinds ++ [kind]) =
      answersFrom text kinds ++
        [.unblock (((Feed.ofText text).serve kinds).2.next kind).1 true] := by
  unfold answersFrom
  rw [Feed.serve_concat, List.map_append]
  rfl

/-- A command that makes no machine work leaves an idle host idle and asks for nothing. -/
theorem quiet_of_idle {h h' : Host σ} {command : Command} {events : List Event} (hh : h.Consistent)
    (hop : h.operation = none) (hnone : h.effort? c bound command = none)
    (hx : h.handle c bound command = some (events, h')) :
    h'.Consistent ∧ h'.operation = none ∧ requestsIn events = [] := by
  have hcourse := Host.handle_course hh hx
  have hh' := hcourse.consistent hh
  have hop' := hcourse.idle hop hnone
  have hsilent := (hcourse.requestStep hh).requestsIn_eq (.inl (hh.request_of_idle hop))
  rw [hh'.request_of_idle hop'] at hsilent
  exact ⟨hh', hop', hsilent⟩

/-- Of the commands that run a program only the last one can ask for input. -/
theorem requestsIn_runCommands {lang source : String} {options : Options}
    {steps : List (List Event)} {h : Host σ}
    (hrun : (Host.new limit).handleAll c bound (runCommands lang options source) =
      some (steps, h)) :
    requestsIn steps.flatten = h.request.toList := by
  obtain ⟨events₁, h₁, steps₁, hx₁, hrest₁, rfl⟩ := Host.handleAll_cons hrun
  obtain ⟨events₂, h₂, steps₂, hx₂, hrest₂, rfl⟩ := Host.handleAll_cons hrest₁
  obtain ⟨events₃, h₃, steps₃, hx₃, hrest₃, rfl⟩ := Host.handleAll_cons hrest₂
  cases hrest₃
  obtain ⟨hh₁, hop₁, hsilent₁⟩ := quiet_of_idle (Host.new_consistent limit) rfl rfl hx₁
  obtain ⟨hh₂, hop₂, hsilent₂⟩ := quiet_of_idle hh₁ hop₁ rfl hx₂
  have hlast : requestsIn events₃ = h.request.toList :=
    ((Host.handle_course hh₂ hx₃).requestStep hh₂).requestsIn_eq (.inl (hh₂.request_of_idle hop₂))
  rw [List.flatten_cons, List.flatten_cons, List.flatten_cons, requestsIn_append,
    requestsIn_append, requestsIn_append, hsilent₁, hsilent₂, hlast]
  exact List.append_nil _

/-- A job that has begun has answered nothing yet. -/
theorem account_begun {lang source : String} {options : Options} {steps : List (List Event)}
    {h : Host σ}
    (hrun : (Host.new limit).handleAll c bound (runCommands lang options source) =
      some (steps, h)) :
    Account c bound limit (runCommands lang options source) text
      ⟨[], steps, steps.flatten, .ofText text, h⟩ := by
  have hrequests := requestsIn_runCommands hrun
  have hcommands : runCommands lang options source ++ answersFrom text [] =
      runCommands lang options source := List.append_nil _
  -- All that has been sent is open, so that nothing is left to be answered or dropped.
  have hcounts := Host.requests_run (Host.new_consistent limit) hrun
  have hlength : h.request.toList.length = h.request.isSome.toNat := by
    cases h.request <;> rfl
  have hnew : (Host.new limit : Host σ).request.isSome.toNat = 0 := rfl
  rw [hrequests, hlength, hnew] at hcounts
  refine ⟨rfl, ?_, hrequests, ?_, ?_, ?_⟩
  · rw [hcommands]
    exact hrun
  · rw [hcommands, List.length_nil]
    omega
  · rw [hcommands]
    omega
  · rw [openRequest?_eq, hrequests]
    cases h.request <;> rfl

namespace Account

/-- A round that is accounted for stands at a consistent host. -/
theorem consistent (ha : Account c bound limit commands text r) : r.host.Consistent :=
  Host.handleAll_consistent (Host.new_consistent limit) ha.ran

/-- The answer to the open request fits it, and the host takes it. -/
theorem accepted (ha : Account c bound limit commands text r) {kind : InputKind}
    (hopen : r.host.request = some kind) :
    ∃ input taken left, r.feed.rest = taken ++ left ∧ Takes input taken left ∧
      Request.resolve r.host.request (r.feed.next kind).1 = .ok (kind, input) ∧
      r.host.answers c bound (.unblock (r.feed.next kind).1 true) = true := by
  obtain ⟨input, taken, left, hkind, hrest, htakes, hnext⟩ := r.feed.next_takes kind
  have hresolve : Request.resolve r.host.request (r.feed.next kind).1 = .ok (kind, input) := by
    rw [hopen, hnext, ← hkind]
    exact Request.resolve_value input
  exact ⟨input, taken, left, hrest, htakes, hresolve,
    (Host.answers_iff ha.consistent).mpr ⟨_, hresolve⟩⟩

/-- The account is kept when the open request is answered. -/
theorem answered {kind : InputKind} {events : List Event} {h : Host σ}
    (ha : Account c bound limit commands text r) (hasked : openRequest? r.events = some kind)
    (hx : r.host.handle c bound (.unblock (r.feed.next kind).1 true) = some (events, h)) :
    Account c bound limit commands text
      ⟨r.kinds ++ [kind], r.steps ++ [events], events, (r.feed.next kind).2, h⟩ := by
  have hopen : r.host.request = some kind := ha.open_eq.symm.trans hasked
  obtain ⟨-, -, -, -, -, -, hanswers⟩ := ha.accepted hopen
  have hcommands : commands ++ answersFrom text (r.kinds ++ [kind]) =
      (commands ++ answersFrom text r.kinds) ++ [.unblock (r.feed.next kind).1 true] := by
    rw [answersFrom_concat, ← ha.feed_eq, List.append_assoc]
  have hrequests : requestsIn events = h.request.toList :=
    ((Host.handle_course ha.consistent hx).requestStep ha.consistent).requestsIn_eq (.inr hanswers)
  refine ⟨?_, ?_, ?_, ?_, ?_, ?_⟩
  · rw [Feed.serve_concat, ← ha.feed_eq]
  · rw [hcommands]
    exact Host.handleAll_concat ha.ran hx
  -- The request that was open is now one of those that have been answered.
  · rw [List.flatten_append, requestsIn_append, ha.requests_eq, hopen, List.flatten_singleton,
      hrequests]
    rfl
  · have htally : (Host.new limit).answered c bound ((commands ++ answersFrom text r.kinds) ++
        [.unblock (r.feed.next kind).1 true]) = _ := Host.tally_concat ha.ran hx
    rw [hcommands, htally, hanswers, List.length_append]
    exact congrArg (· + 1) ha.answered_eq
  · have htally : (Host.new limit).dropped c bound ((commands ++ answersFrom text r.kinds) ++
        [.unblock (r.feed.next kind).1 true]) = _ := Host.tally_concat ha.ran hx
    rw [hcommands, htally]
    exact ha.dropped_eq
  · rw [openRequest?_eq, hrequests]
    cases h.request <;> rfl

end Account

/-- Every round that the loop comes to is accounted for. -/
theorem Reached.account {lang source : String} {options : Options}
    (hr : Reached c bound limit (runCommands lang options source) text r) :
    Account c bound limit (runCommands lang options source) text r := by
  induction hr with
  | begun ran => exact account_begun ran
  | answered before asked handled ih => exact ih.answered asked handled

/-! ## The job -/

/-- The feed of a job that has one, or that it gets by its first request. -/
inductive Stocked (around : Surroundings) : Option Feed → Feed → Prop where
  | given (f : Feed) : Stocked around (some f) f
  | taken {text : String} (input : around.takeInput.1 = some text) :
    Stocked around none (.ofText text)

/-- A job that needs its feed gets it. -/
theorem Stocked.plays_needFeed {feed? : Option Feed} {f : Feed} (hs : Stocked s.around feed? f) :
    ∃ s', Plays (needFeed feed?) s (.ok f) s' := by
  cases hs with
  | given f => exact ⟨s, rfl⟩
  | taken input =>
    have hask : Plays (ask .wholeInput) s (.ok s.around.takeInput.1) (s.answer .wholeInput).2 := rfl
    refine ⟨(s.answer .wholeInput).2, (plays_bind hask).mpr ?_⟩
    rw [input]
    rfl

/-- One turn of the loop: the events are shown, and the request among them is answered from the
feed, which is at hand from then on. -/
theorem Stocked.ends_turn {feed? : Option Feed} {f : Feed} {events : List Event} {h : Host σ}
    {kind : InputKind} (hfeed : Stocked s.around feed? f)
    (hasked : openRequest? events = some kind) (requests : Nat) :
    ∃ s', Ends (answerRequests c bound (requests + 1) feed? events h) s ↔
      ∃ later h', h.handle c bound (.unblock (f.next kind).1 true) = some (later, h') ∧
        Ends (answerRequests c bound requests (some (f.next kind).2) later h') s' := by
  obtain ⟨s₁, hshown, haround⟩ := plays_showEvents events s
  obtain ⟨s₂, hneed⟩ := (haround ▸ hfeed : Stocked s₁.around feed? f).plays_needFeed
  refine ⟨s₂, ?_⟩
  rw [answerRequests, ends_bind hshown]
  dsimp only
  rw [hasked]
  refine (ends_bind hneed).trans (ends_answered.trans ?_)
  -- What follows the rest of the loop only puts its result together.
  constructor
  · rintro ⟨⟨later, h'⟩, hx, hends⟩
    exact ⟨later, h', hx, (ends_bind_iff fun _ s => by exact ⟨_, s, rfl⟩).mp hends⟩
  · rintro ⟨later, h', hx, hends⟩
    exact ⟨⟨later, h'⟩, hx, (ends_bind_iff fun _ s => by exact ⟨_, s, rfl⟩).mpr hends⟩

/-- The loop ends where it finds no request. -/
theorem ends_of_none {events : List Event} {h : Host σ} (hnone : openRequest? events = none)
    (requests : Nat) (feed? : Option Feed) (s : Scene) :
    Ends (answerRequests c bound (requests + 1) feed? events h) s := by
  obtain ⟨s', hshown, -⟩ := plays_showEvents events s
  rw [answerRequests, ends_bind hshown]
  dsimp only
  rw [hnone]
  exact ⟨_, s', rfl⟩

/-- The loop ends in a round without a request, and has given no more answers until then than it
may. -/
theorem Reached.of_ends {requests : Nat} {feed? : Option Feed}
    (hr : Reached c bound limit commands text r) (hfeed : Stocked s.around feed? r.feed)
    (h : Ends (answerRequests c bound requests feed? r.events r.host) s) :
    ∃ last, Reached c bound limit commands text last ∧ openRequest? last.events = none ∧
      last.kinds.length < r.kinds.length + requests := by
  induction requests generalizing r feed? s with
  | zero =>
    obtain ⟨result, s', h⟩ := h
    cases h
  | succ requests ih =>
    cases hasked : openRequest? r.events with
    | none => exact ⟨r, hr, hasked, Nat.lt_add_of_pos_right (Nat.succ_pos _)⟩
    | some kind =>
      obtain ⟨s₁, hturn⟩ := hfeed.ends_turn hasked requests
      obtain ⟨later, h', hx, hrest⟩ := hturn.mp h
      obtain ⟨last, hlast, hnone, hlt⟩ := ih (hr.answered hasked hx) (.given _) hrest
      rw [List.length_append, List.length_singleton] at hlt
      exact ⟨last, hlast, hnone, by omega⟩

/-- The loop goes through every round: it ends if it does from there, with as many answers more as
have been given. -/
theorem Reached.ends {requests : Nat} (hr : Reached c bound limit commands text r)
    (hends : ∀ feed? s, Stocked s.around feed? r.feed →
      Ends (answerRequests c bound requests feed? r.events r.host) s) :
    ∃ steps h, (Host.new limit).handleAll c bound commands = some (steps, h) ∧
      ∀ feed? s, Stocked s.around feed? (.ofText text) →
        Ends (answerRequests c bound (r.kinds.length + requests) feed? steps.flatten h) s := by
  induction hr generalizing requests with
  | begun ran =>
    rename_i steps h
    refine ⟨steps, h, ran, ?_⟩
    rw [List.length_nil, Nat.zero_add]
    exact hends
  | answered before asked handled ih =>
    rename_i r kind events h
    have hlength : (r.kinds ++ [kind]).length + requests = r.kinds.length + (requests + 1) := by
      rw [List.length_append, List.length_singleton]
      omega
    rw [hlength]
    refine ih fun feed? s hfeed => ?_
    obtain ⟨s₁, hturn⟩ := hfeed.ends_turn asked requests
    exact hturn.mpr ⟨events, h, handled, hends _ s₁ (.given _)⟩

/-- A job that runs a program ends just if its loop comes to a round without a request, by fewer
answers than its bound. -/
theorem ends_run_iff {lang file source : String} {input : Option String}
    {options : List (String × Json)} (hfile : s.around.files file = .text source)
    (htext : (input <|> s.around.takeInput.1) = some text) :
    Ends (run c bound limit lang file input options) s ↔
      ∃ r, Reached c bound limit (runCommands lang (overlay .empty options) source) text r ∧
        openRequest? r.events = none ∧ r.kinds.length < bound := by
  have hfeed : Stocked s.around (input.map .ofText) (.ofText text) := by
    cases input with
    | none => exact .taken htext
    | some given =>
      cases htext
      exact .given _
  unfold run
  refine (ends_bind (plays_readSource hfile)).trans (ends_answered.trans ?_)
  constructor
  · rintro ⟨⟨steps, h⟩, hran, hends⟩
    have hbegun : Reached c bound limit (runCommands lang (overlay .empty options) source) text
        ⟨[], steps, steps.flatten, .ofText text, h⟩ := .begun hran
    -- What follows the loop ends whatever the loop has come to.
    have hloop := (ends_bind_iff fun failed s => by cases failed <;> exact ⟨_, _, rfl⟩).mp hends
    obtain ⟨last, hlast, hnone, hlt⟩ := hbegun.of_ends hfeed hloop
    rw [List.length_nil, Nat.zero_add] at hlt
    exact ⟨last, hlast, hnone, hlt⟩
  · rintro ⟨r, hr, hnone, hlt⟩
    obtain ⟨requests, hbound⟩ : ∃ requests, r.kinds.length + (requests + 1) = bound :=
      ⟨bound - r.kinds.length - 1, by omega⟩
    obtain ⟨steps, h, hran, hends⟩ := hr.ends fun feed? s _ => ends_of_none hnone requests feed? s
    rw [hbound] at hends
    refine ⟨⟨steps, h⟩, hran, (ends_bind_iff fun failed s => ?_).mpr (hends _ s hfeed)⟩
    cases failed <;> exact ⟨_, _, rfl⟩

/-- **Input is taken once and in order.** For whatever characters and lines a program asks, what the
answers take off the text is the text up to the position of the feed, and each answer is taken for
the input that it stands for.

In every round of a job the requests that have been sent are those that have been answered and the
one that is open; each has been answered by one command, which the host has taken, and the answer to
the open one is taken too. A job ends just if it comes to a round in which no request is open. -/
theorem input_taken_once (c : Catalogue σ) (bound : Nat) (limit : Option Nat) (text : String) :
    (∀ kinds, ∃ helpings, Feed.Portions text.toList kinds ((Feed.ofText text).serve kinds).1
      ((Feed.ofText text).serve kinds).2 helpings) ∧
    (∀ lang options source r, Reached c bound limit (runCommands lang options source) text r →
      Account c bound limit (runCommands lang options source) text r ∧
      ∀ kind, r.host.request = some kind → ∃ input taken left,
        r.feed.rest = taken ++ left ∧ Takes input taken left ∧
        Request.resolve r.host.request (r.feed.next kind).1 = .ok (kind, input) ∧
        r.host.answers c bound (.unblock (r.feed.next kind).1 true) = true) ∧
    ∀ lang file source input options (around : Surroundings) said complaints,
      around.files file = .text source → (input <|> around.takeInput.1) = some text →
      ((∃ report, around.hold (run c bound limit lang file input options).run said complaints =
          some report) ↔
        ∃ r, Reached c bound limit (runCommands lang (overlay .empty options) source) text r ∧
          r.host.request = none ∧ r.kinds.length < bound) := by
  refine ⟨Feed.serve_portions text, fun lang options source r hr =>
    ⟨hr.account, fun kind hopen => hr.account.accepted hopen⟩, ?_⟩
  intro lang file source input options around said complaints hfile htext
  have hreport := ends_iff_report (x := run c bound limit lang file input options)
    (s := ⟨around, said, complaints⟩)
  rw [← hreport, ends_run_iff hfile htext]
  constructor
  · rintro ⟨r, hr, hnone, hlt⟩
    exact ⟨r, hr, hr.account.open_eq.symm.trans hnone, hlt⟩
  · rintro ⟨r, hr, hnone, hlt⟩
    exact ⟨r, hr, hr.account.open_eq.trans hnone, hlt⟩

/-- A program that reads a character and a number gets the character and the line after it, and is
given nothing more. -/
theorem input_taken_once_mixed :
    let c := Catalogue.standard fun _ => .right
    let commands := runCommands "befunge" .empty "~&@"
    (∃ r, Reached c 9 none commands "a12\nrest" r ∧ r.kinds = [.byte] ∧
      r.host.request = some .line ∧ requestsIn r.steps.flatten = [.byte, .line]) ∧
    ∃ r, Reached c 9 none commands "a12\nrest" r ∧ r.host.request = none ∧
      requestsIn r.steps.flatten = r.kinds := by
  intro c commands
  obtain ⟨-, hrounds, hends⟩ := input_taken_once c 9 none "a12\nrest"
  constructor
  · have hrequests : ((Host.new none).handleAll c 9 commands).bind (fun run =>
        (run.2.handle c 9 (.unblock ((Feed.ofText "a12\nrest").next .byte).1 true)).map fun next =>
          (openRequest? run.1.flatten, openRequest? next.1)) =
        some (some .byte, some .line) := by decide +kernel
    obtain ⟨⟨steps, h⟩, hran, hnext⟩ := Option.bind_eq_some_iff.mp hrequests
    obtain ⟨⟨events, h'⟩, hhandled, hasked⟩ := Option.map_eq_some_iff.mp hnext
    have hfirst : openRequest? steps.flatten = some .byte := congrArg Prod.fst hasked
    have hsecond : openRequest? events = some .line := congrArg Prod.snd hasked
    have hreached := (Reached.begun hran).answered hfirst hhandled
    obtain ⟨haccount, -⟩ := hrounds _ _ _ _ hreached
    have hopen : h'.request = some .line := haccount.open_eq.symm.trans hsecond
    refine ⟨_, hreached, rfl, hopen, ?_⟩
    rw [haccount.requests_eq, hopen]
    rfl
  · have hended : ((⟨fun _ => .text "~&@", ⟨[]⟩, []⟩ : Surroundings).hold
        (run c 9 none "befunge" "program" (some "a12\nrest") []).run "" "").isSome = true := by
      decide +kernel
    have hreport := Option.isSome_iff_exists.mp hended
    obtain ⟨r, hr, hnone, -⟩ := (hends _ _ _ _ _ _ _ _ rfl rfl).mp hreport
    refine ⟨r, hr, hnone, ?_⟩
    rw [(hrounds _ _ _ _ hr).1.requests_eq, hnone]
    exact List.append_nil _

end EsotericHost.CommandLine
