import EsotericHost.Proofs.Host.Conservation
import EsotericHost.Proofs.Host.Frame
import EsotericHost.Proofs.Host.Strides

/-!
# The allowance of a run

A run may be limited in the number of its instructions. The toll of an operation counts what its
instructions were, over all the commands that carry it from its beginning to its end: those that
made progress in a step, and the input instructions that an answer completed (`Host.toll`).

The budget of an operation counts the former and not the latter (`Effort.charges`). So a run that
ends with exit code 0 has made no more progress than the limit allows (`Host.toll_progressed`), but
each answer gives it one instruction more, which no limit stops (`Host.toll_passes_limit`).
-/

namespace EsotericHost

variable {σ : Type} {c : Catalogue σ} {m : Machine σ} {bound : Nat} {h h' : Host σ} {s : Session σ}
  {op : Operation} {command : Command} {events : List Event}

/-! ## What work is charged -/

/-- A stretch of work on an operation that charges its budget for the strides that make progress,
and that has kept within the limit unless it fails. -/
structure Stretch.Charges (m : Machine σ) (op : Operation) (strides : List (Session σ))
    (w : Stretch σ) : Prop where
  limit_eq : w.budget.limit = op.budget.limit
  used_eq : w.budget.used = op.budget.used + strides.countP (·.progresses m)
  within : (∀ error, w.rest ≠ .ends (.failed error)) → ∀ limit, op.budget.limit = some limit →
    op.budget.used ≤ limit → w.budget.used ≤ limit

/-- A stretch of work without strides charges nothing. -/
theorem Stretch.charges_nothing {w : Stretch σ} (hw : w.budget = op.budget) :
    w.Charges m op [] :=
  ⟨congrArg Budget.limit hw, congrArg Budget.used hw, fun _ _ _ hle => hw ▸ hle⟩

/-- A run charges its strides. -/
theorem Session.toil_charges {w : Stretch σ} (hrun : op.task = .run)
    (hw : s.toil m bound op = some w) : w.Charges m op (s.toilStrides m bound op) := by
  unfold toil at hw
  unfold toilStrides
  rw [hrun] at hw ⊢
  obtain ⟨⟨answer, budget, s', out⟩, hr, rfl⟩ := Option.map_eq_some_iff.mp hw
  obtain ⟨hlimit, hused, hwithin⟩ := used_of_run hr
  refine ⟨hlimit, hused, fun hrest limit => hwithin (fun passed hanswer => ?_) limit⟩
  -- A run that is stopped by its limit fails.
  rw [hanswer] at hrest
  exact hrest _ rfl

/-- Work after a call charges the strides of the work, and nothing for the call. -/
theorem Session.toilAfter_charges {error : Fault → HostError} {act : Act Upset σ Unit}
    {next : Session σ → Option (Stretch σ)} {strides : Session σ → List (Session σ)} {w : Stretch σ}
    (hnext : ∀ s w, next s = some w → w.Charges m op (strides s))
    (hw : s.toilAfter m op error act next = some w) :
    w.Charges m op (s.stridesAfter act strides) := by
  unfold toilAfter at hw
  unfold stridesAfter
  cases hr : (act s.state).result with
  | ok _ =>
    rw [hr] at hw
    obtain ⟨w', hw', rfl⟩ := Option.map_eq_some_iff.mp hw
    obtain ⟨hlimit, hused, hwithin⟩ := hnext _ w' hw'
    exact ⟨hlimit, hused, hwithin⟩
  | error upset =>
    rw [hr] at hw
    cases hw
    exact Stretch.charges_nothing rfl

/-- Work in the course of a command charges the strides of the command. -/
theorem Effort.charges {e : Effort σ} (he : h.effort? c bound command = some e)
    (hrun : e.operation.task = .run) :
    e.stretch.Charges c.machine e.operation (h.strides c bound command) := by
  match command with
  | .press .interpret args =>
    simp only [Host.effort?] at he
    split at he
    · rename_i s hop hs
      obtain ⟨hbegun, -, -, hw⟩ := of_beginEffort he
      simp only [Host.strides, hop, hs]
      rw [← hbegun] at hw ⊢
      cases hcode : args.code with
      | none =>
        rw [hcode] at hw
        exact Session.toil_charges hrun hw
      | some source =>
        rw [hcode] at hw
        exact Session.toilAfter_charges (fun s w hw => Session.toil_charges hrun hw) hw
    · cases he
  | .press .step args =>
    simp only [Host.effort?] at he
    split at he
    · split at he
      · obtain ⟨hbegun, -, -, -⟩ := of_beginEffort he
        rw [hbegun] at hrun
        cases hrun
      · cases he
    · cases he
  | .unblock value popStatus =>
    obtain ⟨kind, input, s, hop, hs, hr, hw⟩ := of_unblock he
    simp only [Host.strides, hop, hs, hr]
    refine Session.toilAfter_charges (fun s w hw => ?_) hw
    rw [hrun] at hw ⊢
    exact Session.toil_charges hrun hw
  | .press .minify args =>
    obtain ⟨s, hs, he⟩ := Option.bind_eq_some_iff.mp he
    obtain ⟨op, message, hop, rfl⟩ := of_crashEffort he
    exact Stretch.charges_nothing rfl
  | .press .textToCode args =>
    obtain ⟨s, hs, he⟩ := Option.bind_eq_some_iff.mp he
    obtain ⟨op, message, hop, rfl⟩ := of_crashEffort he
    exact Stretch.charges_nothing rfl
  | .press .reset args => cases he
  | .setLanguage lang options => cases he
  | .loadCode source => cases he

/-! ## The toll of an operation -/

/-- How work ends its operation, if it does. -/
def Rest.ending? : Rest → Option Ending
  | .waits _ => none
  | .ends ending => some ending

/-- What the instructions of an operation were, and how it ended. -/
structure Toll where
  /-- The instructions that made progress in a step. -/
  progressed : Nat
  /-- The input instructions that an answer completed. -/
  completed : Nat
  ending : Ending
  deriving Repr, DecidableEq

/-- All instructions that were carried out. -/
def Toll.executed (t : Toll) : Nat := t.progressed + t.completed

/-- Whether a command is an answer to a request. -/
def Command.isAnswer : Command → Bool
  | .unblock _ _ => true
  | _ => false

namespace Host

/-- Whether a command is an answer that completes an input instruction. -/
def completes (c : Catalogue σ) (h : Host σ) : Command → Bool
  | .unblock value _ =>
    match h.operation, h.session, Request.resolve h.request value with
    | some _, some s, .ok (_, input) => (c.machine.resume input s.state).result.isOk
    | _, _, _ => false
  | _ => false

/-- The toll of the operation that is in flight or begins with the first command, if the last
command is the one that ends it. -/
def toll (c : Catalogue σ) (bound : Nat) : List Command → Host σ → Option Toll
  | [], _ => none
  | command :: rest, h =>
    match h.handle c bound command with
    | none => none
    | some (_, h') =>
      let progressed := h.progress c bound command
      let completed := (h.completes c command).toNat
      if h'.operation.isSome then
        (toll c bound rest h').map fun t =>
          ⟨progressed + t.progressed, completed + t.completed, t.ending⟩
      else
        match rest, h.effort? c bound command with
        | [], some e => e.stretch.rest.ending?.map (⟨progressed, completed, ·⟩)
        | _, _ => none

/-- The first of the commands leaves the operation in flight to the others, or it ends it and there
are no others. -/
theorem toll_cons {rest : List Command} {t : Toll}
    (ht : h.toll c bound (command :: rest) = some t) :
    ∃ events h', h.handle c bound command = some (events, h') ∧
      ((h'.operation.isSome = true ∧ ∃ t', h'.toll c bound rest = some t' ∧
          t = ⟨h.progress c bound command + t'.progressed,
            (h.completes c command).toNat + t'.completed, t'.ending⟩) ∨
        (rest = [] ∧ ∃ e, h.effort? c bound command = some e ∧ e.stretch.rest = .ends t.ending ∧
          t.progressed = h.progress c bound command ∧
          t.completed = (h.completes c command).toNat)) := by
  unfold toll at ht
  split at ht
  · cases ht
  · rename_i events h' hx
    refine ⟨events, h', hx, ?_⟩
    dsimp only at ht
    split at ht
    · obtain ⟨t', ht', rfl⟩ := Option.map_eq_some_iff.mp ht
      exact .inl ⟨‹_›, t', ht', rfl⟩
    · split at ht
      · rename_i e he
        obtain ⟨ending, hending, rfl⟩ := Option.map_eq_some_iff.mp ht
        refine .inr ⟨rfl, e, he, ?_, rfl, rfl⟩
        cases hrest : e.stretch.rest with
        | waits kind =>
          rw [hrest] at hending
          cases hending
        | ends given =>
          rw [hrest] at hending
          cases hending
          rfl
      · cases ht

/-- No more input instructions are completed than answers given. -/
theorem toll_completed {commands : List Command} {t : Toll}
    (ht : h.toll c bound commands = some t) : t.completed ≤ commands.countP Command.isAnswer := by
  have hone (h : Host σ) (command : Command) :
      (h.completes c command).toNat ≤ if command.isAnswer then 1 else 0 := by
    cases command with
    | unblock value popStatus => exact Bool.toNat_le _
    | setLanguage lang options => exact Nat.le_refl 0
    | loadCode source => exact Nat.le_refl 0
    | press button args => exact Nat.le_refl 0
  induction commands generalizing h t with
  | nil => cases ht
  | cons command rest ih =>
    have hfirst := hone h command
    rw [List.countP_cons]
    obtain ⟨events, h', -, ⟨-, t', ht', rfl⟩ | ⟨-, e, -, -, -, hcompleted⟩⟩ := toll_cons ht
    · have hlater := ih ht'
      dsimp only
      omega
    · omega

/-- Without an answer that is taken, a command makes an operation in flight take no stride. -/
theorem strides_of_busy (hh : h.Consistent) (hop : h.operation = some op)
    (ha : h.answers c bound command = false) : h.strides c bound command = [] := by
  match command with
  | .press .interpret args => simp only [strides, hop]
  | .press .step args => simp only [strides, hop]
  | .unblock value popStatus =>
    have hrefused : ∃ e, Request.resolve h.request value = .error e := by
      cases hr : Request.resolve h.request value with
      | ok answer =>
        rw [(answers_iff hh).mpr ⟨answer, hr⟩] at ha
        cases ha
      | error e => exact ⟨e, rfl⟩
    obtain ⟨e, he⟩ := hrefused
    cases hs : h.session <;> simp only [strides, hop, hs, he]
  | .press .reset args => rfl
  | .press .minify args => rfl
  | .press .textToCode args => rfl
  | .setLanguage lang options => rfl
  | .loadCode source => rfl

/-- A command that leaves an operation in flight has either made the machine work on it or left it
as it was, without a stride. -/
theorem flight_cases (hh : h.Consistent) (hx : h.handle c bound command = some (events, h'))
    (hbusy : h'.operation.isSome = true) :
    (∃ op, h.operation = some op ∧ h'.operation = some op ∧ h.progress c bound command = 0) ∨
      ∃ e, h.effort? c bound command = some e ∧
        (∀ ending, e.stretch.rest ≠ .ends ending) ∧
        h'.operation = some { e.operation with budget := e.stretch.budget } := by
  -- What is in flight stays as it is, unless the command answers it.
  have hstays (hb : h.operation.isSome = true) (ha : h.answers c bound command = false) :
      ∃ op, h.operation = some op ∧ h.operation = some op ∧ h.progress c bound command = 0 := by
    obtain ⟨op, hop⟩ := Option.isSome_iff_exists.mp hb
    refine ⟨op, hop, hop, ?_⟩
    unfold progress
    rw [strides_of_busy hh hop ha]
    rfl
  have hreleased (hb : h.released.operation.isSome = true) : False := by
    rw [h.released_operation] at hb
    cases hb
  cases handle_course hh hx with
  | refused dispatched idle kept => exact .inl (hstays hbusy (answers_of_refused dispatched))
  | minified session answer => exact .inl (hstays hbusy rfl)
  | fromText session answer => exact .inl (hstays hbusy rfl)
  | held busy => exact .inl (hstays hbusy rfl)
  | crashed question dispatched operation =>
    rw [operation] at hbusy
    cases hbusy
  | loaded operation session =>
    change h.operation.isSome = true at hbusy
    rw [operation] at hbusy
    cases hbusy
  | opened session loads => exact (hreleased hbusy).elim
  | openCrashed session crash => exact (hreleased hbusy).elim
  | reset session loads => exact (hreleased hbusy).elim
  | resetCrashed session crash => exact (hreleased hbusy).elim
  | worked effort =>
    rename_i e
    refine .inr ⟨e, effort, ?_⟩
    unfold Effort.leaves at hbusy ⊢
    cases hrest : e.stretch.rest with
    | waits kind => exact ⟨fun ending => Rest.noConfusion, rfl⟩
    | ends ending =>
      rw [hrest] at hbusy
      cases hbusy

/-- Work on a busy host is work on the operation in flight. -/
theorem operation_of_effort {e : Effort σ} (he : h.effort? c bound command = some e)
    (hop : h.operation = some op) : e.operation = op := by
  have hsame {op' : Operation} (hop' : h.operation = some op') : op' = op :=
    Option.some.inj (hop'.symm.trans hop)
  cases Effort.origin he with
  | run idle => rw [hop] at idle; cases idle
  | step idle => rw [hop] at idle; cases idle
  | answer busy => exact hsame busy
  | question question busy => exact hsame busy

/-- A run that has kept within its limit, and does not fail later on, still keeps within it at its
end. -/
theorem toll_within {commands : List Command} {t : Toll} {limit : Nat} (hh : h.Consistent)
    (hflight : ∀ op', h.operation = some op' → op' = op)
    (hwork : ∀ command ∈ commands.head?, ∀ e, h.effort? c bound command = some e →
      e.operation = op)
    (hrun : op.task = .run) (hlimit : op.budget.limit = some limit)
    (hused : op.budget.used ≤ limit) (ht : h.toll c bound commands = some t)
    (hgood : t.ending.error? = none) : op.budget.used + t.progressed ≤ limit := by
  -- The induction is on the commands; what it carries along is that the budget holds all progress
  -- that the operation has made up to here.
  induction commands generalizing h op t with
  | nil => cases ht
  | cons command rest ih =>
    have hwork := hwork command rfl
    obtain ⟨events, h', hx, ⟨hbusy, t', ht', rfl⟩ | ⟨-, e, he, hends, hprogressed, -⟩⟩ :=
      toll_cons ht
    · have hh' := (handle_course hh hx).consistent hh
      obtain ⟨op', hop', hused'⟩ : ∃ op', h'.operation = some op' ∧
          op'.task = .run ∧ op'.budget.limit = some limit ∧ op'.budget.used ≤ limit ∧
          op'.budget.used = op.budget.used + h.progress c bound command := by
        rcases flight_cases hh hx hbusy with ⟨op', hop, hop', hnone⟩ | ⟨e, he, hwaits, hop'⟩
        · obtain rfl := hflight op' hop
          exact ⟨op', hop', hrun, hlimit, hused, by rw [hnone, Nat.add_zero]⟩
        · obtain rfl := hwork e he
          obtain ⟨hl, hu, hw⟩ := Effort.charges he hrun
          exact ⟨_, hop', hrun, hl.trans hlimit, hw (fun error => hwaits _) limit hlimit hused, hu⟩
      obtain ⟨hrun', hlimit', hle, hsum⟩ := hused'
      have hlater := ih hh' (fun op'' hop'' => Option.some.inj (hop''.symm.trans hop'))
        (fun command _ e he => operation_of_effort he hop') hrun' hlimit' hle ht' hgood
      dsimp only
      omega
    · obtain rfl := hwork e he
      obtain ⟨-, hu, hw⟩ := Effort.charges he hrun
      have hnotFailed (error : HostError) : e.stretch.rest ≠ .ends (.failed error) := by
        intro hfailed
        rw [Rest.ends.inj (hends.symm.trans hfailed)] at hgood
        cases hgood
      have hle := hw hnotFailed limit hlimit hused
      rw [hu] at hle
      rw [hprogressed]
      exact hle

/-- A run under a limit that ends with exit code 0 has made no more progress than the limit allows,
across all its suspensions, and each answer has completed one instruction more at most. -/
theorem toll_progressed (c : Catalogue σ) (bound limit : Nat) (before : List Command)
    {steps : List (List Event)} {h : Host σ}
    (hrun : (Host.new (some limit)).handleAll c bound before = some (steps, h))
    (hop : h.operation = none) (args : ButtonArgs) (answers : List Command) {t : Toll}
    (ht : h.toll c bound (.press .interpret args :: answers) = some t)
    (hgood : t.ending.error? = none) :
    t.progressed ≤ limit ∧ t.completed ≤ answers.countP Command.isAnswer ∧
      t.executed ≤ limit + answers.countP Command.isAnswer := by
  have hh : h.Consistent := handleAll_consistent (new_consistent _) hrun
  have hlimit : h.stepLimit = some limit := handleAll_stepLimit (new_consistent _) hrun
  have hprogressed : t.progressed ≤ limit := by
    -- The run is that of the session in use, with a fresh budget.
    have hbegun (e : Effort σ) (he : h.effort? c bound (.press .interpret args) = some e) :
        ∃ s, h.session = some s ∧ e.operation = h.beginning .run s.lang := by
      cases Effort.origin he with
      | run idle session operation => exact ⟨_, session, operation⟩
      | question question busy => rw [hop] at busy; cases busy
    have hzero := @toll_within _ _ _ _ (h.beginning .run ((h.session.map (·.lang)).getD "")) _ _
      limit hh (fun op' hop' => by rw [hop] at hop'; cases hop')
      (fun command hcommand e he => by
        cases hcommand
        obtain ⟨s, hs, hbegun⟩ := hbegun e he
        rw [hbegun, hs]
        rfl)
      rfl hlimit (Nat.zero_le _) ht hgood
    rwa [show (h.beginning .run _).budget.used = 0 from rfl, Nat.zero_add] at hzero
  have hcompleted := toll_completed ht
  rw [List.countP_cons_of_neg Bool.false_ne_true] at hcompleted
  exact ⟨hprogressed, hcompleted, Nat.add_le_add hprogressed hcompleted⟩

/-- The host of a client that has chosen a language, with a limit of one instruction. -/
def limited : List Command :=
  [.setLanguage "brainfuck" .empty]

/-- A program of two instructions that read, and the answers to its two requests. -/
def twoReads : List Command :=
  [.press .interpret ⟨some ",,", none⟩, .unblock (.ofNat 65) true, .unblock (.ofNat 66) true]

/-- A program that reads once and then takes one step keeps within the limit of one instruction, and
has one more completed. -/
theorem toll_progressed_read :
    ∃ steps h t, (Host.new (some 1)).handleAll (Catalogue.standard fun _ => .right) 9 limited =
        some (steps, h) ∧
      h.toll (Catalogue.standard fun _ => .right) 9
        [.press .interpret ⟨some ",+", none⟩, .unblock (.ofNat 65) true] = some t ∧
      t.progressed ≤ 1 ∧ t.executed ≤ 2 := by
  have hread : ((Host.new (some 1)).handleAll (Catalogue.standard fun _ => .right) 9
      limited).bind (fun run => if run.2.operation.isNone then
        run.2.toll (Catalogue.standard fun _ => .right) 9
          [.press .interpret ⟨some ",+", none⟩, .unblock (.ofNat 65) true] else none) =
      some ⟨1, 1, .halted⟩ := by decide +kernel
  obtain ⟨⟨steps, h⟩, hrun, hread⟩ := Option.bind_eq_some_iff.mp hread
  obtain ⟨hidle, ht⟩ := Option.ite_none_right_eq_some.mp hread
  have hop : h.operation = none := Option.isNone_iff_eq_none.mp hidle
  obtain ⟨hprogressed, -, hexecuted⟩ :=
    toll_progressed _ 9 1 limited hrun hop ⟨some ",+", none⟩ [.unblock (.ofNat 65) true] ht rfl
  exact ⟨steps, h, _, hrun, ht, hprogressed, hexecuted⟩

/-- A limit of one instruction does not stop a run that has two of them completed by answers: it
ends without an error. -/
theorem toll_passes_limit :
    ∃ steps h t, (Host.new (some 1)).handleAll (Catalogue.standard fun _ => .right) 9 limited =
        some (steps, h) ∧ h.operation = none ∧
      h.toll (Catalogue.standard fun _ => .right) 9 twoReads = some t ∧
      t.ending.error? = none ∧ 1 < t.executed := by
  have hreads : ((Host.new (some 1)).handleAll (Catalogue.standard fun _ => .right) 9
      limited).bind (fun run => if run.2.operation.isNone then
        run.2.toll (Catalogue.standard fun _ => .right) 9 twoReads else none) =
      some ⟨0, 2, .halted⟩ := by decide +kernel
  obtain ⟨⟨steps, h⟩, hrun, hreads⟩ := Option.bind_eq_some_iff.mp hreads
  obtain ⟨hidle, ht⟩ := Option.ite_none_right_eq_some.mp hreads
  exact ⟨steps, h, _, hrun, Option.isNone_iff_eq_none.mp hidle, ht, rfl, by decide⟩

end Host

end EsotericHost
