import EsotericHost.Proofs.Host.Refusal

/-!
# The account of operations

Every operation that the host takes up comes to an end, is given up or is still in flight, and no
operation is counted twice. What a command does with operations is read off the host before and
after it: `accepts`, `ends` and `abandons`. One command keeps the account (`account_step`), and by
induction so does a run of commands.

The events of a command that ends an operation, or gives it up, are those of its course: the labels
are taken away first, then the operation is reported, and only then the held code is loaded.
-/

namespace EsotericHost

variable {σ : Type} {c : Catalogue σ} {bound : Nat} {h h' : Host σ} {command : Command}
  {events : List Event}

namespace Host

/-- Whether a command is refused. -/
def refuses (c : Catalogue σ) (bound : Nat) (h : Host σ) (command : Command) : Bool :=
  match Handling.dispatch c bound command h with
  | some (.error (.refused _), _) => true
  | _ => false

/-- Whether a command makes the host take up an operation. -/
def accepts (c : Catalogue σ) (bound : Nat) (h : Host σ) : Command → Bool
  | .press .interpret args => !h.refuses c bound (.press .interpret args)
  | .press .step args => !h.refuses c bound (.press .step args)
  | _ => false

/-- Whether an operation comes to its end in the course of a command: it was in flight or has just
been taken up, it has not been given up, and the host is idle afterwards. -/
def ends (c : Catalogue σ) (bound : Nat) (h : Host σ) (command : Command) (h' : Host σ) : Bool :=
  (h.operation.isSome || h.accepts c bound command) && !h.abandons c command &&
    h'.operation.isNone

end Host

/-- How many operations have been taken up, have ended and have been given up. -/
structure Account where
  accepted : Nat
  ended : Nat
  abandoned : Nat

namespace Host

/-- The account of a run of commands. -/
def account (c : Catalogue σ) (bound : Nat) : List Command → Host σ → Account
  | [], _ => ⟨0, 0, 0⟩
  | command :: rest, h =>
    match h.handle c bound command with
    | none => ⟨0, 0, 0⟩
    | some (_, h') =>
      let later := account c bound rest h'
      ⟨(h.accepts c bound command).toNat + later.accepted,
        (h.ends c bound command h').toNat + later.ended,
        (h.abandons c command).toNat + later.abandoned⟩

/-- A command that is refused is not accepted. -/
theorem accepts_of_refused {e : HostError}
    (hd : Handling.dispatch c bound command h = some (.error (.refused e), h')) :
    h.accepts c bound command = false := by
  have hr : h.refuses c bound command = true := by
    unfold refuses
    rw [hd]
  unfold accepts
  split
  · rw [hr]; rfl
  · rw [hr]; rfl
  · rfl

/-- A busy host takes up no operation. -/
theorem accepts_of_busy (hh : h.Consistent) (hop : h.operation.isSome) :
    h.accepts c bound command = false := by
  match command with
  | .press .interpret args =>
    obtain ⟨e, hd⟩ := refused_of_busy (.inl rfl) hh hop
    exact accepts_of_refused hd
  | .press .step args =>
    obtain ⟨e, hd⟩ := refused_of_busy (.inr rfl) hh hop
    exact accepts_of_refused hd
  | .press .reset args => rfl
  | .press .minify args => rfl
  | .press .textToCode args => rfl
  | .setLanguage lang options => rfl
  | .loadCode source => rfl
  | .unblock value popStatus => rfl

end Host

/-- A refused button has one error for an answer. -/
theorem Host.events_of_refuses {button : Button} {args : ButtonArgs} (hh : h.Consistent)
    (hr : h.refuses c bound (.press button args) = true)
    (hx : h.handle c bound (.press button args) = some (events, h')) :
    ∃ e : HostError, events = [.error e.message] := by
  unfold refuses at hr
  split at hr
  · rename_i e h₁ hd
    obtain rfl : h₁ = h := by cases Handling.refusal_of_dispatch hh hd <;> rfl
    rw [handle_of_refused hh hd] at hx
    cases hx
    exact ⟨e, rfl⟩
  · cases hr

/-- A button that makes the machine work on an operation it begins is not refused: it is answered
by more than an error. -/
theorem Effort.accepts_of_idle {e : Effort σ} (hh : h.Consistent)
    (hx : h.handle c bound command = some (e.events c.machine h.held, h'))
    (he : h.effort? c bound command = some e) (hop : h.operation = none) :
    h.accepts c bound command = true := by
  cases origin he with
  | run idle session operation labels opening =>
    rename_i args s
    cases hr : h.refuses c bound (.press .interpret args) with
    | false => simp only [Host.accepts, hr, Bool.not_false]
    -- The echo comes first, and no error begins like that.
    | true =>
      obtain ⟨error, hevents⟩ := Host.events_of_refuses hh hr hx
      unfold events at hevents
      rw [opening] at hevents
      cases hevents
  | step idle session supported operation labels opening =>
    rename_i args s
    cases hr : h.refuses c bound (.press .step args) with
    | false => simp only [Host.accepts, hr, Bool.not_false]
    | true =>
      obtain ⟨error, hevents⟩ := Host.events_of_refuses hh hr hx
      unfold events at hevents
      rw [opening] at hevents
      cases hevents
  | answer busy labels opening =>
    rw [hop] at busy
    cases busy
  | question question busy labels opening rest =>
    rw [hop] at busy
    cases busy

/-- A command that makes the machine work gives no operation up. -/
theorem Effort.Origin.keeps {e : Effort σ} (ho : Origin h e command) :
    h.abandons c command = false := by
  cases ho with
  | run idle session operation labels opening => rfl
  | step idle session supported operation labels opening => rfl
  | answer busy labels opening => rfl
  | question question busy labels opening rest => rcases question with rfl | rfl <;> rfl

/-- A question to an idle host makes the machine work on no operation. -/
theorem Host.effort_of_question {button : Button} {args : ButtonArgs}
    (hq : button = .minify ∨ button = .textToCode) (hop : h.operation = none) :
    h.effort? c bound (.press button args) = none := by
  rcases hq with rfl | rfl <;>
  · unfold effort?
    cases h.session with
    | none => rfl
    | some s => exact crashEffort_of_idle hop s _ _

/-- What a command does with operations, course by course: it takes none up, gives none up and
leaves the host as busy as it was; or it gives one up and leaves the host idle; or the machine
works on one. -/
theorem Course.operations (hh : h.Consistent) (hc : Course c bound h command events h')
    (hx : h.handle c bound command = some (events, h')) :
    (h.effort? c bound command = none ∧ h.accepts c bound command = false ∧
        h.abandons c command = false ∧ h'.operation.isSome = h.operation.isSome) ∨
      (h.effort? c bound command = none ∧ h.accepts c bound command = false ∧
        h.abandons c command = h.operation.isSome ∧ h'.operation = none) ∨
      ∃ e, h.effort? c bound command = some e ∧ h.abandons c command = false ∧
        h' = e.leaves c.machine h ∧ events = e.events c.machine h.held ∧
        h.accepts c bound command = h.operation.isNone := by
  cases hc with
  | refused dispatched idle kept =>
    exact .inl ⟨idle, Host.accepts_of_refused dispatched, kept, rfl⟩
  | minified session answer =>
    rename_i args s code
    have heffort : h.effort? c bound (.press .minify args) = none := by
      simp only [Host.effort?, session, answer, Option.bind_some, Host.crashEffort_of_ok]
    exact .inl ⟨heffort, rfl, rfl, rfl⟩
  | fromText session answer =>
    rename_i args s code
    have heffort : h.effort? c bound (.press .textToCode args) = none := by
      simp only [Host.effort?, session, answer, Option.bind_some, Host.crashEffort_of_ok]
    exact .inl ⟨heffort, rfl, rfl, rfl⟩
  | crashed question dispatched operation =>
    rename_i button args message
    have heffort : h.effort? c bound (.press button args) = none :=
      Host.effort_of_question question operation
    rcases question with rfl | rfl <;> exact .inl ⟨heffort, rfl, rfl, rfl⟩
  | held busy => exact .inl ⟨rfl, rfl, rfl, rfl⟩
  | loaded operation session => exact .inl ⟨rfl, rfl, rfl, rfl⟩
  | opened session loads =>
    refine .inr (.inl ⟨rfl, rfl, ?_, h.released_operation⟩)
    simp only [Host.abandons, session, Except.isOk, Except.toBool, Bool.and_true]
  | openCrashed session crash =>
    refine .inr (.inl ⟨rfl, rfl, ?_, h.released_operation⟩)
    simp only [Host.abandons, session, Except.isOk, Except.toBool, Bool.and_true]
  | reset session loads => exact .inr (.inl ⟨rfl, rfl, rfl, h.released_operation⟩)
  | resetCrashed session crash => exact .inr (.inl ⟨rfl, rfl, rfl, h.released_operation⟩)
  | worked effort =>
    refine .inr (.inr ⟨_, effort, (Effort.origin effort).keeps, rfl, rfl, ?_⟩)
    cases hop : h.operation with
    | none => exact Effort.accepts_of_idle hh hx effort hop
    | some op => exact Host.accepts_of_busy hh (by rw [hop]; rfl)

namespace Host

/-- One command keeps the account: what was in flight or has been taken up has ended, has been
given up or is in flight. -/
theorem account_step (hh : h.Consistent) (hx : h.handle c bound command = some (events, h')) :
    (h.accepts c bound command).toNat + h.operation.isSome.toNat =
      (h.ends c bound command h').toNat + (h.abandons c command).toNat +
        h'.operation.isSome.toNat := by
  unfold ends
  -- Either nothing happens to operations, or one is given up, or the machine works on one.
  rcases (handle_course hh hx).operations hh hx with
    ⟨-, haccepts, habandons, hbusy⟩ | ⟨-, haccepts, habandons, hidle⟩ |
      ⟨e, he, habandons, -, -, haccepts⟩
  · rw [haccepts, habandons, ← Option.not_isSome, hbusy]
    cases h.operation <;> rfl
  · rw [haccepts, habandons, hidle]
    cases h.operation <;> rfl
  -- Exactly one operation is worked on: the one in flight or the one just taken up.
  · rw [haccepts, habandons]
    cases h.operation <;> cases h'.operation <;> rfl

/-- A command that ends an operation has made the machine work on it until it ended. -/
theorem effort_of_ends (hh : h.Consistent) (hx : h.handle c bound command = some (events, h'))
    (hends : h.ends c bound command h' = true) :
    ∃ e ending, h.effort? c bound command = some e ∧ e.stretch.rest = .ends ending ∧
      events = e.events c.machine h.held := by
  unfold ends at hends
  rw [Bool.and_eq_true, Bool.and_eq_true, Bool.not_eq_true', Option.isNone_iff_eq_none] at hends
  obtain ⟨⟨hactive, hkept⟩, hidle⟩ := hends
  rcases (handle_course hh hx).operations hh hx with
    ⟨-, haccepts, -, hbusy⟩ | ⟨-, haccepts, habandons, -⟩ | ⟨e, he, -, hleaves, hevents, -⟩
  -- An idle host that takes nothing up has nothing to end, and a command that gives an operation
  -- up does not end it.
  · rw [haccepts, ← hbusy, hidle] at hactive
    cases hactive
  · rw [haccepts, ← habandons, hkept] at hactive
    cases hactive
  · cases hrest : e.stretch.rest with
    | waits kind =>
      -- Work that waits leaves its operation in flight.
      rw [hleaves, Effort.leaves, hrest] at hidle
      cases hidle
    | ends ending => exact ⟨e, ending, he, hrest, hevents⟩

end Host

end EsotericHost
