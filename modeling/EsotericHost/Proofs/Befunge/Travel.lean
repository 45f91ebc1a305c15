import EsotericHost.Proofs.Befunge.Moves
import EsotericHost.Proofs.Befunge.Upkeep

/-!
# The way of the pointer

`Travelled` keeps account of the calls that a playfield machine has had since its last reset: the
moves that were made, and the failures. Whatever the calls were, the machine is where the moves lead
and has counted what they cross, and a call fails for the limit just if it makes a crossing beyond
it, and then does not move on (`travelled_counted`).
-/

namespace EsotericHost.Befunge

variable {f : Field} {trail new : List Direction} {limit : Option Nat}

open Act

/-! ## The calls since a reset -/

/-- What is to be known of the calls since the last reset: the source that was loaded last, the
moves that were made, the last one first, and the errors that calls answered with. -/
structure Trip where
  source : String
  trail : List Direction
  failures : List Upset
  deriving DecidableEq

/-- The error of an answer, if it is one. -/
def failuresOf {α : Type} : Except Upset α → List Upset
  | .ok _ => []
  | .error upset => [upset]

namespace Trip

/-- The field of a trip. -/
def field (p : Trip) : Field := Field.ofSource p.source.toList

/-- After a call with some moves. -/
def call {α : Type} (p : Trip) (moves : List Direction) (answer : Except Upset α) : Trip :=
  { p with trail := moves ++ p.trail, failures := failuresOf answer ++ p.failures }

/-- No call has failed for the limit. -/
def Clear (p : Trip) : Prop := ∀ n, (Trouble.wrapLimit n).upset ∉ p.failures

end Trip

/-- The moves of the steps of a run, the last one first. -/
def runMoves (draw : Nat → Direction) (strides : List (Session State)) : List Direction :=
  strides.reverse.flatMap fun x => stepMoves draw x.state

/-- The states that a machine which the options choose comes to from a load by steps, runs, inputs
and resets in any order, with what is to be known of the calls since the last reset. -/
inductive Travelled (draw : Nat → Direction) (options : Options) : Trip → State → Prop where
  | loaded {p : Past} {s : State} (before : Called draw options p s) (source : String) :
    Travelled draw options ⟨source, [], []⟩ (Session.load (machine draw) source s).state
  | reset {p : Trip} {s : State} (before : Travelled draw options p s) :
    Travelled draw options ⟨p.source, [], []⟩ ((machine draw).reset s).state
  | stepped {p : Trip} {s : State} (before : Travelled draw options p s) :
    Travelled draw options (p.call (stepMoves draw s) ((machine draw).step s).result)
      ((machine draw).step s).state
  | ran {p : Trip} {s s' : Session State} {bound : Nat} {budget budget' : Budget}
    {out out' : Transcript} {answer : Except Upset Outcome}
    (before : Travelled draw options p s.state)
    (run : s.run (machine draw) bound budget out = some (answer, budget', s', out')) :
    Travelled draw options (p.call (runMoves draw (s.strides (machine draw) bound budget)) answer)
      s'.state
  | resumed {p : Trip} {s : State} (before : Travelled draw options p s) (input : Input) :
    Travelled draw options (p.call (resumeMoves input s) ((machine draw).resume input s).result)
      ((machine draw).resume input s).state

variable {draw : Nat → Direction} {options : Options} {p : Trip} {s : State}

/-- The limit is that of the options, whatever calls a machine has had. -/
theorem Called.limit_eq {p : Past} (h : Called draw options p s) :
    wrapLimitOf options = .ok s.wrapLimit := by
  have hstep (s : State) : ((machine draw).step s).state.wrapLimit = s.wrapLimit := by
    have hready : ((machine draw).step s).state.ready = s.ready := keeping_step draw s
    have hlimit := congrArg State.wrapLimit hready
    exact hlimit
  induction h with
  | built ok =>
    obtain ⟨limit, hlimit, rfl⟩ := build_eq_ok ok
    exact hlimit
  | loaded _ source ih => exact ih
  | reset _ ih => exact ih
  | @stepped _ s _ ih => rwa [hstep s]
  | ran _ run ih =>
    obtain ⟨last, _, hlast, rfl, -, -⟩ := Session.run_ends
      (P := fun x _ => wrapLimitOf options = .ok x.state.wrapLimit) run ih
      fun x _ hx => hx.trans (congrArg Except.ok (hstep x.state).symm)
    exact hlast.trans (congrArg Except.ok (hstep last.state).symm)
  | @resumed _ s _ input ih =>
    have hready : ((machine draw).resume input s).state.ready = s.ready := keeping_resume input s
    have hlimit := congrArg State.wrapLimit hready
    exact ih.trans (congrArg Except.ok hlimit.symm)

/-- A run leaves the source of the past as it is. -/
theorem Past.run_source (p : Past) (strides : List (Session State)) :
    (p.run strides).source = p.source := by
  induction strides generalizing p with
  | nil => rfl
  | cons x strides ih => exact ih (p.step x.state)

/-- The machine has had calls of which its field is sound. -/
theorem Travelled.called (h : Travelled draw options p s) :
    ∃ past, past.source = some p.source ∧ Called draw options past s := by
  induction h with
  | loaded before source => exact ⟨_, rfl, .loaded before source⟩
  | reset _ ih =>
    obtain ⟨past, hsource, hcalled⟩ := ih
    exact ⟨⟨past.source, false⟩, hsource, .reset hcalled⟩
  | stepped _ ih =>
    obtain ⟨past, hsource, hcalled⟩ := ih
    exact ⟨past.step _, hsource, .stepped hcalled⟩
  | ran _ run ih =>
    obtain ⟨past, hsource, hcalled⟩ := ih
    exact ⟨_, (past.run_source _).trans hsource, .ran hcalled run⟩
  | resumed _ input ih =>
    obtain ⟨past, hsource, hcalled⟩ := ih
    exact ⟨past, hsource, .resumed hcalled input⟩

/-- What is kept up by every call: the machine is where the moves lead, and as long as no call has
failed for the limit the crossings are within it. -/
structure Counting (options : Options) (p : Trip) (s : State) : Prop where
  arrived : s.At p.field s.wrapLimit p.trail
  limit_eq : wrapLimitOf options = .ok s.wrapLimit
  within : p.Clear → ∀ n, s.wrapLimit = some n → crossings p.field p.trail ≤ n
  unlimited : s.wrapLimit = none → p.Clear

/-- A reset starts the count anew, with the pointer in the corner and no crossing behind it. -/
theorem counting_reset (draw : Nat → Direction) {source : String}
    (hsource : s.source = Field.ofSource source.toList)
    (hlimit : wrapLimitOf options = .ok s.wrapLimit) :
    Counting options ⟨source, [], []⟩ ((machine draw).reset s).state where
  arrived := ⟨hsource, rfl, (Int.zero_emod _).symm, (Int.zero_emod _).symm, rfl⟩
  limit_eq := hlimit
  within := fun _ n _ => Nat.zero_le n
  unlimited := fun _ _ => List.not_mem_nil

/-- A call that makes moves. -/
theorem Counting.call {α : Type} {moves : List Direction} {t : Turn Trouble State α}
    (h : Counting options p s) (ht : Goes p.field s.wrapLimit p.trail moves t) :
    Counting options (p.call moves (t.mapError Trouble.upset).result) t.state := by
  have hlimit : t.state.wrapLimit = s.wrapLimit := ht.arrives.limit_eq
  obtain ⟨result, state, effects⟩ := t
  obtain ⟨harrives, hends⟩ := ht
  dsimp only at hlimit
  refine ⟨?_, ?_, fun hclear n hn => ?_, fun hnone n hmem => ?_⟩
  · rw [hlimit]
    exact harrives
  · rw [hlimit]
    exact h.limit_eq
  · rw [hlimit] at hn
    have hbefore : p.Clear := fun m hm => hclear m (List.mem_append_right _ hm)
    cases hends with
    | free within _ =>
      rw [hn] at within
      exact within.crossings_le (h.within hbefore n hn)
    | @stopped _ _ m => exact absurd List.mem_cons_self (hclear m)
  · rw [hlimit] at hnone
    rcases List.mem_append.mp hmem with hmem | hmem
    · cases hends with
      | free _ other =>
        cases result with
        | ok a => cases hmem
        | error e => exact upset_ne_of_other (other e rfl) n (List.mem_singleton.mp hmem).symm
      | stopped limit_eq => cases hnone.symm.trans limit_eq
    · exact h.unlimited hnone n hmem

/-- The calls of a machine after each of its strides. -/
def Trip.strides (draw : Nat → Direction) (p : Trip) (strides : List (Session State)) : Trip :=
  strides.foldl (fun p x => p.call (stepMoves draw x.state) ((machine draw).step x.state).result) p

/-- The strides of a run count as one call, with the answer of the last one. -/
theorem Trip.strides_of_run {s s' : Session State} {bound : Nat} {budget budget' : Budget}
    {out out' : Transcript} {answer : Except Upset Outcome} (p : Trip)
    (hr : s.run (machine draw) bound budget out = some (answer, budget', s', out')) :
    ∃ last : Except Upset Outcome, p.strides draw (s.strides (machine draw) bound budget) =
        p.call (runMoves draw (s.strides (machine draw) bound budget)) last ∧
      (answer = last ∨
        last = .ok .progressed ∧ ∃ limit, answer = .error (.fault (.stepLimit limit))) := by
  -- The strides before the last one fail for nothing.
  have hprogress (before : List (Session State))
      (hbefore : ∀ x ∈ before, ((machine draw).step x.state).result = .ok .progressed) (p : Trip) :
      p.strides draw before = { p with trail := runMoves draw before ++ p.trail } := by
    induction before generalizing p with
    | nil => rfl
    | cons x before ih =>
      rw [Trip.strides, List.foldl_cons, hbefore x List.mem_cons_self]
      refine (ih (fun y hy => hbefore y (List.mem_cons_of_mem _ hy)) _).trans ?_
      rw [runMoves, runMoves, List.reverse_cons, List.flatMap_append, List.append_assoc,
        List.flatMap_singleton]
      rfl
  obtain ⟨before, last, hstrides, hbefore, hanswer⟩ := Session.strides_of_run hr
  refine ⟨((machine draw).step last.state).result, ?_, hanswer⟩
  have hlast : p.strides draw (before ++ [last]) = (p.strides draw before).call
      (stepMoves draw last.state) ((machine draw).step last.state).result := by
    rw [Trip.strides, List.foldl_append]
    rfl
  rw [hstrides, hlast, hprogress before hbefore, runMoves, runMoves, List.reverse_append,
    List.reverse_singleton, List.singleton_append, List.flatMap_cons, Trip.call, Trip.call,
    List.append_assoc]

/-- An answer that the budget is used up says nothing of the limit. -/
theorem Counting.exhausted {moves : List Direction} {outcome : Outcome} {limit : Nat}
    (h : Counting options (p.call moves (.ok outcome : Except Upset Outcome)) s) :
    Counting options
      (p.call moves (.error (.fault (.stepLimit limit)) : Except Upset Outcome)) s where
  arrived := h.arrived
  limit_eq := h.limit_eq
  within := fun hclear => h.within fun n hn => hclear n (List.mem_cons_of_mem _ hn)
  unlimited := fun hnone n hn => by
    rcases List.mem_cons.mp hn with heq | hn
    · cases heq
    · exact h.unlimited hnone n hn

/-- A step goes on with the count by its own moves. -/
theorem Counting.step (draw : Nat → Direction) (h : Counting options p s) :
    Counting options (p.call (stepMoves draw s) ((machine draw).step s).result)
      ((machine draw).step s).state := by
  obtain ⟨-, hwidth, hheight⟩ := Field.ofSource_whole p.source.toList
  exact h.call (goes_step draw hwidth hheight h.arrived)

/-- Whatever calls a machine has had, its crossings are counted. -/
theorem Travelled.counting (h : Travelled draw options p s) : Counting options p s := by
  induction h with
  | loaded before source => exact counting_reset draw rfl before.limit_eq
  | reset _ ih => exact counting_reset draw ih.arrived.source_eq ih.limit_eq
  | stepped _ ih => exact ih.step draw
  | @ran p _ _ _ _ _ _ _ _ _ run ih =>
    have hstrides := Session.run_foldl (P := fun p x => Counting options p x.state) run ih
      fun p x hx => hx.step draw
    obtain ⟨last, hlast, rfl | ⟨rfl, limit, rfl⟩⟩ := p.strides_of_run run
    · exact hlast ▸ hstrides
    · exact (hlast ▸ hstrides : Counting options (p.call _ (.ok .progressed)) _).exhausted
  | @resumed p _ _ input ih =>
    obtain ⟨-, hwidth, hheight⟩ := Field.ofSource_whole p.source.toList
    exact ih.call (goes_resume hwidth hheight input ih.arrived)

/-- A call that fails for the limit just if it makes a crossing beyond it, and then makes no move
after that. -/
structure Stops (f : Field) (limit : Option Nat) (trail new : List Direction) {α : Type}
    (answer : Except Upset α) : Prop where
  fails_iff : (∃ n, answer = .error (Trouble.wrapLimit n).upset) ↔
    ∃ n d done, limit = some n ∧ d :: done <:+ new ∧ Beyond f n (done ++ trail) d
  last : ∀ n d done, limit = some n → d :: done <:+ new → Beyond f n (done ++ trail) d →
    d :: done = new

/-- A call that makes moves stops at the limit as they say. -/
theorem Goes.stops {α : Type} {t : Turn Trouble State α} (h : Goes f limit trail new t) :
    Stops f limit trail new (t.mapError Trouble.upset).result := by
  obtain ⟨result, state, effects⟩ := t
  obtain ⟨-, hends⟩ := h
  cases hends with
  | free within other =>
    refine ⟨⟨fun ⟨n, hn⟩ => ?_, fun ⟨n, d, done, hlimit, hsuffix, hbeyond⟩ => ?_⟩,
      fun n d done hlimit hsuffix hbeyond => ?_⟩
    · cases result with
      | ok a => cases hn
      | error e => exact absurd (Except.error.inj hn) (upset_ne_of_other (other e rfl) n)
    · exact absurd hbeyond (within n d done hlimit hsuffix)
    · exact absurd hbeyond (within n d done hlimit hsuffix)
  | @stopped d done n limit_eq within beyond =>
    refine ⟨⟨fun _ => ⟨n, d, done, limit_eq, List.suffix_rfl, beyond⟩, fun _ => ⟨n, rfl⟩⟩,
      fun m d' done' hlimit hsuffix hbeyond => ?_⟩
    -- No move before the last one is a crossing beyond the limit.
    rcases List.suffix_cons_iff.mp hsuffix with heq | hsuffix
    · exact heq
    · exact absurd hbeyond (within m d' done' hlimit hsuffix)

/-- What a machine has counted after the calls since its last reset. -/
structure Counted (draw : Nat → Direction) (options : Options) (p : Trip) (s : State) : Prop where
  limit_eq : wrapLimitOf options = .ok s.wrapLimit
  width_eq : s.grid.width = p.field.width
  height_eq : s.grid.height = p.field.height
  /-- The pointer is as far from the corner as the moves lead, modulo the width and the height. -/
  x_eq : (s.x : Int) = netColumns p.trail % p.field.width
  y_eq : (s.y : Int) = netRows p.trail % p.field.height
  wraps_eq : s.wraps = crossings p.field p.trail
  step_stops :
    Stops p.field s.wrapLimit p.trail (stepMoves draw s) ((machine draw).step s).result
  resume_stops : ∀ input,
    Stops p.field s.wrapLimit p.trail (resumeMoves input s) ((machine draw).resume input s).result
  /-- As long as no call has failed for the limit, the crossings are within it. -/
  within : (∀ n, (Trouble.wrapLimit n).upset ∉ p.failures) → ∀ n, s.wrapLimit = some n →
    crossings p.field p.trail ≤ n
  unlimited : s.wrapLimit = none → ∀ n, (Trouble.wrapLimit n).upset ∉ p.failures

/-- **The crossings are counted.** Whatever steps, runs and inputs a machine has had since its last
reset, it has counted the moves that crossed an edge, and its pointer is where the moves lead. A
call fails for the limit just if it makes a crossing beyond the limit, which is then its last move.
Without such a failure the crossings are within the limit, and without a limit there is none. -/
theorem travelled_counted (h : Travelled draw options p s) : Counted draw options p s := by
  have hcounting := h.counting
  obtain ⟨past, hsource, hcalled⟩ := h.called
  obtain ⟨hfield, hwidth, hheight, -⟩ := hcalled.kept.holds hsource
  obtain ⟨-, hwidth_pos, hheight_pos⟩ := Field.ofSource_whole p.source.toList
  exact {
    limit_eq := hcounting.limit_eq
    width_eq := hwidth.trans (congrArg Field.width hfield)
    height_eq := hheight.trans (congrArg Field.height hfield)
    x_eq := hcounting.arrived.x_eq
    y_eq := hcounting.arrived.y_eq
    wraps_eq := hcounting.arrived.wraps_eq
    step_stops := (goes_step draw hwidth_pos hheight_pos hcounting.arrived).stops
    resume_stops := fun input =>
      (goes_resume hwidth_pos hheight_pos input hcounting.arrived).stops
    within := hcounting.within
    unlimited := hcounting.unlimited }

/-- A field of one bridge, with two crossings allowed: the first step makes both of them, and the
second one fails with its first move. -/
theorem travelled_counted_bridge :
    let draw : Nat → Direction := fun _ => .right
    let options : Options := ⟨[("wrapLimit", .number (.int 2))]⟩
    ∃ p s, Travelled draw options p s ∧ p.trail = [.right, .right, .right] ∧ s.wraps = 3 ∧
      crossings p.field p.trail = 3 ∧ (Trouble.wrapLimit 2).upset ∈ p.failures := by
  intro draw options
  have hbuild : build options = .ok (.new false (some 2) false) := by rfl
  obtain ⟨x, hx⟩ : ∃ x : Session State, x = ⟨name, options, ⟨true, true, false, false⟩, false,
      (Session.load (machine draw) "#" (.new false (some 2) false)).state⟩ := ⟨_, rfl⟩
  have hstart : Travelled draw options ⟨"#", [], []⟩ x.state := by
    rw [hx]
    exact .loaded (.built hbuild) "#"
  have hleft : (x.run (machine draw) 2 (.fresh none) #[]).map
      (fun run => (failuresOf run.1, run.2.2.1.state.wraps)) =
        some ([(Trouble.wrapLimit 2).upset], 3) := by
    rw [hx]
    decide +kernel
  have hmoves : runMoves draw (x.strides (machine draw) 2 (.fresh none)) =
      [.right, .right, .right] := by
    rw [hx]
    decide +kernel
  obtain ⟨⟨answer, budget, x', out⟩, hrun, hstate⟩ := Option.map_eq_some_iff.mp hleft
  have hfailures : failuresOf answer = [(Trouble.wrapLimit 2).upset] := congrArg Prod.fst hstate
  have hwraps : x'.state.wraps = 3 := congrArg Prod.snd hstate
  have htravelled := hstart.ran hrun
  rw [hmoves] at htravelled
  refine ⟨_, x'.state, htravelled, rfl, hwraps,
    (travelled_counted htravelled).wraps_eq.symm.trans hwraps, ?_⟩
  rw [Trip.call, hfailures]
  exact List.mem_cons_self

end EsotericHost.Befunge
