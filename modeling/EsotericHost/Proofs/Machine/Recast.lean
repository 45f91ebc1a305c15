import EsotericHost.Proofs.Machine.Builtin

/-!
# Machines in another cast

Two parts of a state guide no instruction: whether the machine echoes what it does, and how many
random directions it has used. A state is recast by turning the echo on or by counting more random
directions as used (`Builtin.recast`). A machine in a recast state does what it does in the plain
one, with the random directions that come after those counted (`Builtin.resume_recast` and its
like). Only a step of a machine that echoes does more: it prints the echo of the instruction that it
begins, before anything else (`Builtin.step_recast`).

Parts of a call are compared one by one: `Act.Follows` says that a part does in a recast state what
another part does in the plain one.
-/

namespace EsotericHost

namespace Act

variable {ε σ τ α β : Type} {f : τ → σ}

/-- A part of a call that does in the states `f s` what another part does in the states `s`. -/
def Follows (f : τ → σ) (x : Act ε σ α) (y : Act ε τ α) : Prop :=
  ∀ s, x (f s) = (y s).mapState f

/-- Parts of a call that follow others do so one after the other. -/
theorem Follows.bind {x : Act ε σ α} {y : Act ε τ α} {g : α → Act ε σ β} {k : α → Act ε τ β}
    (hx : Follows f x y) (hg : ∀ a, Follows f (g a) (k a)) : Follows f (x >>= g) (y >>= k) := by
  intro s
  have hs := hx s
  obtain ⟨t, ht⟩ : ∃ t, y s = t := ⟨_, rfl⟩
  obtain ⟨result, s', effects⟩ := t
  rw [ht] at hs
  cases result with
  | ok a =>
    rw [bind_of_ok ht, bind_of_ok hs, hg a s']
    rfl
  | error e =>
    rw [bind_of_error ht, bind_of_error hs]
    rfl

/-- A part that reads the state goes on from what it finds there. -/
theorem Follows.get_bind {g : σ → Act ε σ β} {k : τ → Act ε τ β}
    (hg : ∀ s, Follows f (g (f s)) (k s)) : Follows f (get >>= g) (get >>= k) :=
  fun s => hg s s

/-- To give a value follows itself. -/
theorem follows_pure (a : α) : Follows f (pure a : Act ε σ α) (pure a) := fun _ => rfl

/-- A failure follows itself. -/
theorem follows_fail (e : ε) : Follows f (fail e : Act ε σ α) (fail e) := fun _ => rfl

/-- To print follows itself. -/
theorem follows_print (text : String) : Follows f (print text : Act ε σ Unit) (print text) :=
  fun _ => rfl

/-- To tell of a change follows itself. -/
theorem follows_notify (notice : Notice) :
    Follows f (notify notice : Act ε σ Unit) (notify notice) :=
  fun _ => rfl

/-- A change of the state follows another one that it agrees with. -/
theorem follows_modify {g : σ → σ} {k : τ → τ} (hg : ∀ s, g (f s) = f (k s)) :
    Follows f (modify g : Act ε σ Unit) (modify k) := by
  intro s
  exact congrArg (Turn.mk (Except.ok ()) · []) (hg s)

/-- A call follows another one if its part does, in whatever words the failures are told. -/
theorem Follows.asCall {x : Act ε σ α} {y : Act ε τ α} (hx : Follows f x y)
    (describe : ε → Upset) : Follows f (x.asCall describe) (y.asCall describe) := by
  intro s
  unfold Act.asCall
  rw [hx s]
  rfl

end Act

/-- The turn with texts printed before everything else. -/
def Turn.after {ε σ α : Type} (texts : List String) (t : Turn ε σ α) : Turn ε σ α :=
  { t with effects := texts.map .print ++ t.effects }

open Act

/-! ## The line machine -/

namespace Length

/-- The machine with its echo turned on, or as it is. -/
def State.recast (echoing : Bool) (s : State) : State := { s with debug := echoing || s.debug }

variable {e : Bool}

/-- A push takes no notice of the echo. -/
theorem follows_push (n : Int64) : Follows (State.recast e) (push n) (push n) :=
  .bind (follows_modify fun _ => rfl) fun _ => follows_notify _

/-- A pop takes no notice of the echo. -/
theorem follows_pop : Follows (State.recast e) pop pop := by
  refine .get_bind fun s => ?_
  dsimp only [State.recast]
  split
  · exact follows_fail _
  · refine .bind (follows_modify fun _ => rfl) fun _ => ?_
    exact .bind (follows_notify _) fun _ => follows_pure _

/-- A jump takes no notice of the echo. -/
theorem follows_goTo (line : Nat) : Follows (State.recast e) (goTo line) (goTo line) :=
  .bind (follows_modify fun _ => rfl) fun _ => follows_notify _

/-- A jump to a number takes no notice of the echo, also where there is no such line. -/
theorem follows_jumpTo (target : Int64) :
    Follows (State.recast e) (jumpTo target) (jumpTo target) := by
  refine .get_bind fun s => ?_
  split
  · exact follows_fail _
  · exact follows_goTo _

/-- An operation on two values takes no notice of the echo. -/
theorem follows_binary (operation : Int64 → Int64 → Option Int64) :
    Follows (State.recast e) (binary operation) (binary operation) := by
  refine .get_bind fun s => .bind follows_pop fun a => .bind follows_pop fun b => ?_
  split
  · exact follows_push _
  · exact follows_fail _

/-- No instruction looks at the echo. -/
theorem follows_execute (instruction : Instruction) :
    Follows (State.recast e) (execute instruction) (execute instruction) := by
  refine .get_bind fun s => ?_
  -- All instructions but the jumps go on to the line after this one.
  have hgoOn : Follows (State.recast e) (goTo (s.line + 1)) (goTo (s.line + 1)) := follows_goTo _
  have hbinary (operation : Int64 → Int64 → Option Int64) :
      Follows (State.recast e) (binary operation >>= fun _ => goTo (s.line + 1))
        (binary operation >>= fun _ => goTo (s.line + 1)) :=
    .bind (follows_binary _) fun _ => hgoOn
  cases instruction with
  | input => exact hgoOn
  | add => exact hbinary _
  | sub => exact hbinary _
  | mul => exact hbinary _
  | div => exact hbinary _
  | dup =>
    refine .bind follows_pop fun n => ?_
    exact .bind (follows_push n) fun _ => .bind (follows_push n) fun _ => hgoOn
  | skipIfZero => exact .bind follows_pop fun n => follows_goTo _
  | jump => exact .bind follows_pop fun n => follows_jumpTo n
  | jumpBy =>
    refine .bind follows_pop fun n => ?_
    dsimp only [State.recast]
    split
    · exact follows_jumpTo _
    · exact follows_fail _
  | printNumber => exact .bind follows_pop fun n => .bind (follows_print _) fun _ => hgoOn
  | printCharacter => exact .bind follows_pop fun n => .bind (follows_print _) fun _ => hgoOn
  | rollUp => exact .bind (follows_modify fun _ => rfl) fun _ => hgoOn
  | rollDown => exact .bind (follows_modify fun _ => rfl) fun _ => hgoOn
  | swap =>
    refine .bind follows_pop fun n => .bind follows_pop fun k => ?_
    exact .bind (follows_push n) fun _ => .bind (follows_push k) fun _ => hgoOn
  | drop => exact .bind follows_pop fun n => hgoOn
  | push =>
    dsimp only [State.recast]
    split
    · exact .bind (follows_push _) fun _ => follows_goTo _
    · exact follows_fail _
  | nothing => exact hgoOn

/-- The instruction that a step begins, if the machine neither waits nor has left its last line. -/
def begun? (s : State) : Option Instruction :=
  if s.waiting then none else s.lines[s.line]?.map Instruction.ofLength

/-- The echo of an instruction that a step begins. -/
def echo (s : State) : List String :=
  ((begun? s).map fun instruction => s!"[line {s.line + 1}] {instruction.name}\n").toList

/-- An instruction without its echo. -/
def perform (instruction : Instruction) : Step Outcome :=
  if instruction = .input then do
    Act.modify fun s => { s with waiting := true }
    return .suspended .byte
  else do
    execute instruction
    return .progressed

/-- An instruction without its echo takes no notice of whether there is one. -/
theorem follows_perform (instruction : Instruction) :
    Follows (State.recast e) (perform instruction) (perform instruction) := by
  unfold perform
  split
  · exact .bind (follows_modify fun _ => rfl) fun _ => follows_pure _
  · exact .bind (follows_execute _) fun _ => follows_pure _

/-- A step begins an instruction, if there is one, with its echo. -/
theorem step_eq (s : State) :
    step s = match begun? s with
      | some instruction => (perform instruction s).after (if s.debug then echo s else [])
      | none => ⟨.ok (if s.waiting then .suspended .byte else .halted), s, []⟩ := by
  unfold step echo begun?
  rw [get_bind_apply]
  cases s.waiting with
  | true => rfl
  | false =>
    cases s.lines[s.line]? with
    | none => rfl
    | some length => cases s.debug <;> rfl

/-- In another cast a step does what it does in the plain one, after the echo. -/
theorem step_recast (s : State) :
    step (s.recast e) =
      ((step s).mapState (State.recast e)).after (if e && !s.debug then echo s else []) := by
  have hbegun : begun? (s.recast e) = begun? s := rfl
  have hecho : echo (s.recast e) = echo s := rfl
  have hdebug : (s.recast e).debug = (e || s.debug) := rfl
  rw [step_eq, step_eq, hbegun, hecho, hdebug]
  cases hb : begun? s with
  | none =>
    have hempty : echo s = [] := by
      unfold echo
      rw [hb]
      rfl
    rw [hempty]
    simp only [ite_self]
    rfl
  | some instruction =>
    dsimp only
    rw [follows_perform instruction s]
    cases e <;> cases s.debug <;> rfl

/-- An input takes no notice of the echo. -/
theorem follows_resume (input : Input) :
    Follows (State.recast e) (resume input) (resume input) := by
  refine .get_bind fun s => ?_
  dsimp only [State.recast]
  split
  · refine .bind (follows_modify fun _ => rfl) fun _ => ?_
    exact .bind (follows_push _) fun _ => follows_goTo _
  · exact follows_fail _

end Length

/-! ## The playfield machine -/

namespace Befunge

/-- The machine with its echo turned on, or as it is, and more random directions counted as
used. -/
def State.recast (echoing : Bool) (drawn : Nat) (s : State) : State :=
  { s with debug := echoing || s.debug, draws := s.draws + drawn }

/-- The random directions that come after a number of them. -/
def later (draw : Nat → Direction) (drawn : Nat) : Nat → Direction :=
  fun n => draw (n + drawn)

variable {e : Bool} {k : Nat}

/-- A push takes no notice of the echo, or of how many directions have been used. -/
theorem follows_push (n : Int64) : Follows (State.recast e k) (push n) (push n) :=
  .bind (follows_modify fun _ => rfl) fun _ => follows_notify _

/-- A pop takes no notice of them. -/
theorem follows_pop : Follows (State.recast e k) pop pop := by
  refine .get_bind fun s => ?_
  dsimp only [State.recast]
  split
  · exact follows_pure _
  · refine .bind (follows_modify fun _ => rfl) fun _ => ?_
    exact .bind (follows_notify _) fun _ => follows_pure _

/-- A turn of the pointer takes no notice of them. -/
theorem follows_turn (direction : Direction) :
    Follows (State.recast e k) (turn direction) (turn direction) :=
  follows_modify fun _ => rfl

/-- An advance takes no notice of them. -/
theorem follows_advance : Follows (State.recast e k) advance advance := by
  intro s
  unfold advance
  dsimp only [State.recast]
  split
  · rfl
  -- The limit that is passed, if any is, does not depend on the cast.
  · split
    · rename_i hlimit
      rw [hlimit]
      rfl
    · rename_i hlimit
      rw [hlimit]
      rfl

/-- A put takes no notice of them. -/
theorem follows_put : Follows (State.recast e k) put put := by
  refine .bind follows_pop fun y => .bind follows_pop fun x => .bind follows_pop fun value => ?_
  refine .get_bind fun s => ?_
  dsimp only [State.recast]
  split
  · exact follows_fail _
  · split
    · exact follows_fail _
    · split
      · exact follows_fail _
      · exact follows_modify fun _ => rfl

/-- To look at the character under the pointer takes no notice of them. -/
theorem follows_fetch : Follows (State.recast e k) fetch fetch :=
  .bind follows_pop fun _ => .bind follows_pop fun _ => .get_bind fun _ => follows_push _

/-- No instruction looks at the echo, and one alone at the random directions. -/
theorem follows_execute (draw : Nat → Direction) (instruction : Instruction) :
    Follows (State.recast e k) (execute draw instruction) (execute (later draw k) instruction) := by
  cases instruction with
  | digit n => exact follows_push _
  | arithmetic operation =>
    refine .bind follows_pop fun a => .bind follows_pop fun b => .get_bind fun s => ?_
    dsimp only [State.recast]
    split
    · exact follows_push _
    · exact follows_fail _
  | negate => exact .bind follows_pop fun a => follows_push _
  | turn d => exact follows_turn d
  | turnAtRandom =>
    refine follows_modify fun s => ?_
    -- One more direction is used, in whichever order the two counts are added.
    have hcount : s.draws + k + 1 = s.draws + 1 + k := by omega
    simp only [State.recast, later, hcount]
  | turnSideways => exact .bind follows_pop fun a => follows_turn _
  | turnUpright => exact .bind follows_pop fun a => follows_turn _
  | quote => exact follows_modify fun _ => rfl
  | dup => exact .bind follows_pop fun a => .bind (follows_push a) fun _ => follows_push a
  | swap =>
    refine .bind follows_pop fun a => .bind follows_pop fun b => ?_
    exact .bind (follows_push a) fun _ => follows_push b
  | drop => exact .bind follows_pop fun _ => follows_pure _
  | printNumber => exact .bind follows_pop fun a => follows_print _
  | printCharacter => exact .bind follows_pop fun a => follows_print _
  | bridge => exact follows_advance
  | put => exact follows_put
  | fetch => exact follows_fetch
  | inputNumber => exact follows_pure _
  | inputCharacter => exact follows_pure _
  | stop => exact follows_pure _
  | nothing => exact follows_pure _

/-- A character of a string takes no notice of them. -/
theorem follows_quoted (c : Char) : Follows (State.recast e k) (quoted c) (quoted c) := by
  unfold quoted
  split
  · exact follows_modify fun _ => rfl
  · exact follows_push _

/-- The character whose instruction a step begins, if the machine neither waits nor has halted. -/
def begun? (s : State) : Option Char :=
  if s.waiting.isSome || s.halted || s.filled = 0 then none else s.grid.cell? s.x s.y

/-- The echo of an instruction that a step begins; spaces have none. -/
def echo (s : State) : List String :=
  (((begun? s).filter (· ≠ ' ')).map fun c => s!"({s.x}, {s.y}) {c}\n").toList

/-- An instruction without its echo. -/
def perform (draw : Nat → Direction) (quoting : Bool) (c : Char) : Step Outcome :=
  if quoting then do
    quoted c
    advance
    return .progressed
  else
    match Instruction.ofChar c with
    | .inputNumber => await .line
    | .inputCharacter => await .byte
    | .stop => do
      Act.modify fun s => { s with halted := true }
      return .progressed
    | instruction => do
      execute draw instruction
      advance
      return .progressed

/-- An instruction without its echo goes by the directions that are still to come. -/
theorem follows_perform (draw : Nat → Direction) (quoting : Bool) (c : Char) :
    Follows (State.recast e k) (perform draw quoting c) (perform (later draw k) quoting c) := by
  have hawait (kind : InputKind) : Follows (State.recast e k) (await kind) (await kind) :=
    .bind (follows_modify fun _ => rfl) fun _ => follows_pure _
  unfold perform
  split
  · exact .bind (follows_quoted c) fun _ => .bind follows_advance fun _ => follows_pure _
  · split
    · exact hawait .line
    · exact hawait .byte
    · exact .bind (follows_modify fun _ => rfl) fun _ => follows_pure _
    · refine .bind (follows_execute draw _) fun _ => .bind follows_advance fun _ => ?_
      exact follows_pure _

/-- What a step without an instruction comes to: the machine waits, has halted or breaks down. -/
def unbegun (s : State) : Except Trouble Outcome :=
  match s.waiting with
  | some kind => .ok (.suspended kind)
  | none =>
    if s.halted || s.filled = 0 then .ok .halted else .error (.broken (s.grid.missing s.x s.y))

/-- A step begins an instruction, if there is one, with its echo. -/
theorem step_eq (draw : Nat → Direction) (s : State) :
    step draw s = match begun? s with
      | some c => (perform draw s.quoting c s).after (if s.debug then echo s else [])
      | none => ⟨unbegun s, s, []⟩ := by
  cases hw : s.waiting with
  | some kind =>
    have hbegun : begun? s = none := by simp [begun?, hw]
    rw [hbegun, step_of_waiting draw s kind hw, unbegun, hw]
  | none =>
    unfold step
    rw [get_bind_apply]
    dsimp only
    rw [hw]
    dsimp only
    by_cases hstop : (s.halted || decide (s.filled = 0)) = true
    · have hbegun : begun? s = none := by simp [begun?, hw, hstop]
      rw [if_pos hstop, hbegun, unbegun, hw]
      dsimp only
      rw [if_pos hstop]
      rfl
    · rw [if_neg hstop]
      cases hc : s.grid.cell? s.x s.y with
      | none =>
        have hbegun : begun? s = none := by simp [begun?, hw, hstop, hc]
        have hhere : here s = ⟨.error (.broken (s.grid.missing s.x s.y)), s, []⟩ := by
          unfold here
          rw [hc]
        rw [bind_of_error hhere, hbegun, unbegun, hw]
        dsimp only
        rw [if_neg hstop]
      | some c =>
        have hbegun : begun? s = some c := by simp [begun?, hw, hstop, hc]
        have hhere : here s = ⟨.ok c, s, []⟩ := by
          unfold here
          rw [hc]
        rw [bind_of_ok hhere, hbegun, echo, hbegun]
        -- The echo comes first if the machine echoes and the character is no space.
        cases s.debug with
        | false => rfl
        | true =>
          by_cases hspace : c = ' '
          · subst hspace
            rfl
          · have hfilter : (some c).filter (· ≠ ' ') = some c := by simp [hspace]
            have hprints : (true && decide (c ≠ ' ')) = true := by simp [hspace]
            rw [hfilter, if_pos hprints]
            rfl

/-- In another cast a step does what it does in the plain one with later random directions, after
the echo. -/
theorem step_recast (draw : Nat → Direction) (s : State) :
    step draw (s.recast e k) =
      ((step (later draw k) s).mapState (State.recast e k)).after
        (if e && !s.debug then echo s else []) := by
  have hbegun : begun? (s.recast e k) = begun? s := rfl
  have hecho : echo (s.recast e k) = echo s := rfl
  have hdebug : (s.recast e k).debug = (e || s.debug) := rfl
  have hunbegun : unbegun (s.recast e k) = unbegun s := rfl
  have hquoting : (s.recast e k).quoting = s.quoting := rfl
  rw [step_eq, step_eq, hbegun, hecho, hdebug, hunbegun, hquoting]
  cases hb : begun? s with
  | none =>
    have hempty : echo s = [] := by
      unfold echo
      rw [hb]
      rfl
    rw [hempty]
    simp only [ite_self]
    rfl
  | some c =>
    dsimp only
    rw [follows_perform draw s.quoting c s]
    cases e <;> cases s.debug <;> rfl

/-- An input takes no notice of the echo, or of how many directions have been used. -/
theorem follows_resume (input : Input) :
    Follows (State.recast e k) (resume input) (resume input) := by
  refine .get_bind fun s => ?_
  dsimp only [State.recast]
  split
  · exact follows_fail _
  · refine .bind (follows_modify fun _ => rfl) fun _ => ?_
    split
    · exact .bind (follows_push _) fun _ => follows_advance
    · exact follows_fail _

end Befunge

/-! ## The built-in machines -/

namespace Builtin

/-- A machine with its echo turned on, or as it is, and more random directions counted as used. The
tape machine and the token machine have neither. -/
def recast (echoing : Bool) (drawn : Nat) : Builtin → Builtin
  | befunge s => befunge (s.recast echoing drawn)
  | brainfuck s => brainfuck s
  | element s => element s
  | length s => length (s.recast echoing)

/-- Whether the machine echoes the instructions that it begins. -/
def debug : Builtin → Bool
  | befunge s => s.debug
  | brainfuck _ => false
  | element _ => false
  | length s => s.debug

/-- The echo of the instruction that a step begins, if the language has one and if a step begins an
instruction. -/
def echo : Builtin → List String
  | befunge s => Befunge.echo s
  | brainfuck _ => []
  | element _ => []
  | length s => Length.echo s

variable (draw : Nat → Befunge.Direction) (e : Bool) (k : Nat)

/-- A load takes no notice of the echo, or of how many directions have been used. -/
theorem load_recast (source : String) (s : Builtin) :
    (machine draw).load source (s.recast e k) =
      ((machine (Befunge.later draw k)).load source s).mapState (recast e k) := by
  cases s <;> rfl

/-- A reset takes no notice of them. -/
theorem reset_recast (s : Builtin) :
    (machine draw).reset (s.recast e k) =
      ((machine (Befunge.later draw k)).reset s).mapState (recast e k) := by
  cases s <;> rfl

/-- An input takes no notice of them. -/
theorem resume_recast (input : Input) (s : Builtin) :
    (machine draw).resume input (s.recast e k) =
      ((machine (Befunge.later draw k)).resume input s).mapState (recast e k) := by
  cases s with
  | befunge s =>
    have hs := (Befunge.follows_resume (e := e) (k := k) input).asCall Befunge.Trouble.upset s
    exact congrArg (Turn.mapState Builtin.befunge) hs
  | brainfuck s => rfl
  | element s => rfl
  | length s =>
    have hs := (Length.follows_resume (e := e) input).asCall
      (Upset.fault ∘ Length.Trouble.fault) s
    exact congrArg (Turn.mapState Builtin.length) hs

/-- In another cast a step does what it does in the plain one, after the echo. -/
theorem step_recast (s : Builtin) :
    (machine draw).step (s.recast e k) =
      (((machine (Befunge.later draw k)).step s).mapState (recast e k)).after
        (if e && !s.debug then s.echo else []) := by
  cases s with
  | befunge s =>
    have hs : (Befunge.step draw).asCall Befunge.Trouble.upset (s.recast e k) =
        (((Befunge.step (Befunge.later draw k)).asCall Befunge.Trouble.upset s).mapState
          (Befunge.State.recast e k)).after (if e && !s.debug then Befunge.echo s else []) := by
      unfold Act.asCall
      rw [Befunge.step_recast]
      rfl
    exact congrArg (Turn.mapState Builtin.befunge) hs
  | brainfuck s =>
    have hecho : echo (brainfuck s) = [] := rfl
    rw [hecho]
    simp only [ite_self]
    rfl
  | element s =>
    have hecho : echo (element s) = [] := rfl
    rw [hecho]
    simp only [ite_self]
    rfl
  | length s =>
    have hs : Length.step.asCall (Upset.fault ∘ Length.Trouble.fault) (s.recast e) =
        ((Length.step.asCall (Upset.fault ∘ Length.Trouble.fault) s).mapState
          (Length.State.recast e)).after (if e && !s.debug then Length.echo s else []) := by
      unfold Act.asCall
      rw [Length.step_recast]
      rfl
    exact congrArg (Turn.mapState Builtin.length) hs

/-- Counting random directions as used is the same as drawing later ones. -/
theorem mirrors_recast :
    (machine draw).Mirrors (machine (Befunge.later draw k)) (recast false k) where
  load := load_recast draw false k
  reset := reset_recast draw false k
  step := step_recast draw false k
  resume := resume_recast draw false k
  minify s _ := by cases s <;> rfl
  fromText s _ := by cases s <;> rfl

/-- A notice is shown in the same way with the echo and without. -/
theorem portray_recast (s : Builtin) :
    (machine draw).portray (s.recast e k) = (machine (Befunge.later draw k)).portray s := by
  cases s <;> rfl

end Builtin

end EsotericHost
