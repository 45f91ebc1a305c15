import EsotericHost.Proofs.Element.Executing
import EsotericHost.Proofs.Machine.Driven

/-!
# The token machine does what the token tree says

The token machine carries out one token of its code after the other. Where it stands while a job is
done is told by the job (`Stands`): in the body of a counted loop there is a frame with the rounds
that are left, this one included. A job that is evaluated takes the machine to the end that the job
has (`Evaluates.comes`), and a machine that comes to an end does so because a job is evaluated
(`Concludes.evaluates`). So a source that has tokens is driven to the end that its tree has
(`framed_refines_structured`).
-/

namespace EsotericHost.Element

/-- The drive ends with an answer, and leaves the stacks, the variables and the inputs of a world
whose text it has printed. -/
structure Tells (d : Drive State) (answer : Except Upset Outcome) (w : World) : Prop where
  answer_eq : d.answer = answer
  left_eq : d.left = w.inputs
  main_eq : d.session.state.main = w.main
  control_eq : d.session.state.control = w.control
  bindings_eq : d.session.state.bindings = w.bindings
  printed_eq : d.transcript.printed = w.printed

/-- The driven machine is at a token of its program, in a world, with some loops that run. -/
structure IsAt (base : Session State) (x : Driven State) (i : Nat) (loops : List Frame)
    (w : World) : Prop where
  session_eq : x.session = { base with state := w.state base.state i loops }
  inputs_eq : x.inputs = w.inputs
  printed_eq : x.transcript.printed = w.printed

variable {base : Session State} {x y : Driven State} {w w' w'' : World} {i j : Nat}
  {loops loops' : List Frame} {token : Token}

/-- A machine that is at a token is told by its world. -/
theorem IsAt.tells {answer : Except Upset Outcome} (hx : IsAt base x i loops w) :
    Tells (x.ends answer) answer w := by
  refine ⟨rfl, hx.inputs_eq, ?_, ?_, ?_, hx.printed_eq⟩
  all_goals
    unfold Driven.ends
    rw [hx.session_eq]
    rfl

/-- The next attempt is the last one, and a verdict and a world tell what it leaves. -/
def Finishes (x : Driven State) (v : Verdict) (w : World) : Prop :=
  ∃ z, x.attempt machine = .stops v.answer z ∧ Tells (z.ends v.answer) v.answer w

/-! ## Single attempts -/

/-- The step of a machine that is behind its last token. -/
theorem step_of_none {s : State} (hcode : s.program.toList[i]? = none) :
    step (w.state s i loops) = ⟨.ok .halted, w.state s i loops, []⟩ := by
  unfold step
  rw [Act.get_bind_apply, if_neg (not_waiting w s i loops), found hcode]
  rfl

/-- The step of a machine at a token. -/
theorem step_of_some {s : State} (hcode : s.program.toList[i]? = some token) :
    step (w.state s i loops) =
      if token.op = .command .input then
        ⟨.ok (.suspended .line), { w.state s i loops with waiting := true }, []⟩
      else (do
        let index ← execute i token
        goTo index
        return Outcome.progressed) (w.state s i loops) := by
  unfold step
  rw [Act.get_bind_apply, if_neg (not_waiting w s i loops), found hcode]
  dsimp only
  split <;> rfl

/-- The step of a machine at a token that does not wait. -/
theorem step_of_token {s : State} (hcode : s.program.toList[i]? = some token)
    (hop : token.op ≠ .command .input) :
    machine.step (w.state s i loops) = ((do
      let index ← execute i token
      goTo index
      return Outcome.progressed) (w.state s i loops)).mapError Trouble.upset := by
  change (step _).mapError _ = _
  rw [step_of_some hcode, if_neg hop]

/-- A call prints what its effects print behind what has been printed before. -/
theorem printed_after {α : Type} {act : Act Upset State α} {result : Except Upset α} {state : State}
    {effects : List Effect} (hact : act x.session.state = ⟨result, state, effects⟩) :
    (x.after machine act).transcript.printed =
      x.transcript.printed ++ Effect.texts effects := by
  change Transcript.printed (x.transcript ++ x.session.told machine act) = _
  rw [Transcript.printed_append, Session.texts_told, hact]

/-- A call that takes the machine to a token in a world. -/
theorem IsAt.of_call {α : Type} {act : Act Upset State α} {result : Except Upset α}
    {effects : List Effect}
    (hact : act x.session.state = ⟨result, w'.state base.state j loops', effects⟩)
    (hsession : { x.session with state := base.state } = base) (hinputs : x.inputs = w'.inputs)
    (hprinted : w'.printed = x.transcript.printed ++ Effect.texts effects) :
    IsAt base (x.after machine act) j loops' w' := by
  refine ⟨?_, hinputs, (printed_after hact).trans hprinted.symm⟩
  change ({ x.session with state := (act x.session.state).state } : Session State) = _
  rw [hact, ← hsession]

/-- A token that is carried out takes the machine to another one. -/
theorem IsAt.goes (hx : IsAt base x i loops w)
    (hcode : base.state.program.toList[i]? = some token) (hop : token.op ≠ .command .input)
    (h : Turns w base.state i (.ok j) w' loops' (execute i token (w.state base.state i loops))) :
    ∃ y, x.attempt machine = .goesOn y ∧ IsAt base y j loops' w' := by
  obtain ⟨turn, hturn⟩ : ∃ turn, execute i token (w.state base.state i loops) = turn := ⟨_, rfl⟩
  rw [hturn] at h
  obtain ⟨result, state, effects⟩ := turn
  obtain ⟨rfl, rfl, hinputs, hprinted⟩ := h
  obtain ⟨notice, hstep⟩ : ∃ notice, machine.step x.session.state =
      ⟨.ok .progressed, w'.state base.state j loops', effects ++ [.notify notice]⟩ := by
    refine ⟨.position "ip" (w'.state base.state j loops').sourcePosition, ?_⟩
    rw [hx.session_eq, step_of_token hcode hop, Act.bind_of_ok hturn]
    rfl
  have hat : IsAt base (x.after machine machine.step) j loops' w' := by
    refine .of_call hstep (by rw [hx.session_eq]) (hx.inputs_eq.trans hinputs.symm) ?_
    rw [Effect.texts_append, hx.printed_eq, hprinted]
    exact congrArg _ String.append_empty.symm
  exact ⟨_, Driven.attempt_of_progress (by rw [hstep]), hat.1, hat.2, hat.3⟩

/-- A token that fails is the end of the drive. -/
theorem IsAt.fails {trouble : Trouble} (hx : IsAt base x i loops w)
    (hcode : base.state.program.toList[i]? = some token) (hop : token.op ≠ .command .input)
    (h : Turns w base.state i (.error trouble) w' loops'
      (execute i token (w.state base.state i loops))) : Finishes x (.failed trouble) w' := by
  obtain ⟨turn, hturn⟩ : ∃ turn, execute i token (w.state base.state i loops) = turn := ⟨_, rfl⟩
  rw [hturn] at h
  obtain ⟨result, state, effects⟩ := turn
  obtain ⟨rfl, rfl, hinputs, hprinted⟩ := h
  have hstep : machine.step x.session.state =
      ⟨.error trouble.upset, w'.state base.state i loops', effects⟩ := by
    rw [hx.session_eq, step_of_token hcode hop, Act.bind_of_error hturn]
    rfl
  have hat : IsAt base (x.after machine machine.step) i loops' w' := by
    refine .of_call hstep (by rw [hx.session_eq]) (hx.inputs_eq.trans hinputs.symm) ?_
    rw [hx.printed_eq, hprinted]
  exact ⟨_, Driven.attempt_of_rest (by rw [hstep]; rfl) nofun (.inl rfl), hat.tells⟩

/-- The end of the code is the end of the drive. -/
theorem IsAt.halts (hx : IsAt base x i loops w) (hcode : base.state.program.toList[i]? = none) :
    Finishes x .ended w := by
  have hstep : machine.step x.session.state = ⟨.ok .halted, w.state base.state i loops, []⟩ := by
    rw [hx.session_eq]
    change (step _).mapError _ = _
    rw [step_of_none hcode]
    rfl
  have hat : IsAt base (x.after machine machine.step) i loops w := by
    refine .of_call hstep (by rw [hx.session_eq]) hx.inputs_eq ?_
    rw [hx.printed_eq]
    exact String.append_empty.symm
  exact ⟨_, Driven.attempt_of_rest (by rw [hstep]; rfl) nofun (.inl rfl), hat.tells⟩

/-- The step of a machine at an input. -/
theorem IsAt.waits {position : Nat} (hx : IsAt base x i loops w)
    (hcode : base.state.program.toList[i]? = some ⟨position, .command .input⟩) :
    machine.step x.session.state =
      ⟨.ok (.suspended .line), { w.state base.state i loops with waiting := true }, []⟩ := by
  rw [hx.session_eq]
  change (step _).mapError _ = _
  rw [step_of_some hcode]
  rfl

/-- A machine that asks for an input when there is none is at the end of its drive. -/
theorem IsAt.starves {position : Nat} (hx : IsAt base x i loops w)
    (hcode : base.state.program.toList[i]? = some ⟨position, .command .input⟩)
    (hinputs : w.inputs = []) : Finishes x .starved w := by
  have hstep := hx.waits hcode
  have hstarved : x.inputs = [] := hx.inputs_eq.trans hinputs
  refine ⟨_, Driven.attempt_of_rest (by rw [hstep]; rfl) nofun (.inr hstarved), rfl, hx.inputs_eq,
    ?_, ?_, ?_, ?_⟩
  · exact congrArg State.main (congrArg Turn.state hstep)
  · exact congrArg State.control (congrArg Turn.state hstep)
  · exact congrArg State.bindings (congrArg Turn.state hstep)
  · exact (printed_after hstep).trans (String.append_empty.trans hx.printed_eq)

/-- A machine that asks for an input goes on with the next one. -/
theorem IsAt.reads {position : Nat} {input : Input} {inputs : List Input}
    (hx : IsAt base x i loops w)
    (hcode : base.state.program.toList[i]? = some ⟨position, .command .input⟩)
    (hinputs : w.inputs = input :: inputs) :
    ∃ y, x.attempt machine = .goesOn y ∧
      IsAt base y (i + 1) loops
        { w with main := .text (inputText input) :: w.main, inputs } := by
  have hstep := hx.waits hcode
  have hstate : (x.after machine machine.step).session = { base with
      state := { w.state base.state i loops with waiting := true } } := by
    change ({ x.session with state := (machine.step x.session.state).state } : Session State) = _
    rw [hstep, hx.session_eq]
  have hprinted : (x.after machine machine.step).transcript.printed = w.printed :=
    (printed_after hstep).trans (String.append_empty.trans hx.printed_eq)
  obtain ⟨effects, hresume, hquiet⟩ : ∃ effects,
      machine.resume input (x.after machine machine.step).session.state =
        ⟨.ok (), World.state { w with main := .text (inputText input) :: w.main, inputs }
          base.state (i + 1) loops, effects⟩ ∧ Effect.texts effects = "" := by
    rw [hstate]
    exact ⟨_, rfl, rfl⟩
  refine ⟨_, Driven.attempt_of_input (by rw [hstep]) (hx.inputs_eq.trans hinputs) (by rw [hresume]),
    .of_call (x := { x.after machine machine.step with inputs }) hresume (by rw [hstate]) rfl ?_⟩
  rw [hquiet]
  exact hprinted.symm.trans String.append_empty.symm

/-! ## Tokens and brackets -/

section Tokens

variable {autovivification : Bool} {position opened closed n : Nat} {p : Plain} {v : Verdict}
  {body rest : Tree} {value : Value} {values : List Value}

/-- Only the command that asks for input is carried out as one. -/
theorem Plain.op_eq_input (hp : p.op = .command .input) : p = .command .input := by
  cases p with
  | word letters => cases hp
  | command c => exact congrArg Plain.command (Op.command.inj hp)

/-- A token that does something is carried out so. -/
theorem IsAt.plain_goes (hx : IsAt base x i loops w)
    (hcode : base.state.program.toList[i]? = some ⟨position, p.op⟩)
    (hd : p.does base.state.autovivification position w = (.ok (), w')) :
    ∃ y, x.attempt machine = .goesOn y ∧ IsAt base y (i + 1) loops w' := by
  by_cases hp : p = .command .input
  · subst hp
    unfold Plain.does at hd
    dsimp only at hd
    cases hinputs : w.inputs with
    | nil =>
      rw [hinputs] at hd
      cases hd
    | cons input inputs =>
      rw [hinputs] at hd
      cases hd
      exact hx.reads hcode hinputs
  · exact hx.goes hcode (fun h => hp (Plain.op_eq_input h)) (execute_of_ok hp hcode hd)

/-- A token that ends a program is the end of the drive. -/
theorem IsAt.plain_finishes (hx : IsAt base x i loops w)
    (hcode : base.state.program.toList[i]? = some ⟨position, p.op⟩)
    (hd : p.does base.state.autovivification position w = (.error v, w')) : Finishes x v w' := by
  by_cases hp : p = .command .input
  · subst hp
    unfold Plain.does at hd
    dsimp only at hd
    cases hinputs : w.inputs with
    | nil =>
      rw [hinputs] at hd
      cases hd
      exact hx.starves hcode hinputs
    | cons input inputs =>
      rw [hinputs] at hd
      cases hd
  · obtain ⟨trouble, rfl, hturns⟩ := execute_of_error hp loops hcode hd
    exact hx.fails hcode (fun h => hp (Plain.op_eq_input h)) hturns

/-- The bracket that opens a counted loop makes a frame for its rounds, if there are any. -/
theorem IsAt.counted_goes (hx : IsAt base x i loops w)
    (hat : (Tree.loop .counted opened closed body rest).At base.state.program.toList i)
    (hmain : w.main = value :: values) :
    ∃ y, x.attempt machine = .goesOn y ∧
      IsAt base y (target i (i + body.size + 1) (Decimal.truncate value.toFloat).toNat)
        (running i loops (Decimal.truncate value.toFloat).toNat) { w with main := values } :=
  hx.goes hat.loop.1 Op.noConfusion (enterLoop_cons hmain)

/-- A counted loop without a count on the main stack fails at its opening bracket. -/
theorem IsAt.counted_finishes (hx : IsAt base x i loops w)
    (hat : (Tree.loop .counted opened closed body rest).At base.state.program.toList i)
    (hmain : w.main = []) : Finishes x (.failed (.underflow (.position opened) .main)) w := by
  have hpop : Turns w base.state i _ w loops (popFrom .main (w.state base.state i loops)) :=
    popFrom_nil hat.loop.1 hmain
  exact hx.fails hat.loop.1 Op.noConfusion hpop.bind_of_error

/-- The bracket that closes a counted loop takes a round off its frame. -/
theorem IsAt.round_goes (hn : ((n + 1 : Nat) : Int) < Word.intBound)
    (hat : (Tree.loop .counted opened closed body rest).At base.state.program.toList i)
    (hx : IsAt base x (i + body.size + 1) (running i loops (n + 1)) w) :
    ∃ y, x.attempt machine = .goesOn y ∧
      IsAt base y (target i (i + body.size + 1) n) (running i loops n) w := by
  obtain ⟨-, -, hcode, -⟩ := hat.loop
  refine hx.goes hcode Op.noConfusion ?_
  exact endRound_running hn

/-- The bracket that opens a conditional loop is passed over: its condition is looked at by the
other one. -/
theorem IsAt.conditional_goes (hx : IsAt base x i loops w)
    (hat : (Tree.loop .conditional opened closed body rest).At base.state.program.toList i) :
    ∃ y, x.attempt machine = .goesOn y ∧ IsAt base y (i + 1) loops w :=
  hx.goes hat.loop.1 Op.noConfusion (.of_quiet rfl)

/-- The bracket that closes a conditional loop looks at the control stack. -/
theorem IsAt.pass_goes
    (hat : (Tree.loop .conditional opened closed body rest).At base.state.program.toList i)
    (hx : IsAt base x (i + body.size + 1) loops w) (hcontrol : w.control = value :: values) :
    ∃ y, x.attempt machine = .goesOn y ∧
      IsAt base y (if value.truthy then i + 1 else i + body.size + 2) loops
        { w with control := values } := by
  obtain ⟨-, -, hcode, -⟩ := hat.loop
  have hpop : Turns w base.state (i + body.size + 1) (.ok value) { w with control := values } loops
      (popFrom .control (w.state base.state (i + body.size + 1) loops)) :=
    popFrom_cons hcontrol rfl rfl rfl
  exact hx.goes hcode Op.noConfusion (hpop.bind_of_quiet rfl)

/-- A conditional loop without a condition on the control stack fails at its closing bracket. -/
theorem IsAt.pass_finishes
    (hat : (Tree.loop .conditional opened closed body rest).At base.state.program.toList i)
    (hx : IsAt base x (i + body.size + 1) loops w) (hcontrol : w.control = []) :
    Finishes x (.failed (.underflow (.position closed) .control)) w := by
  obtain ⟨-, -, hcode, -⟩ := hat.loop
  have hpop : Turns w base.state (i + body.size + 1) _ w loops
      (popFrom .control (w.state base.state (i + body.size + 1) loops)) :=
    popFrom_nil hcode hcontrol
  exact hx.fails hcode Op.noConfusion hpop.bind_of_error

end Tokens

/-! ## Jobs -/

/-- Where the machine stands, and which loops run, when it is about to do a job at whose end it will
be behind an index of its code with some outer loops that run. -/
inductive Stands (code : List Token) (behind : Nat) (outer : List Frame) :
    Job → Nat → List Frame → Prop where
  | tree {t : Tree} {i : Nat} (hat : t.At code i) (hbehind : i + t.size = behind) :
    Stands code behind outer (.tree t) i outer
  | rounds {n start opened closed : Nat} {body rest : Tree}
    (hat : (Tree.loop .counted opened closed body rest).At code start)
    (hbehind : start + (Tree.loop .counted opened closed body rest).size = behind)
    (hn : (n : Int) < Word.intBound) :
    Stands code behind outer (.rounds n body rest) (target start (start + body.size + 1) n)
      (running start outer n)
  | passes {start opened closed : Nat} {body rest : Tree}
    (hat : (Tree.loop .conditional opened closed body rest).At code start)
    (hbehind : start + (Tree.loop .conditional opened closed body rest).size = behind) :
    Stands code behind outer (.passes closed body rest) (start + 1) outer

section Places

variable {code : List Token} {start position opened closed behind : Nat} {p : Plain} {kind : Loop}
  {body rest : Tree}

/-- What follows a token, or a loop, ends where the whole ends. -/
theorem Tree.At.stands_next (hat : (Tree.plain position p rest).At code start)
    (hbehind : start + (Tree.plain position p rest).size = behind) (outer : List Frame) :
    Stands code behind outer (.tree rest) (start + 1) outer := by
  refine .tree hat.plain.2 ?_
  rw [← hbehind, Tree.size]
  omega

/-- Behind a loop the machine stands at the rest of the row. -/
theorem Tree.At.stands_rest (hat : (Tree.loop kind opened closed body rest).At code start)
    (hbehind : start + (Tree.loop kind opened closed body rest).size = behind)
    (outer : List Frame) :
    Stands code behind outer (.tree rest) (start + body.size + 2) outer := by
  refine .tree hat.loop.2.2.2 ?_
  rw [← hbehind, Tree.size]
  omega

/-- The body of a loop ends at the closing bracket, with the same loops running. -/
theorem Tree.At.stands_body (hat : (Tree.loop kind opened closed body rest).At code start)
    (outer : List Frame) :
    Stands code (start + body.size + 1) outer (.tree body) (start + 1) outer :=
  .tree hat.loop.2.1 (Nat.add_right_comm start 1 body.size)

end Places

variable {behind inner n : Nat} {outer within : List Frame} {job : Job} {v : Verdict}

/-- A number of rounds is one that a machine word can hold. -/
theorem toNat_truncate_lt (value : Float) :
    ((Decimal.truncate value).toNat : Int) < Word.intBound := by
  have hlt := truncate_lt value
  unfold Word.intBound at hlt ⊢
  omega

/-- What comes of the machine when a job is done that ends in a world: it is behind the job, or, if
the job did not come to its end, at the end of its drive. -/
def Comes (base : Session State) (behind : Nat) (outer : List Frame) (x : Driven State)
    (v : Verdict) (w : World) : Prop :=
  ∃ n y, Driven.Reaches machine n x y ∧
    ((v = .ended ∧ IsAt base y behind outer w) ∨ (v ≠ .ended ∧ Finishes y v w))

/-- What comes of the machine after an attempt that goes on comes of it before, too. -/
theorem Comes.next (goes : x.attempt machine = .goesOn y) (h : Comes base behind outer y v w) :
    Comes base behind outer x v w := by
  obtain ⟨n, z, hreaches, hz⟩ := h
  exact ⟨n + 1, z, .next goes hreaches, hz⟩

/-- A last attempt that is no ending of the program is the end of the drive. -/
theorem Finishes.comes (hv : v ≠ .ended) (h : Finishes x v w) : Comes base behind outer x v w :=
  ⟨0, x, .rest, .inr ⟨hv, h⟩⟩

/-- A body that does not come to its end is the end of the whole. -/
theorem Comes.broken (hv : v ≠ .ended) (h : Comes base inner within x v w) :
    Comes base behind outer x v w := by
  obtain ⟨n, y, hreaches, ⟨rfl, -⟩ | hfinishes⟩ := h
  · exact absurd rfl hv
  · exact ⟨n, y, hreaches, .inr hfinishes⟩

/-- A body that comes to its end goes on behind it. -/
theorem Comes.after (h : Comes base inner within x .ended w)
    (hrest : ∀ y, IsAt base y inner within w → Comes base behind outer y v w') :
    Comes base behind outer x v w' := by
  obtain ⟨n, y, hreaches, ⟨-, hy⟩ | ⟨hv, -⟩⟩ := h
  · obtain ⟨k, z, hrest, hz⟩ := hrest y hy
    exact ⟨n + k, z, hreaches.trans hrest, hz⟩
  · exact absurd rfl hv

/-- A job that is evaluated takes the machine to where it ends. -/
theorem Evaluates.comes (he : Evaluates base.state.autovivification job w v w')
    (hs : Stands base.state.program.toList behind outer job i loops)
    (hx : IsAt base x i loops w) : Comes base behind outer x v w' := by
  induction he generalizing behind outer i loops x with
  | done =>
    cases hs with
    | tree hat hbehind => exact ⟨0, x, .rest, .inl ⟨rfl, hbehind ▸ hx⟩⟩
  | plain does after ih =>
    cases hs with
    | tree hat hbehind =>
      obtain ⟨y, goes, hy⟩ := hx.plain_goes hat.plain.1 does
      exact .next goes (ih (hat.stands_next hbehind _) hy)
  | stuck ends =>
    cases hs with
    | tree hat hbehind =>
      exact (hx.plain_finishes hat.plain.1 ends).comes (Plain.does_ne_ended ends)
  | counted top after ih =>
    cases hs with
    | tree hat hbehind =>
      obtain ⟨y, goes, hy⟩ := hx.counted_goes hat top
      exact .next goes (ih (.rounds hat hbehind (toNat_truncate_lt _)) hy)
  | countless empty =>
    cases hs with
    | tree hat hbehind => exact (hx.counted_finishes hat empty).comes Verdict.noConfusion
  | conditional after ih =>
    cases hs with
    | tree hat hbehind =>
      obtain ⟨y, goes, hy⟩ := hx.conditional_goes hat
      exact .next goes (ih (.passes hat hbehind) hy)
  | spent after ih =>
    cases hs with
    | rounds hat hbehind hn => exact ih (hat.stands_rest hbehind _) hx
  | @round n body rest w w₁ w₂ v inside after ihinside ihafter =>
    cases hs with
    | rounds hat hbehind hn =>
      refine (ihinside (hat.stands_body _) hx).after fun y hy => ?_
      obtain ⟨z, goes, hz⟩ := IsAt.round_goes hn hat hy
      have hless : (n : Int) < Word.intBound := by omega
      exact .next goes (ihafter (.rounds hat hbehind hless) hz)
  | brokenRound inside ends ih =>
    cases hs with
    | rounds hat hbehind hn => exact (ih (hat.stands_body _) hx).broken ends
  | again inside top holds after ihinside ihafter =>
    cases hs with
    | passes hat hbehind =>
      refine (ihinside (hat.stands_body _) hx).after fun y hy => ?_
      obtain ⟨z, goes, hz⟩ := IsAt.pass_goes hat hy top
      rw [if_pos holds] at hz
      exact .next goes (ihafter (.passes hat hbehind) hz)
  | leave inside top fails after ihinside ihafter =>
    cases hs with
    | passes hat hbehind =>
      refine (ihinside (hat.stands_body _) hx).after fun y hy => ?_
      obtain ⟨z, goes, hz⟩ := IsAt.pass_goes hat hy top
      rw [if_neg (by rw [fails]; exact Bool.false_ne_true)] at hz
      exact .next goes (ihafter (hat.stands_rest hbehind _) hz)
  | conditionless inside empty ih =>
    cases hs with
    | passes hat hbehind =>
      refine (ih (hat.stands_body _) hx).after fun y hy => ?_
      exact (IsAt.pass_finishes hat hy empty).comes Verdict.noConfusion
  | brokenPass inside ends ih =>
    cases hs with
    | passes hat hbehind => exact (ih (hat.stands_body _) hx).broken ends

/-! ## From the end of a drive back to its jobs -/

variable {answer : Except Upset Outcome} {z : Driven State}

/-- The machine comes to its last attempt after some that go on. -/
def Concludes (n : Nat) (x : Driven State) (answer : Except Upset Outcome) (z : Driven State) :
    Prop :=
  ∃ y, Driven.Reaches machine n x y ∧ y.attempt machine = .stops answer z

/-- A drive to an end begins with an attempt that goes on, and has one less to come. -/
theorem Concludes.of_goesOn (h : Concludes n x answer z) (goes : x.attempt machine = .goesOn y) :
    ∃ k, n = k + 1 ∧ Concludes k y answer z := by
  obtain ⟨last, hreaches, hlast⟩ := h
  cases hreaches with
  | rest => cases goes.symm.trans hlast
  | next goes' rest =>
    cases goes.symm.trans goes'
    exact ⟨_, rfl, last, rest, hlast⟩

/-- A drive to an end at a last attempt answers as its verdict says, and leaves its world. -/
theorem Concludes.of_finishes (h : Concludes n x answer z) (hf : Finishes x v w) :
    v.answer = answer ∧ Tells (z.ends answer) answer w := by
  obtain ⟨last, hreaches, hlast⟩ := h
  obtain ⟨z', hstops, htells⟩ := hf
  cases hreaches with
  | rest =>
    cases hstops.symm.trans hlast
    exact ⟨rfl, htells⟩
  | next goes rest => cases goes.symm.trans hstops

/-- What is known of a drive whose machine was about to do a job: the job has ended in a world, and
that is the end of the drive, or the machine goes on behind the job. -/
def Onward (base : Session State) (n behind : Nat) (outer : List Frame)
    (answer : Except Upset Outcome) (z : Driven State) (v : Verdict) (w : World) : Prop :=
  (v ≠ .ended ∧ v.answer = answer ∧ Tells (z.ends answer) answer w) ∨
    (v = .ended ∧ ∃ m x, m ≤ n ∧ IsAt base x behind outer w ∧ Concludes m x answer z)

/-- What is known of a drive for some attempts is known for more. -/
theorem Onward.mono {k : Nat} (h : Onward base k behind outer answer z v w) (hk : k ≤ n) :
    Onward base n behind outer answer z v w := by
  rcases h with hstops | ⟨hv, m, x, hm, hx⟩
  · exact .inl hstops
  · exact .inr ⟨hv, m, x, hm.trans hk, hx⟩

/-- A job that was to be done in a world has ended. -/
def Done (base : Session State) (n behind : Nat) (outer : List Frame)
    (answer : Except Upset Outcome) (z : Driven State) (job : Job) (w : World) : Prop :=
  ∃ v w', Evaluates base.state.autovivification job w v w' ∧
    Onward base n behind outer answer z v w'

/-- A job ends as another one does that is left of it. -/
theorem Done.of_rest {k : Nat} {job' : Job} (h : Done base k behind outer answer z job' w')
    (hk : k ≤ n) (hjob : ∀ v w'', Evaluates base.state.autovivification job' w' v w'' →
      Evaluates base.state.autovivification job w v w'') :
    Done base n behind outer answer z job w := by
  obtain ⟨v, w'', he, ho⟩ := h
  exact ⟨v, w'', hjob v w'' he, ho.mono hk⟩

/-- A job ends where the drive ends. -/
theorem Concludes.done (hc : Concludes n x answer z) (hf : Finishes x v w') (hv : v ≠ .ended)
    (he : Evaluates base.state.autovivification job w v w') :
    Done base n behind outer answer z job w :=
  ⟨v, w', he, .inl ⟨hv, hc.of_finishes hf⟩⟩

/-- Whatever job a machine is about to do, it has ended if the drive takes less than so many
attempts to its end. -/
def DoneWithin (base : Session State) (n : Nat) (answer : Except Upset Outcome)
    (z : Driven State) : Prop :=
  ∀ k < n, ∀ {x : Driven State} {w : World} {i : Nat} {loops : List Frame} {behind : Nat}
    {outer : List Frame} {job : Job}, Concludes k x answer z →
      Stands base.state.program.toList behind outer job i loops → IsAt base x i loops w →
        Done base k behind outer answer z job w

/-- A row takes an attempt before any other job. -/
theorem DoneWithin.tree {t : Tree} (ih : DoneWithin base n answer z) (hc : Concludes n x answer z)
    (hs : Stands base.state.program.toList behind outer (.tree t) i loops)
    (hx : IsAt base x i loops w) : Done base n behind outer answer z (.tree t) w := by
  have hnext {k : Nat} (hk : n = k + 1) : k < n := hk ▸ Nat.lt_succ_self k
  obtain ⟨hat, hbehind⟩ := hs
  cases t with
  | done => exact ⟨.ended, w, .done, .inr ⟨rfl, n, x, Nat.le_refl n, hbehind ▸ hx, hc⟩⟩
  | plain position p rest =>
    have hcode := hat.plain.1
    obtain ⟨⟨result, w₁⟩, hd⟩ :
        ∃ does, p.does base.state.autovivification position w = does := ⟨_, rfl⟩
    cases result with
    | error v =>
      exact hc.done (hx.plain_finishes hcode hd) (Plain.does_ne_ended hd) (.stuck hd)
    | ok _ =>
      obtain ⟨y, goes, hy⟩ := hx.plain_goes hcode hd
      obtain ⟨k, hk, hc⟩ := hc.of_goesOn goes
      have hrest := ih k (hnext hk) hc (hat.stands_next hbehind _) hy
      exact hrest.of_rest (hnext hk).le fun _ _ => .plain hd
  | loop kind opened closed body rest =>
    cases kind with
    | conditional =>
      obtain ⟨y, goes, hy⟩ := hx.conditional_goes hat
      obtain ⟨k, hk, hc⟩ := hc.of_goesOn goes
      have hpasses := ih k (hnext hk) hc (.passes hat hbehind) hy
      exact hpasses.of_rest (hnext hk).le fun _ _ => .conditional
    | counted =>
      cases hmain : w.main with
      | nil =>
        exact hc.done (hx.counted_finishes hat hmain) Verdict.noConfusion (.countless hmain)
      | cons value values =>
        obtain ⟨y, goes, hy⟩ := hx.counted_goes hat hmain
        obtain ⟨k, hk, hc⟩ := hc.of_goesOn goes
        have hrounds := ih k (hnext hk) hc (.rounds hat hbehind (toNat_truncate_lt _)) hy
        exact hrounds.of_rest (hnext hk).le fun _ _ => .counted hmain

/-- A machine that is about to do a job and comes to the end of its drive has a job that ends. -/
theorem Concludes.evaluates (hc : Concludes n x answer z)
    (hs : Stands base.state.program.toList behind outer job i loops) (hx : IsAt base x i loops w) :
    Done base n behind outer answer z job w := by
  -- Each round of a loop takes an attempt at least, so the induction is on their number.
  induction n using Nat.strong_induction_on generalizing x behind outer job i loops w with
  | _ n ih =>
    have ih : DoneWithin base n answer z := ih
    cases hs with
    | tree hat hbehind => exact ih.tree hc (.tree hat hbehind) hx
    | @rounds rounds start opened closed body rest hat hbehind hn =>
      cases rounds with
      | zero =>
        have hrest := ih.tree hc (hat.stands_rest hbehind _) hx
        exact hrest.of_rest (Nat.le_refl n) fun _ _ => .spent
      | succ rounds =>
        obtain ⟨v, w₁, he, ⟨hv, hends⟩ | ⟨rfl, m, y, hm, hy, hc⟩⟩ :=
          ih.tree hc (hat.stands_body _) hx
        · exact ⟨v, w₁, .brokenRound he hv, .inl ⟨hv, hends⟩⟩
        · obtain ⟨y', goes, hy'⟩ := IsAt.round_goes hn hat hy
          obtain ⟨k, rfl, hleft⟩ := hc.of_goesOn goes
          have hless : (rounds : Int) < Word.intBound := by omega
          have hmore := ih k hm hleft (.rounds hat hbehind hless) hy'
          exact hmore.of_rest (Nat.le_of_succ_le hm) fun _ _ => .round he
    | @passes start opened closed body rest hat hbehind =>
      obtain ⟨v, w₁, he, ⟨hv, hends⟩ | ⟨rfl, m, y, hm, hy, hc⟩⟩ :=
        ih.tree hc (hat.stands_body _) hx
      · exact ⟨v, w₁, .brokenPass he hv, .inl ⟨hv, hends⟩⟩
      · cases hcontrol : w₁.control with
        | nil =>
          have hends := hc.of_finishes (IsAt.pass_finishes hat hy hcontrol)
          exact ⟨_, w₁, .conditionless he hcontrol, .inl ⟨Verdict.noConfusion, hends⟩⟩
        | cons value values =>
          obtain ⟨y', goes, hy'⟩ := IsAt.pass_goes hat hy hcontrol
          obtain ⟨k, rfl, hleft⟩ := hc.of_goesOn goes
          cases hvalue : value.truthy with
          | true =>
            rw [if_pos hvalue] at hy'
            have hmore := ih k hm hleft (.passes hat hbehind) hy'
            exact hmore.of_rest (Nat.le_of_succ_le hm) fun _ _ => .again he hcontrol hvalue
          | false =>
            rw [if_neg (by rw [hvalue]; exact Bool.false_ne_true)] at hy'
            have hrest := ih k hm hleft (hat.stands_rest hbehind _) hy'
            exact hrest.of_rest (Nat.le_of_succ_le hm) fun _ _ => .leave he hcontrol hvalue

/-! ## Sources -/

/-- A drive tells one world. -/
theorem Tells.unique {d : Drive State} {answer' : Except Upset Outcome} (h : Tells d answer w)
    (h' : Tells d answer' w') : answer = answer' ∧ w = w' := by
  obtain ⟨hanswer, hleft, hmain, hcontrol, hbindings, hprinted⟩ := h
  obtain ⟨hanswer', hleft', hmain', hcontrol', hbindings', hprinted'⟩ := h'
  refine ⟨hanswer.symm.trans hanswer', ?_⟩
  cases w
  cases w'
  rw [World.mk.injEq]
  exact ⟨hmain.symm.trans hmain', hcontrol.symm.trans hcontrol', hbindings.symm.trans hbindings',
    hleft.symm.trans hleft', hprinted.symm.trans hprinted'⟩

/-- The session with the code of a tree for a program. -/
def withCode (s : Session State) (tree : Tree) : Session State :=
  { s with state := { s.state with program := (tree.code 0).toArray } }

/-- A machine that has loaded a source which spells a tree, and is reset, is at the first token of
the tree's code, with empty stacks and no variables. -/
theorem isAt_load {source : String} {tree : Tree} (ht : Reads 0 source.toList tree)
    (s : Session State) (inputs : List Input) :
    IsAt (withCode s tree) ⟨s.left (Session.load machine source), inputs, #[], 0⟩ 0 []
      (.start inputs) := by
  have hload : machine.load source s.state = ⟨.ok (), (withCode s tree).state, []⟩ := by
    change (load source s.state).mapError Trouble.upset = _
    unfold load
    rw [ht.tokenize]
    rfl
  refine ⟨?_, rfl, rfl⟩
  change ({ s with state := (Session.load machine source s.state).state } : Session State) = _
  unfold Session.load
  rw [Act.bind_of_ok hload]
  rfl

/-- The code of a tree that is all of a program ends where the program ends. -/
theorem stands_withCode (s : Session State) (tree : Tree) :
    Stands (withCode s tree).state.program.toList tree.size [] (.tree tree) 0 [] := by
  refine .tree ?_ (Nat.zero_add _)
  unfold Tree.At
  rw [List.drop_zero]
  exact List.prefix_rfl

/-- There is no token behind the code of the tree. -/
theorem getElem?_withCode (s : Session State) (tree : Tree) :
    (withCode s tree).state.program.toList[tree.size]? = none := by
  refine List.getElem?_eq_none ?_
  change (tree.code 0).length ≤ _
  rw [Tree.length_code]

/-- **The frames of the machine are the loops of the tree.** The sources that have tokens are those
that spell a tree, and such a source spells one only. Driven from a reset with some inputs, the
machine comes to an answer and leaves a world just if the tree, evaluated with empty stacks and
without variables, ends so and leaves that world. -/
theorem framed_refines_structured (source : String) (s : Session State) :
    ((∃ program, tokenize source.toList = .ok program) ↔ ∃! tree, Reads 0 source.toList tree) ∧
      ∀ tree, Reads 0 source.toList tree → ∀ (inputs : List Input)
        (answer : Except Upset Outcome) (w : World),
        (∃ bound d, (s.left (Session.load machine source)).drive machine bound inputs #[] = some d ∧
            Tells d answer w) ↔
          ∃ v : Verdict, v.answer = answer ∧
            Evaluates s.state.autovivification (.tree tree) (.start inputs) v w := by
  constructor
  · rw [tokenize_ok_iff]
    constructor
    · rintro ⟨tree, ht⟩
      exact ⟨tree, ht, fun tree' ht' => ht'.unique ht⟩
    · rintro ⟨tree, ht, -⟩
      exact ⟨tree, ht⟩
  intro tree ht inputs answer w
  have hx := isAt_load ht s inputs
  have hs := stands_withCode s tree
  have hend := getElem?_withCode s tree
  constructor
  · rintro ⟨bound, d, hd, htells⟩
    obtain ⟨n, y, answer', z, hreaches, hstops, rfl⟩ := Session.drive_iff.mp ⟨bound, hd⟩
    obtain ⟨v, w', he, ho⟩ := Concludes.evaluates ⟨y, hreaches, hstops⟩ hs hx
    have hends : v.answer = answer' ∧ Tells (z.ends answer') answer' w' := by
      rcases ho with ⟨-, hends⟩ | ⟨rfl, m, x, -, hbehind, hc⟩
      · exact hends
      · exact hc.of_finishes (hbehind.halts hend)
    obtain ⟨hv, htells'⟩ := hends
    obtain ⟨rfl, rfl⟩ := htells'.unique htells
    exact ⟨v, hv, he⟩
  · rintro ⟨v, rfl, he⟩
    obtain ⟨n, y, hreaches, hy⟩ : Comes (withCode s tree) tree.size [] _ v w :=
      Evaluates.comes he hs hx
    have hfinishes : Finishes y v w := by
      rcases hy with ⟨rfl, hbehind⟩ | ⟨-, hfinishes⟩
      · exact hbehind.halts hend
      · exact hfinishes
    obtain ⟨z, hstops, htells⟩ := hfinishes
    obtain ⟨bound, hd⟩ := Session.drive_iff.mpr ⟨n, y, _, z, hreaches, hstops, rfl⟩
    exact ⟨bound, _, hd, htells⟩

/-- A loop that echoes a line and asks for another one, given one line, echoes it and then waits in
the middle of its first round. -/
theorem framed_refines_structured_echo :
    let s : Session State := ⟨name, .empty, ⟨true, true, false, false⟩, false, build .empty⟩
    ∃ tree, Reads 0 "\x7b_\x60_\x7d".toList tree ∧
      ∃ w, Evaluates s.state.autovivification (.tree tree) (.start [.line "a"]) .starved w ∧
        w.printed = "a" := by
  intro s
  obtain ⟨htree, hdrive⟩ := framed_refines_structured "\x7b_\x60_\x7d" s
  have hprogram : (tokenize "\x7b_\x60_\x7d".toList).toOption.isSome = true := by decide +kernel
  obtain ⟨program, hprogram⟩ := Option.isSome_iff_exists.mp hprogram
  obtain ⟨tree, ht, -⟩ := htree.mp ⟨program, eq_ok_of_toOption hprogram⟩
  have hdriven : ((s.left (Session.load machine "\x7b_\x60_\x7d")).drive machine 5 [.line "a"]
      #[]).map (fun d => (d.answer.toOption, (⟨d.session.state.main, d.session.state.control,
        d.session.state.bindings, d.left, d.transcript.printed⟩ : World))) =
      some (some (.suspended .line), ⟨[], [], [], [], "a"⟩) := by
    decide +kernel
  obtain ⟨d, hd, hfacts⟩ := Option.map_eq_some_iff.mp hdriven
  simp only [Prod.mk.injEq, World.mk.injEq] at hfacts
  obtain ⟨hanswer, hmain, hcontrol, hbindings, hleft, hprinted⟩ := hfacts
  have htells : Tells d (.ok (.suspended .line)) ⟨[], [], [], [], "a"⟩ :=
    ⟨eq_ok_of_toOption hanswer, hleft, hmain, hcontrol, hbindings, hprinted⟩
  obtain ⟨v, hv, he⟩ := (hdrive tree ht [.line "a"] _ _).mp ⟨5, d, hd, htells⟩
  cases v with
  | starved => exact ⟨tree, ht, _, he, rfl⟩
  | _ => cases hv

end EsotericHost.Element
