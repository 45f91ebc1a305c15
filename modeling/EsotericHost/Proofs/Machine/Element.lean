import EsotericHost.Proofs.Machine.Instructions

/-!
# The token machine is lawful

The token machine looks values up and turns whatever is missing into a fault. What it relies on are
its loops (`State.Good`): each opening bracket of a counted loop has found its partner, and a loop
that runs has rounds left, no more than a machine word can count. The reader of tokens sees to the
first (`tokenize_matched`): a source whose brackets do not match is refused before anything is
replaced.
-/

namespace EsotericHost.Element

/-! ## Brackets -/

/-- A program in which each opening bracket of a counted loop has found its partner. -/
def Matched (program : Array Token) : Prop :=
  ∀ token ∈ program, token.op ≠ .repeatStart none

namespace Scan

/-- The opening brackets of counted loops that have not found their partner are among those that
wait for it. -/
def Waits (scan : Scan) : Prop :=
  ∀ (n : Nat) token, scan.tokens[n]? = some token → token.op = .repeatStart none →
    ∃ bracket ∈ scan.opened, bracket.index = n ∧ bracket.loop = .counted

variable {scan scan' : Scan} {position : Nat}

/-- A token other than an opening bracket does not wait. -/
theorem Waits.push {op : Op} (hs : scan.Waits) (hop : op ≠ .repeatStart none) :
    (scan.push position op).Waits := by
  intro n token ht ho
  change (scan.tokens.push ⟨position, op⟩)[n]? = some token at ht
  rw [Array.getElem?_push] at ht
  split at ht
  · cases ht
    exact absurd ho hop
  · exact hs n token ht ho

/-- The end of a word keeps the brackets that wait. -/
theorem Waits.endWord (hs : scan.Waits) : scan.endWord.Waits := by
  unfold Scan.endWord
  split
  · exact hs
  · exact hs.push Op.noConfusion

/-- An opening bracket waits. -/
theorem Waits.openLoop {loop : Loop} (hs : scan.Waits) : (scan.openLoop position loop).Waits := by
  intro n token ht ho
  change (scan.tokens.push _)[n]? = some token at ht
  rw [Array.getElem?_push] at ht
  split at ht
  · rename_i hn
    cases ht
    refine ⟨⟨scan.tokens.size, loop, position⟩, List.mem_cons_self, hn.symm, ?_⟩
    cases loop with
    | counted => rfl
    | conditional => cases ho
  · obtain ⟨bracket, hb, hindex⟩ := hs n token ht ho
    exact ⟨bracket, List.mem_cons_of_mem _ hb, hindex⟩

/-- A closing bracket ends the wait of its partner and of no other. -/
theorem Waits.closeLoop {loop : Loop} (hs : scan.Waits)
    (hc : scan.closeLoop position loop = .ok scan') : scan'.Waits := by
  unfold Scan.closeLoop at hc
  split at hc
  · cases hc
  · rename_i partner outer hopened
    split at hc
    · cases hc
    · rename_i hloop
      cases loop with
      | counted =>
        cases hc
        refine Waits.push (fun n token ht ho => ?_) Op.noConfusion
        dsimp only at ht
        rw [Array.getElem?_set] at ht
        -- The partner is no longer without one; every other bracket waits further out.
        split at ht
        · cases ht
          cases ho
        · rename_i hne
          obtain ⟨bracket, hb, hindex, hcounted⟩ := hs n token ht ho
          rw [hopened] at hb
          rcases List.mem_cons.mp hb with rfl | hb
          · exact absurd hindex hne
          · exact ⟨bracket, hb, hindex, hcounted⟩
      | conditional =>
        cases hc
        refine Waits.push (fun n token ht ho => ?_) Op.noConfusion
        obtain ⟨bracket, hb, hindex, hcounted⟩ := hs n token ht ho
        rw [hopened] at hb
        rcases List.mem_cons.mp hb with rfl | hb
        -- The partner opens a conditional loop, so it is not the bracket that waits.
        · rw [hcounted] at hloop
          exact absurd Loop.noConfusion hloop
        · exact ⟨bracket, hb, hindex, hcounted⟩

/-- Each character keeps the brackets without a partner among those that wait. -/
theorem Waits.next {character : Char} (hs : scan.Waits)
    (hn : scan.next position character = .ok scan') : scan'.Waits := by
  unfold Scan.next at hn
  split at hn
  · split at hn <;> cases hn <;> exact hs
  · cases hn
    exact hs.endWord
  · cases hn
    exact hs.endWord.push Op.noConfusion
  · cases hn
    exact hs.endWord.openLoop
  · exact hs.endWord.closeLoop hn

/-- A source that is read to its end leaves no bracket that waits. -/
theorem Waits.read {source : List Char} {program : Array Token} (hs : scan.Waits)
    (hr : scan.read position source = .ok program) : Matched program := by
  induction source generalizing scan position with
  | nil =>
    unfold Scan.read at hr
    split at hr
    · rename_i hopened
      cases hr
      intro token htoken ho
      obtain ⟨n, hn⟩ := Array.mem_iff_getElem?.mp htoken
      obtain ⟨bracket, hb, -⟩ := hs.endWord n token hn ho
      rw [show scan.endWord.opened = scan.opened by unfold Scan.endWord; split <;> rfl,
        hopened] at hb
      cases hb
    · cases hr
  | cons character rest ih =>
    unfold Scan.read at hr
    split at hr
    · rename_i scan' hn
      exact ih (hs.next hn) hr
    · cases hr

end Scan

/-- The brackets of a program that has been read have found their partners. -/
theorem tokenize_matched {source : List Char} {program : Array Token}
    (ht : tokenize source = .ok program) : Matched program := by
  have hstart : Scan.start.Waits := fun _ _ ht => nomatch ht
  exact hstart.read ht

/-! ## Instructions -/

/-- A loop that runs has rounds left, no more than a machine word can count. -/
def Running (frame : Frame) : Prop :=
  0 < frame.rounds ∧ frame.rounds < Word.intBound

/-- A program whose brackets match, and frames of loops that run. -/
structure State.Good (s : State) : Prop where
  matched : Matched s.program
  running : ∀ frame ∈ s.loops, Running frame

/-- The input that the machine waits for: a line. -/
def waits (s : State) : Option InputKind :=
  if s.waiting then some .line else none

/-- A part of a call that keeps the machine good, neither waits for input nor ends a wait, and fails
only as the host expects. -/
abbrev Steady {α : Type} (act : Step α) : Prop :=
  ∀ b, act.Safe (fun s => s.Good ∧ s.waiting = b) (·.upset.Mild)

open Act

/-- Replacing a stack touches neither the loops nor the wait. -/
theorem withStack_good {b : Bool} {s : State} (hs : s.Good ∧ s.waiting = b) (stack : Stack)
    (values : List Value) :
    (s.withStack stack values).Good ∧ (s.withStack stack values).waiting = b := by
  obtain ⟨⟨hmatched, hrunning⟩, hwaiting⟩ := hs
  cases stack <;> exact ⟨⟨hmatched, hrunning⟩, hwaiting⟩

/-- A push is steady. -/
theorem steady_pushOn (stack : Stack) (v : Value) : Steady (pushOn stack v) := fun _ =>
  .bind (safe_modify fun _ hs => withStack_good hs _ _) fun _ => safe_notify _

/-- A pop is steady, also where it fails. -/
theorem steady_popFrom (stack : Stack) : Steady (popFrom stack) := by
  refine fun b => .bind safe_get fun s => ?_
  split
  · exact safe_fail Fault.noConfusion
  · refine .bind (safe_modify fun _ hs => withStack_good hs _ _) fun _ => ?_
    exact .bind (safe_notify _) fun _ => safe_pure _

/-- A push on the main stack is steady. -/
theorem steady_push (v : Value) : Steady (push v) := steady_pushOn .main v

/-- A pop of the main stack is steady. -/
theorem steady_pop : Steady pop := steady_popFrom .main

/-- To go to a token is steady. -/
theorem steady_goTo (index : Nat) : Steady (goTo index) := fun _ =>
  .bind (safe_modify fun _ hs => ⟨⟨hs.1.matched, hs.1.running⟩, hs.2⟩) fun _ =>
    .bind safe_get fun _ => safe_notify _

/-- The parts of a command are steady. -/
theorem steady_basic {raises : Prop} {α : Type} {x : Step α} (hx : Basic raises False α x) :
    Steady x := by
  intro b
  cases hx with
  | pushOn stack v => exact steady_pushOn stack v b
  | popFrom stack => exact steady_popFrom stack b
  | assign name v =>
    refine .bind (safe_notify _) fun _ => safe_modify fun _ hs => ?_
    exact ⟨⟨hs.1.matched, hs.1.running⟩, hs.2⟩
  | raise allowed depth =>
    refine .bind safe_get fun s => ?_
    split
    · exact safe_modify fun _ hs => ⟨⟨hs.1.matched, hs.1.running⟩, hs.2⟩
    · exact safe_fail Fault.noConfusion
  | frames allowed f => exact allowed.elim

/-- A command that does not wait leaves the wait as it is. -/
theorem steady_command (c : Command) : Steady (command c) := by
  have hmild : ∀ e, Trouble.Computing e → e.upset.Mild := by
    rintro _ (_ | _) <;> exact Fault.noConfusion
  exact fun b => ((assembled_command c).mono hmild fun _ _ hx => hx).safe fun _ _ hx =>
    steady_basic hx b

/-- A number of rounds is one that a machine word can hold. -/
theorem truncate_lt (x : Float) : Decimal.truncate x < Word.intBound := by
  have hclamp (n : Int) : Word.clamp n < Word.intBound := by
    unfold Word.clamp Word.intBound
    omega
  unfold Decimal.truncate
  split
  · decide
  · decide
  · decide
  · exact hclamp _

/-- A loop is entered only with rounds to run, and passed over only to its partner. -/
theorem steady_enterLoop (start : Nat) {close : Option Nat} (hc : close ≠ none) :
    Steady (enterLoop start close) := by
  refine fun b => .bind (steady_pop b) fun v => ?_
  dsimp only
  split
  · rename_i hrounds
    refine .bind (safe_modify fun _ hs => ⟨⟨hs.1.matched, fun frame hf => ?_⟩, hs.2⟩) fun _ =>
      safe_pure _
    rcases List.mem_cons.mp hf with rfl | hf
    · exact ⟨hrounds, truncate_lt _⟩
    · exact hs.1.running frame hf
  · cases close with
    -- A loop without rounds is passed over, which takes the index of its closing bracket.
    | none => exact absurd rfl hc
    | some close => exact safe_pure _

/-- A round that ends leaves the loop with the rounds that are left, or takes it away. -/
theorem steady_endRound (start here position : Nat) : Steady (endRound start here position) := by
  refine fun b => .get_bind fun s hs => ?_
  cases hloops : s.loops with
  | nil => exact safe_fail Fault.noConfusion s hs
  | cons frame outer =>
    obtain ⟨hpos, hlt⟩ : Running frame :=
      hs.1.running frame (by rw [hloops]; exact List.mem_cons_self)
    have houter : ∀ frame ∈ outer, Running frame := fun frame hf =>
      hs.1.running frame (by rw [hloops]; exact List.mem_cons_of_mem _ hf)
    -- A frame with rounds left can give one up without leaving the 64-bit range.
    have hholds : Word.holdsInt (frame.rounds - 1) = true := by
      unfold Word.intBound at hlt
      unfold Word.holdsInt Word.intBound
      rw [Bool.and_eq_true]
      exact ⟨decide_eq_true (by omega), decide_eq_true (by omega)⟩
    dsimp only
    rw [if_neg (not_not_intro hholds)]
    split
    · rename_i hleft
      refine ⟨⟨⟨hs.1.matched, fun f hf => ?_⟩, hs.2⟩, fun _ he => nomatch he⟩
      rcases List.mem_cons.mp hf with rfl | hf
      · exact ⟨hleft, by change frame.rounds - 1 < _; omega⟩
      · exact houter f hf
    · exact ⟨⟨⟨hs.1.matched, houter⟩, hs.2⟩, fun _ he => nomatch he⟩

/-- A token that does not wait keeps the machine good. -/
theorem steady_execute (here : Nat) {token : Token} (ht : token.op ≠ .repeatStart none) :
    Steady (execute here token) := by
  intro b
  unfold execute
  split
  · exact .bind (steady_push _ b) fun _ => safe_pure _
  · exact .bind (steady_command _ b) fun _ => safe_pure _
  · rename_i close hop
    refine steady_enterLoop _ (fun hclose => ht ?_) b
    rw [hop, hclose]
  · exact steady_endRound _ _ _ b
  · exact safe_pure _
  · exact .bind (steady_popFrom _ b) fun v => safe_pure _

/-! ## The calls -/

/-- A steady part is safe for a machine that does not wait. -/
theorem Steady.safe {α : Type} {act : Step α} (hact : Steady act) :
    Safe (fun s => s.Good ∧ waits s = none) (·.upset.Mild) act :=
  (hact false).congr fun s => by rw [waits, await_eq_none]

/-- A machine that waits goes on waiting. -/
theorem step_of_waiting (s : State) (kind : InputKind) (hw : waits s = some kind) :
    step s = ⟨.ok (.suspended kind), s, []⟩ := by
  obtain ⟨hs, rfl⟩ := await_eq_some.mp hw
  unfold step
  rw [get_bind_apply, hs]
  rfl

/-- One token says truly whether the machine waits after it. -/
theorem candid_step : Candid State.Good waits (·.upset.Mild) step := by
  refine .get_bind fun s hs hw => ?_
  rw [await_eq_none.mp hw, if_neg Bool.false_ne_true]
  split
  · exact candid_pure rfl
  · rename_i token htoken
    split
    · exact candid_await fun s hs => ⟨⟨hs.matched, hs.running⟩, rfl⟩
    · refine .bind (steady_execute _ (hs.matched token ?_)).safe fun index => ?_
      · obtain ⟨hlt, rfl⟩ := Array.getElem?_eq_some_iff.mp htoken
        exact Array.getElem_mem hlt
      · exact .bind (steady_goTo index).safe fun _ => candid_pure rfl

/-- A source is loaded, or it is refused and nothing is replaced. -/
theorem load_cases (source : String) (s : State) :
    (∃ s' effects, machine.load source s = ⟨.ok (), s', effects⟩ ∧ Matched s'.program) ∨
      ∃ fault, machine.load source s = ⟨.error (.fault fault), s, []⟩ := by
  change (∃ (s' : State) (effects : List Effect), (load source s).mapError _ = _ ∧
      Matched s'.program) ∨
    ∃ fault, (load source s).mapError _ = _
  unfold load
  cases ht : tokenize source.toList with
  | ok program => exact .inl ⟨_, _, rfl, tokenize_matched ht⟩
  | error bracket => exact .inr ⟨_, rfl⟩

/-- A reset ends every wait and every loop. -/
theorem reset_ready {s : State} (hs : Matched s.program) :
    (machine.reset s).Ready State.Good waits := by
  change ((reset s).mapError _).Ready _ _
  unfold reset
  rw [get_bind_apply]
  exact ⟨rfl, ⟨hs, fun _ hf => nomatch hf⟩, rfl⟩

/-- An input ends the wait for it. -/
theorem resume_apply (input : Input) {s : State} (hs : s.waiting = true) :
    ∃ (s' : State) (effects : List Effect), resume input s = ⟨.ok (), s', effects⟩ ∧
      s'.waiting = false ∧ s'.program = s.program ∧ s'.loops = s.loops := by
  unfold resume
  rw [get_bind_apply, hs]
  exact ⟨_, _, rfl, rfl, rfl, rfl⟩

/-- The token machine is lawful in every state in which its invariant holds. -/
theorem lawful : machine.Lawful State.Good waits := by
  intro s hs
  obtain ⟨hsafe, htells, hiff⟩ := candid_step.lawful_step step_of_waiting (fun _ he => he) hs
  refine ⟨fun source => Session.load_cases (load_cases source s) fun s hs => reset_ready hs,
    reset_ready hs.matched, hsafe, htells, hiff, fun input hw => ?_, fun source => ⟨none, rfl⟩,
    fun text => ⟨none, rfl⟩⟩
  obtain ⟨s', effects, hresume, hs', hprogram, hloops⟩ :=
    resume_apply input (await_eq_some.mp hw).1
  change Turn.Safe _ _ ((resume input s).mapError _)
  rw [hresume]
  exact ⟨⟨⟨hprogram ▸ hs.matched, hloops ▸ hs.running⟩, await_eq_none.mpr hs'⟩,
    fun _ he => nomatch he⟩

/-- The machine that the options choose is good and does not wait. -/
theorem build_good (options : Options) : (build options).Good ∧ waits (build options) = none :=
  ⟨⟨fun token ht => absurd ht (Array.not_mem_empty token), fun _ hf => nomatch hf⟩, rfl⟩

end EsotericHost.Element
