import EsotericHost.Proofs.Element.Tokens
import EsotericHost.Proofs.Host.Parts
import EsotericHost.Proofs.Machine.Element

/-!
# The frames of a token program

A counted loop that runs has a frame, and the end of a round is counted on the topmost one, whatever
loop it belongs to. `enclosing` lists the counted loops around an index by the tokens that open
them. Since loops nest, what a token does to the frames is what the way to the next token does to
this list (`Leads.framed`). So after any calls that follow a reset the frames are those of the loops
around the next token, and no round ends without one (`reached_enclosed`).
-/

namespace EsotericHost.Element

/-! ## The loops around an index -/

/-- Tokens whose brackets point to their partners, those that close a loop to an earlier one. -/
structure Braced (tokens : Array Token) : Prop extends Partnered tokens where
  backward : ∀ (kind : Loop) (i j : Nat), opAt tokens j = some (kind.closeOp i) → i < j

/-- The tokens of a text have their brackets in order. -/
theorem braced_of_tokenize {source : List Char} {tokens : Array Token}
    (h : tokenize source = .ok tokens) : Braced tokens := by
  obtain ⟨t, ht⟩ := tokenize_ok_iff.mp ⟨tokens, h⟩
  obtain rfl := Except.ok.inj (ht.tokenize.symm.trans h)
  refine ⟨t.partnered, fun kind i j hop => ?_⟩
  exact (Tree.bounds_of_mem_pairs ((Tree.opAt_closeOp_iff kind i j).mp hop)).2.1

/-- Whether a token opens a counted loop that contains an index: the token is before it, and its
partner is not. -/
def surrounds (tokens : Array Token) (i start : Nat) : Bool :=
  match opAt tokens start with
  | some (.repeatStart (some close)) => start < i && i ≤ close
  | _ => false

/-- The tokens that open the counted loops around an index, in their order. -/
def enclosing (tokens : Array Token) (i : Nat) : List Nat :=
  (List.range tokens.size).filter (surrounds tokens i)

/-- A counted loop around another one, by the tokens that open them. -/
def Around (tokens : Array Token) (outer inner : Nat) : Prop :=
  ∃ close close', opAt tokens outer = some (.repeatStart (some close)) ∧
    opAt tokens inner = some (.repeatStart (some close')) ∧ outer < inner ∧ close' < close

variable {tokens : Array Token} {i j start close : Nat}

/-- Where there is a token, its index is below the number of tokens. -/
theorem lt_size_of_opAt {op : Op} (h : opAt tokens i = some op) : i < tokens.size := by
  obtain ⟨token, htoken, -⟩ := Option.map_eq_some_iff.mp h
  exact (Array.getElem?_eq_some_iff.mp htoken).1

/-- A token surrounds an index if it opens a counted loop that begins before it and does not end
before it. -/
theorem surrounds_iff : surrounds tokens i start = true ↔
    ∃ close, opAt tokens start = some (.repeatStart (some close)) ∧ start < i ∧ i ≤ close := by
  unfold surrounds
  constructor
  · intro h
    split at h
    · rename_i close hop
      rw [Bool.and_eq_true, decide_eq_true_eq, decide_eq_true_eq] at h
      exact ⟨close, hop, h⟩
    · cases h
  · rintro ⟨close, hop, hlt, hle⟩
    rw [hop]
    exact Bool.and_eq_true_iff.mpr ⟨decide_eq_true hlt, decide_eq_true hle⟩

/-- The loops around an index are those whose opening token surrounds it. -/
theorem mem_enclosing : start ∈ enclosing tokens i ↔
    ∃ close, opAt tokens start = some (.repeatStart (some close)) ∧ start < i ∧ i ≤ close := by
  rw [enclosing, List.mem_filter, surrounds_iff, List.mem_range]
  exact and_iff_right_of_imp fun ⟨_, hop, _⟩ => lt_size_of_opAt hop

/-- A loop contains both of two indices or neither. -/
theorem surrounds_congr (h : ∀ close, opAt tokens start = some (.repeatStart (some close)) →
    (start < i ∧ i ≤ close ↔ start < j ∧ j ≤ close)) :
    surrounds tokens i start = surrounds tokens j start := by
  rw [Bool.eq_iff_iff, surrounds_iff, surrounds_iff]
  exact exists_congr fun close => and_congr_right (h close)

/-- Two indices are inside the same loops. -/
theorem enclosing_congr (h : ∀ start close, opAt tokens start = some (.repeatStart (some close)) →
    (start < i ∧ i ≤ close ↔ start < j ∧ j ≤ close)) : enclosing tokens i = enclosing tokens j :=
  List.filter_congr fun start _ => surrounds_congr (h start)

/-- Only loops that are opened before an index contain it. -/
theorem enclosing_eq (hi : i ≤ tokens.size) :
    enclosing tokens i = (List.range i).filter (surrounds tokens i) := by
  obtain ⟨n, hn⟩ := Nat.exists_eq_add_of_le hi
  have hrest : ((List.range n).map (i + ·)).filter (surrounds tokens i) = [] := by
    refine List.filter_eq_nil_iff.mpr fun start hstart hsurrounds => ?_
    obtain ⟨k, -, rfl⟩ := List.mem_map.mp hstart
    obtain ⟨_, -, hlt, -⟩ := surrounds_iff.mp hsurrounds
    omega
  rw [enclosing, hn, List.range_add, List.filter_append, hrest, List.append_nil]

/-- Behind the last token there is no loop around. -/
theorem enclosing_end (h : Braced tokens) (hi : tokens.size ≤ i) : enclosing tokens i = [] := by
  refine List.filter_eq_nil_iff.mpr fun start _ hsurrounds => ?_
  obtain ⟨close, hop, -, hle⟩ := surrounds_iff.mp hsurrounds
  have hclose := lt_size_of_opAt ((h.counted start close).mp hop)
  omega

/-- A plain token and the one after it are inside the same loops. -/
theorem enclosing_next (h : Braced tokens)
    (hstart : ∀ close, opAt tokens i ≠ some (.repeatStart (some close)))
    (hclose : ∀ start, opAt tokens i ≠ some (.repeatEnd start)) :
    enclosing tokens (i + 1) = enclosing tokens i := by
  refine enclosing_congr fun start close hop => ?_
  have hne : start ≠ i := fun heq => hstart close (heq ▸ hop)
  have hne' : close ≠ i := fun heq => hclose start (heq ▸ (h.counted start close).mp hop)
  omega

/-- A counted loop is one of two loops, or lies apart from the other. -/
theorem Braced.cases (h : Braced tokens) (kind : Loop)
    (hop : opAt tokens start = some (.repeatStart (some close)))
    (hloop : opAt tokens j = some (kind.closeOp i)) :
    start < close ∧ i < j ∧
      (start = i ∧ close = j ∨ Pair.Apart ⟨.counted, start, close⟩ ⟨kind, i, j⟩) := by
  have hclose : opAt tokens close = some (Loop.counted.closeOp start) :=
    (h.counted start close).mp hop
  refine ⟨h.backward _ _ _ hclose, h.backward _ _ _ hloop, ?_⟩
  by_cases hne : close = j
  · subst hne
    have hsame : kind.closeOp i = Loop.counted.closeOp start :=
      Option.some.inj (hloop.symm.trans hclose)
    cases kind with
    | counted => exact .inl ⟨(Op.repeatEnd.inj hsame).symm, rfl⟩
    | conditional => cases hsame
  · exact .inr (h.nested _ _ _ _ _ _ hclose hloop hne).2.2.2

/-- The first index inside a loop and the one of its closing bracket are inside the same loops. -/
theorem enclosing_round (h : Braced tokens) (kind : Loop)
    (hloop : opAt tokens j = some (kind.closeOp i)) :
    enclosing tokens (i + 1) = enclosing tokens j := by
  refine enclosing_congr fun start close hop => ?_
  obtain ⟨hlt, hlt', hsame | hapart⟩ := h.cases kind hop hloop
  · omega
  · unfold Pair.Apart at hapart
    dsimp only at hapart
    omega

/-- The opening bracket of a loop and the token behind its closing one are inside the same loops. -/
theorem enclosing_behind (h : Braced tokens) (kind : Loop)
    (hloop : opAt tokens j = some (kind.closeOp i)) :
    enclosing tokens (j + 1) = enclosing tokens i := by
  refine enclosing_congr fun start close hop => ?_
  obtain ⟨hlt, hlt', hsame | hapart⟩ := h.cases kind hop hloop
  · omega
  · unfold Pair.Apart at hapart
    dsimp only at hapart
    omega

/-- Behind its opening bracket a counted loop is the innermost one. -/
theorem enclosing_opening (h : Braced tokens)
    (hop : opAt tokens i = some (.repeatStart (some close))) :
    enclosing tokens (i + 1) = enclosing tokens i ++ [i] := by
  have hlt : i < close := h.backward .counted i close ((h.counted i close).mp hop)
  have hsize := lt_size_of_opAt hop
  have hhere : surrounds tokens (i + 1) i = true :=
    surrounds_iff.mpr ⟨close, hop, Nat.lt_succ_self i, hlt⟩
  -- Every other loop contains both indices or neither, since none is closed by this bracket.
  have hbefore : (List.range i).filter (surrounds tokens (i + 1)) =
      (List.range i).filter (surrounds tokens i) := by
    refine List.filter_congr fun start hstart => surrounds_congr fun close' hop' => ?_
    have hbelow := List.mem_range.mp hstart
    have hne : close' ≠ i := by
      rintro rfl
      cases hop.symm.trans ((h.counted start close').mp hop')
    omega
  rw [enclosing_eq hsize, enclosing_eq (Nat.le_of_lt hsize), List.range_succ, List.filter_append,
    hbefore, List.filter_cons_of_pos hhere, List.filter_nil]

/-- The loops around an index are listed from the outermost in. -/
theorem enclosing_nested (h : Braced tokens) (i : Nat) :
    (enclosing tokens i).Pairwise (Around tokens) := by
  have hsorted : (enclosing tokens i).Pairwise (· < ·) := List.pairwise_lt_range.filter _
  refine hsorted.imp_of_mem fun {outer inner} houter hinner hlt => ?_
  obtain ⟨close, hop, -, hle⟩ := mem_enclosing.mp houter
  obtain ⟨close', hop', hlt', -⟩ := mem_enclosing.mp hinner
  refine ⟨close, close', hop, hop', hlt, ?_⟩
  obtain ⟨-, -, hsame | hapart⟩ := h.cases .counted hop ((h.counted _ _).mp hop')
  · omega
  · unfold Pair.Apart at hapart
    dsimp only at hapart
    omega

/-! ## What a token does to the frames -/

/-- Where a token leads from its index, and what it does to the loops that run. -/
inductive Leads (here : Nat) : Op → List Frame → Nat → List Frame → Prop where
  | onward {op : Op} {loops : List Frame} (opens : ∀ close, op ≠ .repeatStart close)
    (closes : ∀ start, op ≠ .repeatEnd start) : Leads here op loops (here + 1) loops
  | back {start : Nat} {loops : List Frame} : Leads here (.whileEnd start) loops (start + 1) loops
  | enter {close : Option Nat} {loops : List Frame} (rounds : Int) :
    Leads here (.repeatStart close) loops (here + 1) (⟨here, rounds⟩ :: loops)
  | pass {close : Nat} {loops : List Frame} :
    Leads here (.repeatStart (some close)) loops (close + 1) loops
  | again {start : Nat} {frame : Frame} {outer : List Frame} (rounds : Int) :
    Leads here (.repeatEnd start) (frame :: outer) (start + 1) ({ frame with rounds } :: outer)
  | leave {start : Nat} {frame : Frame} {outer : List Frame} :
    Leads here (.repeatEnd start) (frame :: outer) (here + 1) outer

/-- The frames are those of the loops around an index. -/
def Frames (tokens : Array Token) (i : Nat) (loops : List Frame) : Prop :=
  loops.reverse.map Frame.start = enclosing tokens i

/-- A frame inside of others stands for the innermost loop around the index. -/
theorem frames_cons {frame : Frame} {outer : List Frame} : Frames tokens i (frame :: outer) ↔
    outer.reverse.map Frame.start ++ [frame.start] = enclosing tokens i := by
  rw [Frames, List.reverse_cons, List.map_append]
  rfl

/-- Where a token leads to, the frames are those of the loops around if they are so at the token. -/
theorem Leads.framed (h : Braced tokens) {here target : Nat} {op : Op} {loops loops' : List Frame}
    (hleads : Leads here op loops target loops') (hop : opAt tokens here = some op)
    (hframes : Frames tokens here loops) : Frames tokens target loops' := by
  cases hleads with
  | onward opens closes =>
    have hnext : enclosing tokens (here + 1) = enclosing tokens here :=
      enclosing_next h (fun close hc => opens _ (Option.some.inj (hop.symm.trans hc)))
        fun start hc => closes _ (Option.some.inj (hop.symm.trans hc))
    exact hframes.trans hnext.symm
  | @back start => exact hframes.trans (enclosing_round h .conditional hop).symm
  | @enter close =>
    cases close with
    | none => exact absurd hop (h.complete here)
    | some close =>
      rw [frames_cons, enclosing_opening h hop]
      exact congrArg (· ++ [here]) hframes
  | @pass close =>
    have hclose := (h.counted here close).mp hop
    exact hframes.trans (enclosing_behind h .counted hclose).symm
  | @again start frame outer rounds =>
    rw [frames_cons] at hframes ⊢
    exact hframes.trans (enclosing_round h .counted hop).symm
  | @leave start frame =>
    -- The topmost frame is that of this loop, since it is the innermost one around its end.
    rw [frames_cons, ← enclosing_round h .counted hop,
      enclosing_opening h ((h.counted start here).mpr hop)] at hframes
    have houter : loops'.reverse.map Frame.start = enclosing tokens start :=
      (List.append_inj' hframes rfl).1
    exact houter.trans (enclosing_behind h .counted hop).symm

/-- At the end of a counted loop there is a frame. -/
theorem Frames.ne_nil (h : Braced tokens) {loops : List Frame} (hframes : Frames tokens i loops)
    (hop : opAt tokens i = some (.repeatEnd start)) : loops ≠ [] := by
  rintro rfl
  rw [Frames, ← enclosing_round h .counted hop,
    enclosing_opening h ((h.counted start i).mpr hop)] at hframes
  exact List.append_ne_nil_of_right_ne_nil _ (List.cons_ne_nil _ _) hframes.symm

/-! ## Carrying a token out -/

/-- A failure other than the end of a round without a frame. -/
def Trouble.Other (e : Trouble) : Prop := ∀ position, e ≠ .noRunningLoop position

/-- Where a machine is: its program, the index of the next token, the loops that run, and whether it
waits. -/
def State.site (s : State) : Array Token × Nat × List Frame × Bool :=
  (s.program, s.next, s.loops, s.waiting)

/-- A part of a call that leaves a machine where it is and does not end a round. -/
abbrev Still {α : Type} (act : Step α) : Prop :=
  ∀ x, act.Safe (fun s => s.site = x) Trouble.Other

open Act

/-- A push leaves the machine where it is. -/
theorem still_pushOn (stack : Stack) (v : Value) : Still (pushOn stack v) := by
  refine fun x => .bind (safe_modify fun s hs => ?_) fun _ => safe_notify _
  cases stack <;> exact hs

/-- A pop leaves the machine where it is. -/
theorem still_popFrom (stack : Stack) : Still (popFrom stack) := by
  refine fun x => .bind safe_get fun s => ?_
  split
  · exact safe_fail fun _ => Trouble.noConfusion
  · refine .bind (safe_modify fun s hs => ?_) fun _ => .bind (safe_notify _) fun _ => safe_pure _
    cases stack <;> exact hs

/-- A basic part of a token that handles no loop leaves the machine where it is. -/
theorem still_basic {raises : Prop} {α : Type} {x : Step α} (hx : Basic raises False α x) :
    Still x := by
  intro site
  cases hx with
  | pushOn stack v => exact still_pushOn stack v site
  | popFrom stack => exact still_popFrom stack site
  | assign name v => exact .bind (safe_notify _) fun _ => safe_modify fun _ hs => hs
  | raise allowed depth =>
    refine .bind safe_get fun s => ?_
    split
    · exact safe_modify fun _ hs => hs
    · exact safe_fail fun _ => Trouble.noConfusion
  | frames allowed f => exact allowed.elim

/-- A command leaves the machine where it is. -/
theorem still_command (c : Command) : Still (command c) := by
  have hother : ∀ e, Trouble.Computing e → e.Other := by
    rintro _ (_ | _) <;> exact fun _ => Trouble.noConfusion
  exact fun x => ((assembled_command c).mono hother fun _ _ hx => hx).safe fun _ _ hx =>
    still_basic hx x

/-- What comes of carrying out a token from a state: the machine is led on, or it stays where it
is. -/
structure Carried (here : Nat) (op : Op) (s : State) (t : Turn Trouble State Nat) : Prop where
  program_eq : t.state.program = s.program
  next_eq : t.state.next = s.next
  waiting_eq : t.state.waiting = s.waiting
  leads : ∀ target, t.result = .ok target → Leads here op s.loops target t.state.loops
  stays : ∀ e, t.result = .error e → t.state.loops = s.loops
  /-- A round ends without a frame only at the end of a loop, if no loop runs. -/
  frameless : ∀ position, t.result = .error (.noRunningLoop position) →
    s.loops = [] ∧ ∃ start, op = .repeatEnd start

variable {here : Nat} {op : Op}

/-- A token that leaves the loops as they are leads where it says. -/
theorem carried_pure {s : State} {target : Nat} (h : Leads here op s.loops target s.loops) :
    Carried here op s ((pure target : Step Nat) s) :=
  ⟨rfl, rfl, rfl, fun _ ht => Except.ok.inj ht ▸ h, fun _ _ => rfl, fun _ ht => (nomatch ht)⟩

/-- A failure leads nowhere. -/
theorem carried_fail {s : State} {e : Trouble} (he : e.Other) :
    Carried here op s ((fail e : Step Nat) s) :=
  ⟨rfl, rfl, rfl, fun _ ht => (nomatch ht), fun _ _ => rfl,
    fun position ht => absurd (Except.error.inj ht) (he position)⟩

/-- Before a token leads on it may do what leaves the machine where it is. -/
theorem Still.carried {α : Type} {x : Step α} {f : α → Step Nat} (hx : Still x)
    (hf : ∀ a s, Carried here op s (f a s)) (s : State) : Carried here op s ((x >>= f) s) := by
  obtain ⟨hsite, hother⟩ := hx s.site s rfl
  obtain ⟨t, ht⟩ : ∃ t, x s = t := ⟨_, rfl⟩
  obtain ⟨result, s', effects⟩ := t
  rw [ht] at hsite hother
  simp only [State.site, Prod.mk.injEq] at hsite
  obtain ⟨hprogram, hnext, hloops, hwaiting⟩ := hsite
  cases result with
  | ok a =>
    have h := hf a s'
    rw [bind_of_ok ht]
    exact ⟨h.program_eq.trans hprogram, h.next_eq.trans hnext, h.waiting_eq.trans hwaiting,
      fun target ht => hloops ▸ h.leads target ht, fun e he => (h.stays e he).trans hloops,
      fun position he => hloops ▸ h.frameless position he⟩
  | error e =>
    rw [bind_of_error ht]
    exact ⟨hprogram, hnext, hwaiting, fun _ he => (nomatch he), fun _ _ => hloops,
      fun position he => absurd (Except.error.inj he) (hother e rfl position)⟩

/-- The bracket that opens a counted loop leads into its body with a new frame, or behind it. -/
theorem carried_enterLoop (here : Nat) (close : Option Nat) (s : State) :
    Carried here (.repeatStart close) s (enterLoop here close s) := by
  refine Still.carried (still_popFrom .main) (fun v s => ?_) s
  by_cases hrounds : 0 < Decimal.truncate v.toFloat
  · rw [if_pos hrounds]
    exact ⟨rfl, rfl, rfl, fun _ ht => Except.ok.inj ht ▸ .enter _, fun _ ht => (nomatch ht),
      fun _ ht => (nomatch ht)⟩
  · rw [if_neg hrounds]
    cases close with
    | some close => exact carried_pure .pass
    | none => exact carried_fail fun _ => Trouble.noConfusion

/-- The bracket that closes a counted loop leads back with its frame, or on without it. -/
theorem carried_endRound (start here position : Nat) (s : State) :
    Carried here (.repeatEnd start) s (endRound start here position s) := by
  unfold endRound
  rw [get_bind_apply]
  obtain ⟨loops, hloops⟩ : ∃ loops, s.loops = loops := ⟨_, rfl⟩
  rw [hloops]
  cases loops with
  | nil =>
    exact ⟨rfl, rfl, rfl, fun _ ht => (nomatch ht), fun _ _ => rfl, fun _ _ => ⟨hloops, start, rfl⟩⟩
  | cons frame outer =>
    dsimp only
    split
    · exact carried_fail fun _ => Trouble.noConfusion
    · split
      · refine ⟨rfl, rfl, rfl, fun _ ht => ?_, fun _ ht => (nomatch ht), fun _ ht => (nomatch ht)⟩
        rw [hloops, ← Except.ok.inj ht]
        exact .again _
      · refine ⟨rfl, rfl, rfl, fun _ ht => ?_, fun _ ht => (nomatch ht), fun _ ht => (nomatch ht)⟩
        rw [hloops, ← Except.ok.inj ht]
        exact .leave

/-- Every token leads where it should, or fails and leads nowhere. -/
theorem carried_execute (here : Nat) (token : Token) (s : State) :
    Carried here token.op s (execute here token s) := by
  obtain ⟨position, op⟩ := token
  have honward (hopens : ∀ close, op ≠ .repeatStart close)
      (hcloses : ∀ start, op ≠ .repeatEnd start) (s : State) :
      Carried here op s ((pure (here + 1) : Step Nat) s) :=
    carried_pure (.onward hopens hcloses)
  cases op with
  | word text =>
    have hgoOn := honward (fun _ => Op.noConfusion) fun _ => Op.noConfusion
    exact Still.carried (still_pushOn .main _) (fun _ => hgoOn) s
  | command c =>
    have hgoOn := honward (fun _ => Op.noConfusion) fun _ => Op.noConfusion
    exact Still.carried (still_command c) (fun _ => hgoOn) s
  | repeatStart close => exact carried_enterLoop here close s
  | repeatEnd start => exact carried_endRound start here position s
  | whileStart => exact honward (fun _ => Op.noConfusion) (fun _ => Op.noConfusion) s
  | whileEnd start =>
    have hgoOn := honward (fun _ => Op.noConfusion) fun _ => Op.noConfusion
    refine Still.carried (still_popFrom .control) (fun v s => ?_) s
    cases v.truthy with
    | true => exact carried_pure .back
    | false => exact hgoOn s

/-! ## The calls -/

/-- A machine whose frames are those of the loops around the next token, and which waits only at a
command that asks for input. -/
structure State.Framed (tokens : Array Token) (s : State) : Prop where
  program_eq : s.program = tokens
  frames : Frames tokens s.next s.loops
  asks : s.waiting = true → opAt tokens s.next = some (.command .input)

variable {s : State}

/-- A reset leaves no frame, and goes to a token that no loop is around. -/
theorem framed_reset (hs : s.program = tokens) : (reset s).state.Framed tokens := by
  refine ⟨hs, ?_, fun hw => nomatch hw⟩
  refine (List.filter_eq_nil_iff.mpr fun start _ hsurrounds => ?_).symm
  obtain ⟨_, -, hlt, -⟩ := surrounds_iff.mp hsurrounds
  exact Nat.not_lt_zero start hlt

/-- A token that is carried out keeps the frames those of the loops around, and no round ends
without a frame. -/
theorem framed_execute (h : Braced tokens) (hs : s.Framed tokens) (hw : s.waiting = false)
    {token : Token} (hop : opAt tokens s.next = some token.op) :
    ((execute s.next token >>= fun index => goTo index >>= fun _ => pure Outcome.progressed) s).Safe
      (State.Framed tokens) Trouble.Other := by
  have hcarried := carried_execute s.next token s
  obtain ⟨t, ht⟩ : ∃ t, execute s.next token s = t := ⟨_, rfl⟩
  obtain ⟨result, s', effects⟩ := t
  rw [ht] at hcarried
  have hprogram : s'.program = tokens := hcarried.program_eq.trans hs.program_eq
  have hwaits : s'.waiting ≠ true := by
    rw [show s'.waiting = false from hcarried.waiting_eq.trans hw]
    exact Bool.false_ne_true
  cases result with
  | ok target =>
    have hframes := (hcarried.leads target rfl).framed h hop hs.frames
    rw [bind_of_ok ht]
    exact .of_ok rfl ⟨hprogram, hframes, fun hwaiting => absurd hwaiting hwaits⟩
  | error e =>
    have hloops : s'.loops = s.loops := hcarried.stays e rfl
    have hnext : s'.next = s.next := hcarried.next_eq
    have hframes : Frames tokens s'.next s'.loops := by
      rw [hloops, hnext]
      exact hs.frames
    rw [bind_of_error ht]
    refine ⟨⟨hprogram, hframes, fun hwaiting => absurd hwaiting hwaits⟩, ?_⟩
    -- A round that ends without a frame does so at the end of a loop, where there is one.
    rintro _ ⟨⟩ position rfl
    obtain ⟨hnil, start, hend⟩ := hcarried.frameless position rfl
    exact hs.frames.ne_nil h (hend ▸ hop) hnil

/-- A step keeps the frames those of the loops around the next token. -/
theorem framed_step (h : Braced tokens) : Safe (State.Framed tokens) Trouble.Other step := by
  refine .get_bind fun s hs => ?_
  cases hw : s.waiting with
  | true => exact .of_ok rfl hs
  | false =>
    cases htoken : s.program[s.next]? with
    | none => exact .of_ok rfl hs
    | some token =>
      have hop : opAt tokens s.next = some token.op := by
        rw [opAt, ← hs.program_eq, htoken]
        rfl
      by_cases hinput : token.op = .command .input
      · rw [if_neg Bool.false_ne_true]
        dsimp only
        rw [if_pos hinput]
        exact .of_ok rfl ⟨hs.program_eq, hs.frames, fun _ => hinput ▸ hop⟩
      · rw [if_neg Bool.false_ne_true]
        dsimp only
        rw [if_neg hinput]
        exact framed_execute h hs hw hop

/-- An input moves on from the command that asked for it. -/
theorem framed_resume (h : Braced tokens) (input : Input) :
    Safe (State.Framed tokens) Trouble.Other (resume input) := by
  refine .get_bind fun s hs => ?_
  cases hw : s.waiting with
  | false => exact safe_fail (fun _ => Trouble.noConfusion) s hs
  | true =>
    have hop := hs.asks hw
    have hnext : enclosing tokens (s.next + 1) = enclosing tokens s.next :=
      enclosing_next h (fun _ hc => nomatch hop.symm.trans hc) fun _ hc => nomatch hop.symm.trans hc
    exact .of_ok rfl ⟨hs.program_eq, hs.frames.trans hnext.symm, fun hwaits => nomatch hwaits⟩

/-- The states that a machine comes to from a reset of a program by steps, runs, inputs and resets
in any order, whatever comes of them. -/
inductive Reached (tokens : Array Token) : State → Prop where
  | reset {s : State} (program_eq : s.program = tokens) : Reached tokens (machine.reset s).state
  | stepped {s : State} (before : Reached tokens s) : Reached tokens (machine.step s).state
  | ran {s s' : Session State} {bound : Nat} {budget budget' : Budget} {out out' : Transcript}
    {answer : Except Upset Outcome} (before : Reached tokens s.state)
    (run : s.run machine bound budget out = some (answer, budget', s', out')) :
    Reached tokens s'.state
  | resumed {s : State} (before : Reached tokens s) (input : Input) :
    Reached tokens (machine.resume input s).state

/-- Whatever has been called since a reset, the frames are those of the loops around the next token.
-/
theorem Reached.framed (h : Braced tokens) (hs : Reached tokens s) : s.Framed tokens := by
  induction hs with
  | reset program_eq => exact framed_reset program_eq
  | stepped _ ih => exact (framed_step h _ ih).1
  | ran _ run ih =>
    obtain ⟨last, _, hlast, rfl, -, -⟩ := Session.run_ends
      (P := fun x _ => x.state.Framed tokens) run ih fun x _ hx => (framed_step h _ hx).1
    exact (framed_step h _ hlast).1
  | resumed _ input ih => exact (framed_resume h input _ ih).1

/-- Whatever has been called since a reset, the state is good. -/
theorem Reached.good (hmatched : Matched tokens) (hs : Reached tokens s) : s.Good := by
  induction hs with
  | reset program_eq => exact (reset_ready (program_eq ▸ hmatched)).2.1
  | stepped _ ih => exact (lawful _ ih).step_safe.1
  | ran _ run ih =>
    obtain ⟨last, _, hlast, rfl, -, -⟩ := Session.run_ends
      (P := fun x _ => x.state.Good) run ih fun x _ hx => (lawful _ hx).step_safe.1
    exact (lawful _ hlast).step_safe.1
  | @resumed s _ input ih =>
    cases hw : s.waiting with
    | false =>
      change (resume input s).state.Good
      unfold resume
      rw [get_bind_apply, hw]
      exact ih
    | true =>
      obtain ⟨s', _, hresume, -, hprogram, hloops⟩ := resume_apply input hw
      change (resume input s).state.Good
      rw [hresume]
      exact ⟨hprogram ▸ ih.matched, hloops ▸ ih.running⟩

/-- Of all failures only the end of a round without a frame is worded as that. -/
theorem upset_ne_of_other {e : Trouble} (he : e.Other) (n : Nat) :
    e.upset ≠ (Trouble.noRunningLoop n).upset := by
  intro h
  cases e with
  | noRunningLoop position => exact he position rfl
  | undefinedVariable name place | divisionByZero place =>
    have htext := congrArg String.toList (Fault.runtime.inj (Upset.fault.inj h))
    simp only [String.toList_append] at htext
    cases congrArg List.head? htext
  | _ => cases h

/-- A call whose failures are none of them the end of a round without a frame does not answer with
that. -/
theorem result_ne_of_safe {α : Type} {P : State → Prop} {act : Step α}
    (hact : act.Safe P Trouble.Other) {s : State} (hs : P s) (n : Nat) :
    (act.asCall Trouble.upset s).result ≠ .error (Trouble.noRunningLoop n).upset := by
  intro hresult
  have hsafe : ((act s).mapError Trouble.upset).Safe P (· ≠ (Trouble.noRunningLoop n).upset) :=
    (hact s hs).mapError fun _ he => upset_ne_of_other he n
  exact hsafe.2 _ hresult rfl

/-- The frames of a machine are those of the loops around its next token, and no call fails for
want of one. -/
structure Enclosed (tokens : Array Token) (s : State) : Prop where
  /-- From the bottom of the stack up, a frame has the index of the token that opens its loop. -/
  starts_eq : s.loops.reverse.map Frame.start = enclosing tokens s.next
  /-- These are the counted loops that are opened before the next token and not closed before it. -/
  mem_iff : ∀ start, start ∈ enclosing tokens s.next ↔
    ∃ close, opAt tokens start = some (.repeatStart (some close)) ∧
      opAt tokens close = some (.repeatEnd start) ∧ start < s.next ∧ s.next ≤ close
  /-- They are listed from the outermost in. -/
  nested : (enclosing tokens s.next).Pairwise (Around tokens)
  rounds_pos : ∀ frame ∈ s.loops, 1 ≤ frame.rounds
  ended : tokens.size ≤ s.next → s.loops = []
  step_ne : ∀ n, (machine.step s).result ≠ .error (Trouble.noRunningLoop n).upset
  resume_ne : ∀ input n,
    (machine.resume input s).result ≠ .error (Trouble.noRunningLoop n).upset
  reset_ne : ∀ n, (machine.reset s).result ≠ .error (Trouble.noRunningLoop n).upset
  run_ne : ∀ (x : Session State) bound budget out, x.state = s →
    ∀ answer budget' x' out', x.run machine bound budget out = some (answer, budget', x', out') →
      ∀ n, answer ≠ .error (Trouble.noRunningLoop n).upset

/-- **The frames are those of the loops around.** Whatever steps, runs, inputs and resets a machine
has had since its program was reset, whether they failed or not, its frames are those of the counted
loops that contain the index of the next token, from the outermost in, and each has a round left.
So there is none behind the last token, and the end of a loop never lacks one. -/
theorem reached_enclosed {source : String} (ht : tokenize source.toList = .ok tokens)
    (hs : Reached tokens s) : Enclosed tokens s := by
  have h := braced_of_tokenize ht
  have hmatched := tokenize_matched ht
  have hframed := hs.framed h
  have hgood := hs.good hmatched
  exact {
    starts_eq := hframed.frames
    mem_iff := fun start => mem_enclosing.trans <| exists_congr fun close =>
      and_congr_right fun hop => (and_iff_right ((h.counted start close).mp hop)).symm
    nested := enclosing_nested h s.next
    rounds_pos := fun frame hframe => (hgood.running frame hframe).1
    ended := fun hend => by
      have hstarts : s.loops.reverse.map Frame.start = [] :=
        hframed.frames.trans (enclosing_end h hend)
      exact List.reverse_eq_nil_iff.mp (List.map_eq_nil_iff.mp hstarts)
    step_ne := fun n => result_ne_of_safe (framed_step h) hframed n
    resume_ne := fun input n => result_ne_of_safe (framed_resume h input) hframed n
    reset_ne := fun n hresult => by
      rw [(reset_ready hgood.matched).1] at hresult
      cases hresult
    run_ne := fun x bound budget out hx answer budget' x' out' hrun n hanswer => by
      obtain ⟨last, _, hlast, -, -, hresult | ⟨-, limit, hlimit⟩⟩ := Session.run_ends
        (P := fun x _ => x.state.Framed tokens) hrun (hx ▸ hframed)
        fun x _ hx => (framed_step h _ hx).1
      · exact result_ne_of_safe (framed_step h) hlast n (hresult.symm.trans hanswer)
      · rw [hlimit] at hanswer
        cases hanswer }

/-- A machine that waits inside a loop of three rounds, inside a conditional one, inside one of two
rounds. -/
theorem reached_enclosed_waiting :
    ∃ tokens s, tokenize "2[\x7b3[_]\x7d]".toList = .ok tokens ∧ Reached tokens s ∧
      s.waiting = true ∧ s.loops = [⟨4, 3⟩, ⟨1, 2⟩] ∧ enclosing tokens s.next = [1, 4] := by
  obtain ⟨x, hx⟩ : ∃ x : Session State, x = ⟨name, ⟨[]⟩, ⟨true, true, false, false⟩, false,
      (Session.load machine "2[\x7b3[_]\x7d]" (build ⟨[]⟩)).state⟩ := ⟨_, rfl⟩
  obtain ⟨tokens, ht⟩ : ∃ tokens, tokenize "2[\x7b3[_]\x7d]".toList = .ok tokens := ⟨_, rfl⟩
  have hstart : Reached tokens x.state := by
    rw [hx]
    refine .reset (s := (machine.load "2[\x7b3[_]\x7d]" (build ⟨[]⟩)).state) ?_
    exact Except.ok.inj ht
  -- The run of six steps ends with the one that asks for input.
  have hleft : (x.run machine 6 (.fresh none) #[]).map
      (fun run => (run.2.2.1.state.loops, run.2.2.1.state.waiting)) =
        some ([⟨4, 3⟩, ⟨1, 2⟩], true) := by
    rw [hx]
    decide +kernel
  obtain ⟨⟨answer, budget, x', out⟩, hrun, hstate⟩ := Option.map_eq_some_iff.mp hleft
  have hreached := hstart.ran hrun
  have hloops : x'.state.loops = [⟨4, 3⟩, ⟨1, 2⟩] := congrArg Prod.fst hstate
  have hwaiting : x'.state.waiting = true := congrArg Prod.snd hstate
  have hstarts := (reached_enclosed ht hreached).starts_eq
  rw [hloops] at hstarts
  exact ⟨tokens, x'.state, ht, hreached, hwaiting, hloops, hstarts.symm⟩

end EsotericHost.Element
