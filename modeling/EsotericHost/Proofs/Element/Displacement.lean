import EsotericHost.Proofs.Element.Code
import EsotericHost.Proofs.Machine.Likeness
import EsotericHost.Proofs.Rewinding.Machines
import EsotericHost.Proofs.Text.Endings

/-!
# Token programs with displaced tokens

Where its tokens stand in the source matters to the token machine only to show where it is and to
say where it failed. So machines whose programs have the same operations do the like, step by step
and input by input (`likens`).

Blank characters count for nothing but that they end words. A source whose lines end in another way
is read to the same operations, or lacks the partner of the same bracket
(`tokenize_withReturns`).
-/

namespace EsotericHost.Element

/-! ## Likeness -/

/-- Two places that are both at a token or both at the end of the program. -/
inductive Place.Like : Place → Place → Prop where
  | position (n n' : Nat) : Like (.position n) (.position n')
  | ending : Like .ending .ending

/-- Brackets of one kind without a partner. -/
inductive Unmatched.Like : Unmatched → Unmatched → Prop where
  | displaced (bracket : Char) (n n' : Nat) : Like ⟨bracket, n⟩ ⟨bracket, n'⟩

/-- Failures that differ at most in the place that they mention. -/
inductive Trouble.Like : Trouble → Trouble → Prop where
  | same (trouble : Trouble) : Like trouble trouble
  | unmatched {bracket bracket' : Unmatched} (h : bracket.Like bracket') :
    Like (.unmatched bracket) (.unmatched bracket')
  | underflow {place place' : Place} (h : place.Like place') (stack : Stack) :
    Like (.underflow place stack) (.underflow place' stack)
  | tooDeep {place place' : Place} (h : place.Like place') (depth : Nat) :
    Like (.tooDeep place depth) (.tooDeep place' depth)
  | undefinedVariable (name : String) {place place' : Place} (h : place.Like place') :
    Like (.undefinedVariable name place) (.undefinedVariable name place')
  | divisionByZero {place place' : Place} (h : place.Like place') :
    Like (.divisionByZero place) (.divisionByZero place')
  | noRunningLoop (n n' : Nat) : Like (.noRunningLoop n) (.noRunningLoop n')

/-- Failures that are worded alike, but for the place that they may mention. -/
inductive Displaced : Upset → Upset → Prop where
  | same (upset : Upset) : Displaced upset upset
  | worded {trouble trouble' : Trouble} (h : trouble.Like trouble') :
    Displaced trouble.upset trouble'.upset

/-- The operations of a program without their places in the source. -/
def ops (tokens : Array Token) : Array Op := tokens.map (·.op)

/-- Machines that differ at most in the places of their tokens in the source. -/
structure State.Like (s s' : State) : Prop where
  autovivification_eq : s.autovivification = s'.autovivification
  ops_eq : ops s.program = ops s'.program
  next_eq : s.next = s'.next
  main_eq : s.main = s'.main
  control_eq : s.control = s'.control
  bindings_eq : s.bindings = s'.bindings
  loops_eq : s.loops = s'.loops
  waiting_eq : s.waiting = s'.waiting

/-! ## Scans -/

namespace Scan

/-- Scans that have read the same operations, have the same brackets waiting and are in the same
word. -/
structure Like (scan scan' : Scan) : Prop where
  ops_eq : ops scan.tokens = ops scan'.tokens
  opened_eq : scan.opened.map (fun bracket => (bracket.index, bracket.loop)) =
    scan'.opened.map fun bracket => (bracket.index, bracket.loop)
  word_eq : scan.word.map Prod.snd = scan'.word.map Prod.snd

variable {scan scan' : Scan} {n n' : Nat}

/-- Scans that are alike have read as many operations. -/
theorem Like.size_eq (h : scan.Like scan') : scan.tokens.size = scan'.tokens.size := by
  have hsize := congrArg Array.size h.ops_eq
  simpa only [ops, Array.size_map] using hsize

/-- The same operation keeps scans alike, wherever it stands. -/
theorem Like.push (h : scan.Like scan') (n n' : Nat) (op : Op) :
    (scan.push n op).Like (scan'.push n' op) where
  ops_eq := by
    have hops : scan.tokens.map (·.op) = scan'.tokens.map (·.op) := h.ops_eq
    simp only [Scan.push, ops, Array.map_push, hops]
  opened_eq := h.opened_eq
  word_eq := h.word_eq

/-- The end of a word keeps scans alike. -/
theorem Like.endWord (h : scan.Like scan') : scan.endWord.Like scan'.endWord := by
  unfold Scan.endWord
  obtain ⟨hw, hw'⟩ | ⟨read, read', hw, hw', hletters⟩ := cases_of_map_eq h.word_eq
  · rw [hw, hw']
    exact h
  · rw [hw, hw']
    dsimp only
    rw [← hletters]
    have hpush := h.push read.1 read'.1 (.word read.2.reverse)
    exact ⟨hpush.ops_eq, hpush.opened_eq, rfl⟩

/-- A bracket that opens a loop keeps scans alike. -/
theorem Like.openLoop (h : scan.Like scan') (loop : Loop) :
    (scan.openLoop n loop).Like (scan'.openLoop n' loop) where
  ops_eq := by
    have hops : scan.tokens.map (·.op) = scan'.tokens.map (·.op) := h.ops_eq
    simp only [Scan.openLoop, ops, Array.map_push, hops]
  opened_eq := by
    simp only [Scan.openLoop, List.map_cons, h.opened_eq, h.size_eq]
  word_eq := h.word_eq

/-- Two results of reading on: like scans, or complaints of one bracket. -/
inductive Results : Except Unmatched Scan → Except Unmatched Scan → Prop where
  | ok {scan scan' : Scan} (h : scan.Like scan') : Results (.ok scan) (.ok scan')
  | error {bracket bracket' : Unmatched} (h : bracket.Like bracket') :
    Results (.error bracket) (.error bracket')

/-- A closing bracket without a bracket of its kind that waits innermost is complained of. -/
theorem closeLoop_of_ne {kind : Loop} (h : ∀ bracket ∈ scan.opened.head?, bracket.loop ≠ kind) :
    scan.closeLoop n kind = .error ⟨kind.closer, n⟩ := by
  unfold closeLoop
  split
  · rfl
  · rename_i partner outer hopened
    rw [hopened] at h
    rw [if_pos (h partner rfl)]

/-- What a closing bracket makes of a scan in which its partner waits innermost. -/
theorem closeLoop_of_cons {partner : Opened} {outer : List Opened}
    (h : scan.opened = partner :: outer) :
    ∃ closed, scan.closeLoop n partner.loop = .ok closed ∧ closed.opened = outer ∧
      closed.word = scan.word ∧
      ops closed.tokens =
        (match partner.loop with
          | .counted =>
            (ops scan.tokens).setIfInBounds partner.index (.repeatStart (some scan.tokens.size))
          | .conditional => ops scan.tokens).push (partner.loop.closeOp partner.index) := by
  unfold closeLoop
  split
  · rename_i hopened
    rw [h] at hopened
    cases hopened
  · rename_i hopened
    rw [h] at hopened
    cases hopened
    rw [if_neg (not_not_intro rfl)]
    have hlt : partner.index < (ops scan.tokens).size := by
      rw [ops, Array.size_map]
      exact scan.opened_lt _ (by rw [h]; exact List.mem_cons_self)
    cases partner.loop with
    | counted =>
      refine ⟨_, rfl, rfl, rfl, ?_⟩
      dsimp only
      rw [Array.setIfInBounds, dif_pos hlt]
      simp only [Scan.push, ops, Array.map_push, Array.map_set, Loop.closeOp]
    | conditional =>
      refine ⟨_, rfl, rfl, rfl, ?_⟩
      simp only [Scan.push, ops, Array.map_push, Loop.closeOp]

/-- A bracket that closes a loop finds its partner in both of like scans, or in neither. -/
theorem Like.closeLoop (h : scan.Like scan') (kind : Loop) :
    Results (scan.closeLoop n kind) (scan'.closeLoop n' kind) := by
  have hopened := h.opened_eq
  cases ho : scan.opened with
  | nil =>
    rw [ho, List.map_nil] at hopened
    have ho' : scan'.opened = [] := List.map_eq_nil_iff.mp hopened.symm
    rw [closeLoop_of_ne (by rw [ho]; exact fun _ hb => nomatch hb),
      closeLoop_of_ne (by rw [ho']; exact fun _ hb => nomatch hb)]
    exact .error (.displaced _ _ _)
  | cons partner outer =>
    rw [ho, List.map_cons] at hopened
    obtain ⟨partner', outer', ho', hpartner, houter⟩ := List.map_eq_cons_iff.mp hopened.symm
    obtain ⟨hindex, hloop⟩ := Prod.mk.inj hpartner
    by_cases hkind : partner.loop = kind
    · subst hkind
      obtain ⟨closed, hclosed, hrest, hword, hops⟩ := closeLoop_of_cons ho (n := n)
      obtain ⟨closed', hclosed', hrest', hword', hops'⟩ := closeLoop_of_cons ho' (n := n')
      rw [hloop] at hclosed' hops'
      rw [hclosed, hclosed']
      refine .ok ⟨?_, ?_, ?_⟩
      · rw [hops, hops', h.ops_eq, h.size_eq, hindex]
      · rw [hrest, hrest', houter]
      · rw [hword, hword', h.word_eq]
    · have hne : ∀ bracket ∈ scan.opened.head?, bracket.loop ≠ kind := by
        rw [ho]
        exact fun _ hb => Option.some.inj hb ▸ hkind
      have hne' : ∀ bracket ∈ scan'.opened.head?, bracket.loop ≠ kind := by
        rw [ho']
        exact fun _ hb => Option.some.inj hb ▸ hloop ▸ hkind
      rw [closeLoop_of_ne hne, closeLoop_of_ne hne']
      exact .error (.displaced _ _ _)

/-- Like scans read the same character to like scans, or complain of it alike. -/
theorem Like.next (h : scan.Like scan') (n n' : Nat) (c : Char) :
    Results (scan.next n c) (scan'.next n' c) := by
  unfold Scan.next
  cases Class.of c with
  | blank => exact .ok h.endWord
  | command k => exact .ok (h.endWord.push n n' _)
  | opening loop => exact .ok (h.endWord.openLoop loop)
  | closing loop => exact h.endWord.closeLoop loop
  | letter =>
    dsimp only
    obtain ⟨hw, hw'⟩ | ⟨read, read', hw, hw', hletters⟩ := cases_of_map_eq h.word_eq
    · rw [hw, hw']
      exact .ok ⟨h.ops_eq, h.opened_eq, rfl⟩
    · rw [hw, hw']
      refine .ok ⟨h.ops_eq, h.opened_eq, ?_⟩
      dsimp only [Option.map_some]
      rw [hletters]

/-- A blank character ends a word, if there is one. -/
theorem read_of_blank {c : Char} (hc : Class.of c = .blank) (cs : List Char) :
    scan.read n (c :: cs) = scan.endWord.read (n + 1) cs := by
  rw [read, next, hc]

/-- Read with other line endings, like scans read on to the same operations, or complain of the same
bracket. -/
theorem Like.read (h : scan.Like scan') (cs : List Char) :
    Agree Unmatched.Like ((scan.read n cs).map ops)
      ((scan'.read n' (Text.withReturns cs)).map ops) := by
  induction cs generalizing scan scan' n n' with
  | nil =>
    have hopened := h.opened_eq
    change Agree _ ((scan.read n []).map ops) ((scan'.read n' []).map ops)
    unfold Scan.read
    cases ho : scan.opened with
    | nil =>
      rw [ho, List.map_nil] at hopened
      rw [List.map_eq_nil_iff.mp hopened.symm]
      dsimp only [Except.map]
      rw [h.endWord.ops_eq]
      exact .ok _
    | cons bracket outer =>
      rw [ho, List.map_cons] at hopened
      obtain ⟨bracket', outer', ho', hbracket, -⟩ := List.map_eq_cons_iff.mp hopened.symm
      rw [ho']
      dsimp only [Except.map]
      rw [(Prod.mk.inj hbracket).2]
      exact .error (.displaced _ _ _)
  | cons c cs ih =>
    by_cases hc : c = '\n'
    · -- A second blank character ends no other word.
      subst hc
      have hreturn : Class.of '\r' = .blank := by decide
      have hfeed : Class.of '\n' = .blank := by decide
      have htwice : scan'.endWord.endWord = scan'.endWord := endWord_of_none word_endWord
      rw [Text.withReturns_cons_lineFeed, read_of_blank hfeed, read_of_blank hreturn,
        read_of_blank hfeed, htwice]
      exact ih h.endWord
    · rw [Text.withReturns_cons hc, Scan.read, Scan.read]
      have hnext := h.next n n' c
      generalize scan.next n c = result at hnext
      generalize scan'.next n' c = result' at hnext
      cases hnext with
      | ok h => exact ih h
      | error h => exact .error h

end Scan

/-- With other line endings a source has the same operations, or lacks the partner of the same
bracket. -/
theorem tokenize_withReturns (cs : List Char) :
    Agree Unmatched.Like ((tokenize cs).map ops) ((tokenize (Text.withReturns cs)).map ops) := by
  have hstart : Scan.start.Like Scan.start := ⟨rfl, rfl, rfl⟩
  exact hstart.read cs

/-! ## Calls -/

variable {s s' : State}

/-- A machine that is like another one is that machine with another program. -/
theorem State.Like.exists_program (h : s.Like s') :
    ∃ program, ops s.program = ops program ∧ s' = { s with program } := by
  refine ⟨s'.program, h.ops_eq, ?_⟩
  obtain ⟨hautovivification, -, hnext, hmain, hcontrol, hbindings, hloops, hwaiting⟩ := h
  cases s
  cases s'
  cases hautovivification
  cases hnext
  cases hmain
  cases hcontrol
  cases hbindings
  cases hloops
  cases hwaiting
  rfl

/-- Programs with the same operations make like machines. -/
theorem like_with (s : State) {program : Array Token} (h : ops s.program = ops program) :
    s.Like { s with program } :=
  ⟨rfl, h, rfl, rfl, rfl, rfl, rfl, rfl⟩

/-- A machine is like itself. -/
theorem State.Like.refl (s : State) : s.Like s := like_with s rfl

/-- Like machines have the same stacks. -/
theorem State.Like.stack_eq (h : s.Like s') (stack : Stack) : s.stack stack = s'.stack stack := by
  cases stack with
  | main => exact h.main_eq
  | control => exact h.control_eq

/-- Like machines stay so when the same is put on a stack. -/
theorem State.Like.withStack (h : s.Like s') (stack : Stack) (values : List Value) :
    (s.withStack stack values).Like (s'.withStack stack values) := by
  obtain ⟨program, hops, rfl⟩ := h.exists_program
  cases stack with
  | main => exact like_with { s with main := values } hops
  | control => exact like_with { s with control := values } hops

/-- Like machines have come to the same operation, or both to the end. -/
theorem State.Like.op_eq (h : s.Like s') :
    s.program[s.next]?.map (·.op) = s'.program[s'.next]?.map (·.op) := by
  have hget := congrArg (fun row : Array Op => row[s.next]?) h.ops_eq
  rw [← h.next_eq]
  simpa only [ops, Array.getElem?_map] using hget

/-- Like machines are both at a token, or both at the end. -/
theorem State.Like.place (h : s.Like s') : s.place.Like s'.place := by
  unfold State.place
  obtain ⟨hhere, hthere⟩ | ⟨token, token', hhere, hthere, -⟩ := cases_of_map_eq h.op_eq
  · rw [hhere, hthere]
    exact .ending
  · rw [hhere, hthere]
    exact .position _ _

/-- A part of a call that does the like wherever the tokens stand in the source. -/
abbrev Indifferent {α : Type} (act : Step α) : Prop := act.Like State.Like Trouble.Like act

open Act

/-- A push is indifferent to the places. -/
theorem indifferent_pushOn (stack : Stack) (v : Value) : Indifferent (pushOn stack v) := by
  refine .bind (like_modify fun s s' h => ?_) fun _ => like_notify _ _
  rw [h.stack_eq stack]
  exact h.withStack stack _

/-- A pop is indifferent to them, also where it fails and mentions one. -/
theorem indifferent_popFrom (stack : Stack) : Indifferent (popFrom stack) := by
  refine .get_bind fun s s' h => ?_
  rw [← h.stack_eq stack]
  cases s.stack stack with
  | nil => exact like_fail (.underflow h.place stack) s s' h
  | cons v rest =>
    refine Like.bind (like_modify fun s s' h => ?_)
      (fun _ => .bind (like_notify _ _) fun _ => like_pure v) s s' h
    exact h.withStack stack rest

/-- A push on the main stack is indifferent to the places. -/
theorem indifferent_push (v : Value) : Indifferent (push v) := indifferent_pushOn .main v

/-- A pop of the main stack is indifferent to them. -/
theorem indifferent_pop : Indifferent pop := indifferent_popFrom .main

/-- Copies are pushed wherever the tokens stand. -/
theorem indifferent_pushCopies (v : Value) (n : Nat) : Indifferent (pushCopies v n) := by
  induction n with
  | zero => exact like_pure ()
  | succ n ih => exact .bind (indifferent_push v) fun _ => ih

/-- Where the next token stands is told to a client that watches, and printed nowhere. -/
theorem indifferent_goTo (index : Nat) : Indifferent (goTo index) := by
  refine .bind (like_modify fun s s' h => ?_) fun _ =>
    .get_bind fun s s' h => like_notify _ _ s s' h
  obtain ⟨program, hops, rfl⟩ := h.exists_program
  exact like_with { s with next := index } hops

/-- A variable is given its value wherever the tokens stand. -/
theorem indifferent_assign (name : String) (v : Value) : Indifferent (assign name v) := by
  refine .bind (like_notify _ _) fun _ => like_modify fun s s' h => ?_
  obtain ⟨program, hops, rfl⟩ := h.exists_program
  exact like_with { s with bindings := Table.insert name v s.bindings } hops

/-- A variable is looked up wherever the tokens stand. -/
theorem indifferent_lookUp (name : String) : Indifferent (lookUp name) := by
  refine .get_bind fun s s' h => ?_
  rw [← h.bindings_eq, ← h.autovivification_eq]
  cases Table.find? name s.bindings with
  | some v => exact indifferent_push v s s' h
  | none =>
    dsimp only
    split
    · exact indifferent_push _ s s' h
    · exact like_fail (.undefinedVariable name h.place) s s' h

/-- A value is raised wherever the tokens stand. -/
theorem indifferent_raise (depth : Nat) : Indifferent (raise depth) := by
  refine .get_bind fun s s' h => ?_
  rw [← h.main_eq]
  cases s.main[depth]? with
  | none => exact like_fail (.tooDeep h.place depth) s s' h
  | some v =>
    refine like_modify (fun s s' h => ?_) s s' h
    obtain ⟨program, hops, rfl⟩ := h.exists_program
    exact like_with { s with main := v :: s.main.eraseIdx depth } hops

/-- A command looks at its place only to say where it failed. -/
theorem indifferent_command (c : Command) : Indifferent (command c) := by
  have hpop := indifferent_pop
  have hcontrol := indifferent_popFrom .control
  cases c with
  | input => exact like_pure ()
  | print => exact .bind hpop fun v => like_print _
  | assign => exact .bind hpop fun name => .bind hpop fun v => indifferent_assign _ _
  | lookUp => exact .bind hpop fun name => indifferent_lookUp _
  | arithmetic operation =>
    refine .bind hpop fun x => .bind hpop fun y => ?_
    split
    · exact indifferent_push _
    · exact .get_bind fun s s' h => like_fail (.divisionByZero h.place) s s' h
  | compare comparison => exact .bind hpop fun x => .bind hpop fun y => indifferent_pushOn _ _
  | not => exact .bind hcontrol fun x => indifferent_pushOn _ _
  | and | or => exact .bind hcontrol fun x => .bind hcontrol fun y => indifferent_pushOn _ _
  | toControl | test => exact .bind hpop fun v => indifferent_pushOn _ _
  | fromControl => exact .bind hcontrol fun v => indifferent_push _
  | copies => exact .bind hpop fun count => .bind hpop fun v => indifferent_pushCopies _ _
  | toNumber | textLength | character => exact .bind hpop fun v => indifferent_push _
  | splitFirst | splitLast =>
    exact .bind hpop fun v => .bind (indifferent_push _) fun _ => indifferent_push _
  | concat => exact .bind hpop fun x => .bind hpop fun y => indifferent_push _
  | raise => exact .bind hpop fun depth => indifferent_raise _

/-- The frames of loops hold indices of tokens, not places, and may be changed alike. -/
theorem indifferent_modifyLoops (f : List Frame → List Frame) :
    Indifferent (Act.modify fun s => { s with loops := f s.loops }) := by
  refine like_modify fun s s' h => ?_
  obtain ⟨program, hops, rfl⟩ := h.exists_program
  exact like_with { s with loops := f s.loops } hops

/-- A counted loop is entered wherever its bracket stands. -/
theorem indifferent_enterLoop (start : Nat) (close : Option Nat) :
    Indifferent (enterLoop start close) := by
  refine .bind indifferent_pop fun v => ?_
  dsimp only
  split
  · exact .bind (indifferent_modifyLoops (⟨start, _⟩ :: ·)) fun _ => like_pure _
  · cases close with
    | some close => exact like_pure _
    | none => exact like_fail (.same _)

/-- The end of a round goes back or on alike, with either place to mention. -/
theorem like_endRound (start here n n' : Nat) :
    (endRound start here n).Like State.Like Trouble.Like (endRound start here n') := by
  refine .get_bind fun s s' h => ?_
  rw [← h.loops_eq]
  cases s.loops with
  | nil => exact like_fail (.noRunningLoop n n') s s' h
  | cons frame outer =>
    dsimp only
    split
    · exact like_fail (.same _) s s' h
    · split
      · exact Like.bind (indifferent_modifyLoops fun _ => { frame with rounds := _ } :: outer)
          (fun _ => like_pure _) s s' h
      · exact Like.bind (indifferent_modifyLoops fun _ => outer) (fun _ => like_pure _) s s' h

/-- Tokens with the same operation do the like. -/
theorem like_execute (here : Nat) {token token' : Token} (hop : token.op = token'.op) :
    (execute here token).Like State.Like Trouble.Like (execute here token') := by
  unfold execute
  rw [← hop]
  cases token.op with
  | word text => exact .bind (indifferent_push _) fun _ => like_pure _
  | command c => exact .bind (indifferent_command c) fun _ => like_pure _
  | repeatStart close => exact indifferent_enterLoop here close
  | repeatEnd start => exact like_endRound start here _ _
  | whileStart => exact like_pure _
  | whileEnd start => exact .bind (indifferent_popFrom .control) fun v => like_pure _

/-- To wait, or to wait no more, is indifferent to the places. -/
theorem indifferent_await (b : Bool) :
    Indifferent (Act.modify fun s => { s with waiting := b }) := by
  refine like_modify fun s s' h => ?_
  obtain ⟨program, hops, rfl⟩ := h.exists_program
  exact like_with { s with waiting := b } hops

/-- A step is indifferent to the places. -/
theorem indifferent_step : Indifferent step := by
  refine .get_bind fun s s' h => ?_
  rw [← h.waiting_eq]
  split
  · exact like_pure _ s s' h
  · -- Both have come to the end, or to tokens that do the same.
    obtain ⟨hhere, hthere⟩ | ⟨token, token', hhere, hthere, hop⟩ := cases_of_map_eq h.op_eq
    · rw [hhere, hthere]
      exact like_pure _ s s' h
    · rw [hhere, hthere]
      dsimp only
      rw [← hop, ← h.next_eq]
      split
      · exact Like.bind (indifferent_await true) (fun _ => like_pure _) s s' h
      · exact Like.bind (like_execute s.next hop)
          (fun index => .bind (indifferent_goTo index) fun _ => like_pure _) s s' h

/-- An input is indifferent to them. -/
theorem indifferent_resume (input : Input) : Indifferent (resume input) := by
  refine .get_bind fun s s' h => ?_
  rw [← h.waiting_eq, ← h.next_eq]
  split
  · exact Like.bind (indifferent_await false)
      (fun _ => .bind (indifferent_push _) fun _ => indifferent_goTo _) s s' h
  · exact like_fail (.same _) s s' h

/-- A reset is indifferent to them. -/
theorem indifferent_reset : Indifferent reset := by
  refine .get_bind fun s s' h => ?_
  rw [← h.bindings_eq]
  refine Like.bind (like_modify fun s s' h => ?_) (fun _ => ?_) s s' h
  · obtain ⟨program, hops, rfl⟩ := h.exists_program
    exact like_with
      { s with main := [], control := [], bindings := [], loops := [], waiting := false } hops
  · refine .bind (fun _ _ h => ⟨.ok (), h, rfl⟩) fun _ => ?_
    exact .bind (like_notify _ _) fun _ => .bind (like_notify _ _) fun _ => indifferent_goTo 0

/-! ## The machine -/

/-- The places of the tokens in the source matter to no step and to no input. -/
theorem likens : machine.Likens State.Like Displaced where
  refl := .same
  step s s' h := (indifferent_step s s' h).mapError fun _ _ he => .worded he
  resume input s s' h := (indifferent_resume input s s' h).mapError fun _ _ he => .worded he

/-- Sources with the same operations are loaded alike. -/
theorem like_load {source source' : String}
    (hsource : Agree Unmatched.Like ((tokenize source.toList).map ops)
      ((tokenize source'.toList).map ops)) :
    (machine.load source).Like State.Like Displaced (machine.load source') := by
  intro s s' h
  obtain ⟨program, hops, rfl⟩ := h.exists_program
  rw [load_eq, load_eq]
  obtain ⟨loaded, loaded', hloaded, hloaded', hsame⟩ |
    ⟨bracket, bracket', hmiss, hmiss', hkind⟩ := hsource.cases_of_map
  · rw [hloaded, hloaded']
    exact ⟨.ok (), like_with { s with program := loaded } hsame, rfl⟩
  · rw [hmiss, hmiss']
    exact ⟨.error (.worded (.unmatched hkind)), like_with s hops, rfl⟩

/-- A source is exchanged for the one with other line endings. -/
theorem exchanges_returned (source : String) :
    machine.Exchanges State.Like Displaced source (Text.returned source) := by
  have hsource := tokenize_withReturns source.toList
  rw [← Text.toList_returned] at hsource
  exact likens.exchanges .refl (like_load hsource) fun s s' h =>
    (indifferent_reset s s' h).mapError fun _ _ he => .worded he

end EsotericHost.Element
