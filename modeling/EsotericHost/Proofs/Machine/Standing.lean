import EsotericHost.Proofs.Host.Parts
import EsotericHost.Proofs.Machine.Builtin

/-!
# Where a machine stands

Steps and runs tell their caller that the machine has halted or that it waits for input, and the
caller relies on it without looking into the machine. `Machine.Stands` keeps account of what the
calls have told: an end holds until the machine is reset, also by a load, and a wait until it is
reset or given an input.

What was told stays true (`Machine.Heeds`): a machine that has halted answers so again and does
nothing else, a machine that waits does nothing but say for what, and an input ends a wait whether
it can be used or not. It holds of every machine that is lawful and idle where it should be
(`Machine.IdlesAt`), and so of all machines of the standard catalogue, whatever calls they have had
(`Catalogue.standard_heeds`).
-/

namespace EsotericHost

variable {ε σ τ α : Type}

/-! ## What calls tell -/

/-- What the calls of a machine have told of it. -/
inductive Standing where
  | ready
  | halted
  | waiting (kind : InputKind)
  deriving Repr, DecidableEq

namespace Standing

/-- What the answer to a step or a run tells. -/
def told : Except ε Outcome → Standing
  | .ok .halted => halted
  | .ok (.suspended kind) => waiting kind
  | _ => ready

/-- What is left of it after an input, which ends a wait and nothing else. -/
def answered : Standing → Standing
  | waiting _ => ready
  | standing => standing

/-- The input that is waited for. -/
def kind? : Standing → Option InputKind
  | waiting kind => some kind
  | _ => none

/-- What an answer tells is a wait just if the answer says so. -/
theorem kind?_told (answer : Except ε Outcome) : (told answer).kind? = suspension answer := by
  match answer with
  | .ok .progressed | .ok .halted | .ok (.suspended kind) | .error e => rfl

/-- Only the answer that the machine has halted tells so. -/
theorem eq_halted_of_told {answer : Except ε Outcome} (ha : told answer = halted) :
    answer = .ok .halted := by
  match answer with
  | .ok .halted => rfl
  | .ok .progressed | .ok (.suspended kind) | .error e => cases ha

end Standing

/-- The states that a machine comes to from the one it is made in, by loads, resets, steps, runs and
inputs in any order, with what these calls have told. A source that loads is reset at once. -/
inductive Machine.Stands (m : Machine σ) (start : σ) : Standing → σ → Prop where
  | made : Stands m start .ready start
  | loaded {standing : Standing} {s : σ} {source : String} (before : Stands m start standing s)
    (ok : (Session.load m source s).result = .ok ()) :
    Stands m start .ready (Session.load m source s).state
  | refused {standing : Standing} {s : σ} {source : String} {upset : Upset}
    (before : Stands m start standing s)
    (error : (Session.load m source s).result = .error upset) :
    Stands m start standing (Session.load m source s).state
  | reset {standing : Standing} {s : σ} (before : Stands m start standing s) :
    Stands m start .ready (m.reset s).state
  | stepped {standing : Standing} {s : σ} (before : Stands m start standing s) :
    Stands m start (.told (m.step s).result) (m.step s).state
  | ran {standing : Standing} {s s' : Session σ} {bound : Nat} {budget budget' : Budget}
    {out out' : Transcript} {answer : Except Upset Outcome}
    (before : Stands m start standing s.state)
    (run : s.run m bound budget out = some (answer, budget', s', out')) :
    Stands m start (.told answer) s'.state
  | resumed {standing : Standing} {s : σ} {input : Input} (before : Stands m start standing s) :
    Stands m start standing.answered (m.resume input s).state

/-- What the calls have told of a machine is true of it: it waits just if it has said so, and it
does nothing after an end or during a wait but say the same again. -/
structure Machine.Heeds (m : Machine σ) (waits : σ → Option InputKind) (standing : Standing)
    (s : σ) : Prop where
  waits_eq : waits s = standing.kind?
  /-- A step that finds the end does nothing. -/
  halts : (m.step s).result = .ok .halted → m.step s = ⟨.ok .halted, s, []⟩
  /-- The end is found again by the steps that follow. -/
  halted : standing = .halted → m.step s = ⟨.ok .halted, s, []⟩
  /-- A step during a wait does nothing, and says for what input. -/
  waiting : ∀ kind, standing = .waiting kind → m.step s = ⟨.ok (.suspended kind), s, []⟩
  /-- An input that is not waited for is refused and does nothing. -/
  refuses : waits s = none → ∀ input, m.resume input s = ⟨.error (.fault .notSuspended), s, []⟩
  /-- An input ends a wait, whether it can be used or not. -/
  resumes : ∀ kind, waits s = some kind → ∀ input, waits (m.resume input s).state = none ∧
    ∀ again, m.resume again (m.resume input s).state =
      ⟨.error (.fault .notSuspended), (m.resume input s).state, []⟩

/-! ## Machines that idle -/

/-- How a machine idles in a state: at its end it does nothing but say so, an input that it does not
wait for changes nothing, and any input ends a wait. -/
structure Machine.IdlesAt (m : Machine σ) (Good : σ → Prop) (waits : σ → Option InputKind)
    (s : σ) : Prop where
  halts : (m.step s).result = .ok .halted → m.step s = ⟨.ok .halted, s, []⟩
  refuses : waits s = none → ∀ input, m.resume input s = ⟨.error (.fault .notSuspended), s, []⟩
  resumes : Good s → ∀ kind, waits s = some kind → ∀ input,
    Good (m.resume input s).state ∧ waits (m.resume input s).state = none

/-- A machine idles in the states of another one that it mirrors. -/
theorem Machine.Mirrors.idlesAt {m : Machine σ} {n : Machine τ} {f : τ → σ} {Good : σ → Prop}
    {Good' : τ → Prop} {waits : σ → Option InputKind} {waits' : τ → Option InputKind}
    (hm : m.Mirrors n f) (hgood : ∀ s, Good (f s) ↔ Good' s) (hwaits : ∀ s, waits (f s) = waits' s)
    {s : τ} (hs : n.IdlesAt Good' waits' s) : m.IdlesAt Good waits (f s) where
  halts hhalted := by
    rw [hm.step] at hhalted ⊢
    rw [hs.halts hhalted]
    rfl
  refuses hw input := by
    rw [hm.resume, hs.refuses ((hwaits s).symm.trans hw) input]
    rfl
  resumes hgood' kind hw input := by
    obtain ⟨hafter, hnone⟩ := hs.resumes ((hgood s).mp hgood') kind ((hwaits s).symm.trans hw) input
    rw [hm.resume]
    exact ⟨(hgood _).mpr hafter, (hwaits _).trans hnone⟩

namespace Machine.Stands

variable {m : Machine σ} {Good : σ → Prop} {waits : σ → Option InputKind} {start s : σ}
  {standing : Standing}

/-- What a step answers is told of the state that it leaves. -/
theorem waits_step (hm : m.Lawful Good waits) (hs : Good s) :
    waits (m.step s).state = (Standing.told (m.step s).result).kind? := by
  rw [Standing.kind?_told]
  exact (hm s hs).step_waits

/-- A step that finds the end leaves a state in which the next one finds it. -/
theorem step_again (hm : ∀ s, m.IdlesAt Good waits s)
    (ht : Standing.told (m.step s).result = .halted) :
    m.step (m.step s).state = ⟨.ok .halted, (m.step s).state, []⟩ := by
  have hstep := (hm s).halts (Standing.eq_halted_of_told ht)
  have hstate : (m.step s).state = s := by rw [hstep]
  rw [hstate, hstep]

/-- The invariant is kept by all calls, and what they have told stays true. -/
theorem invariant (hm : m.Lawful Good waits) (hi : ∀ s, m.IdlesAt Good waits s)
    (hstart : Good start ∧ waits start = none) (hx : m.Stands start standing s) :
    Good s ∧ waits s = standing.kind? ∧
      (standing = .halted → m.step s = ⟨.ok .halted, s, []⟩) := by
  induction hx with
  | made => exact ⟨hstart.1, hstart.2, nofun⟩
  | @loaded standing s source before ok ih =>
    rcases (hm s ih.1).load_cases source with hready | ⟨fault, hload⟩
    · exact ⟨hready.2.1, hready.2.2, nofun⟩
    · rw [hload] at ok
      cases ok
  | @refused standing s source upset before error ih =>
    rcases (hm s ih.1).load_cases source with hready | ⟨fault, hload⟩
    · rw [hready.1] at error
      cases error
    · rw [hload]
      exact ih
  | @reset standing s before ih =>
    have hready := (hm s ih.1).reset_ready
    exact ⟨hready.2.1, hready.2.2, nofun⟩
  | @stepped standing s before ih =>
    exact ⟨(hm s ih.1).step_safe.1, waits_step hm ih.1, step_again hi⟩
  | @ran standing s s' bound budget budget' out out' answer before run ih =>
    -- A run ends with a step, and tells what this tells unless the budget is used up.
    obtain ⟨last, -, hlast, rfl, -, hanswer⟩ :=
      Session.run_ends (P := fun k _ => Good k.state) run ih.1
        fun k _ hk => (hm k.state hk).step_safe.1
    rcases hanswer with rfl | ⟨hprogressed, limit, rfl⟩
    · exact ⟨(hm _ hlast).step_safe.1, waits_step hm hlast, step_again hi⟩
    · refine ⟨(hm _ hlast).step_safe.1, ?_, nofun⟩
      have hw := waits_step hm hlast
      rw [hprogressed] at hw
      exact hw
  | @resumed standing s input before ih =>
    obtain ⟨hgood, hw, hhalted⟩ := ih
    cases standing with
    | waiting kind =>
      obtain ⟨hafter, hnone⟩ := (hi s).resumes hgood kind hw input
      exact ⟨hafter, hnone, nofun⟩
    | ready | halted =>
      rw [(hi s).refuses hw input]
      exact ⟨hgood, hw, hhalted⟩

/-- What the calls of a lawful machine that idles have told is true of it. -/
theorem heeds (hm : m.Lawful Good waits) (hi : ∀ s, m.IdlesAt Good waits s)
    (hstart : Good start ∧ waits start = none) (hx : m.Stands start standing s) :
    m.Heeds waits standing s := by
  obtain ⟨hgood, hw, hhalted⟩ := hx.invariant hm hi hstart
  refine ⟨hw, (hi s).halts, hhalted, fun kind hkind => ?_, (hi s).refuses,
    fun kind hkind input => ?_⟩
  · refine ((hm s hgood).waits_iff kind).mp ?_
    rw [hw, hkind]
    rfl
  · have hnone := ((hi s).resumes hgood kind hkind input).2
    exact ⟨hnone, (hi _).refuses hnone⟩

end Machine.Stands

/-! ## The end of a program -/

/-- A turn that has done nothing if it says that the machine has halted. -/
def Turn.HaltsIdly (s : σ) (t : Turn ε σ Outcome) : Prop :=
  t.result = .ok .halted → t = ⟨.ok .halted, s, []⟩

namespace Act

/-- An instruction that never answers that the machine has halted. -/
def Unending (act : Act ε σ Outcome) : Prop := ∀ s, (act s).result ≠ .ok .halted

variable {s : σ}

/-- To make progress is no end. -/
theorem unending_progressed : Unending (pure .progressed : Act ε σ Outcome) :=
  fun _ h => nomatch h

/-- To wait is no end. -/
theorem unending_suspended (kind : InputKind) :
    Unending (pure (.suspended kind) : Act ε σ Outcome) :=
  fun _ h => nomatch h

/-- What comes first does not answer for the instruction. -/
theorem Unending.bind {x : Act ε σ α} {f : α → Act ε σ Outcome} (hf : ∀ a, Unending (f a)) :
    Unending (x >>= f) := by
  intro s
  obtain ⟨t, ht⟩ : ∃ t, x s = t := ⟨_, rfl⟩
  obtain ⟨result, s', effects⟩ := t
  cases result with
  | ok a =>
    rw [bind_of_ok ht]
    exact hf a s'
  | error e =>
    rw [bind_of_error ht]
    exact fun h => nomatch h

/-- An instruction that may be told of before it is carried out. -/
theorem Unending.echoed {p : Prop} [Decidable p] {x : Act ε σ α} {f : Act ε σ Outcome}
    (hf : Unending f) : Unending (if p then x >>= fun _ => f else f) := by
  split
  · exact .bind fun _ => hf
  · exact hf

/-- An instruction that never ends has done nothing when it says that it has. -/
theorem Unending.haltsIdly {act : Act ε σ Outcome} (hact : Unending act) :
    (act s).HaltsIdly s :=
  fun h => absurd h (hact s)

/-- To give an answer does nothing. -/
theorem haltsIdly_pure (outcome : Outcome) : ((pure outcome : Act ε σ Outcome) s).HaltsIdly s := by
  intro h
  cases h
  rfl

/-- A call halts as the instruction does. -/
theorem haltsIdly_asCall {act : Act ε σ Outcome} {describe : ε → Upset}
    (hact : (act s).HaltsIdly s) : (act.asCall describe s).HaltsIdly s := by
  intro hr
  unfold Act.asCall Turn.mapError at hr ⊢
  cases hresult : (act s).result with
  | ok outcome =>
    rw [hresult] at hr
    cases hr
    rw [hact hresult]
    rfl
  | error e =>
    rw [hresult] at hr
    cases hr

end Act

/-! ## The four machines -/

open Act

/-- The line machine halts after the last line. -/
theorem Length.idles (s : State) : machine.IdlesAt (fun _ => True) waits s where
  halts := by
    refine haltsIdly_asCall ?_
    unfold step
    rw [get_bind_apply]
    split
    · exact haltsIdly_pure _
    · cases s.lines[s.line]? with
      | none => exact haltsIdly_pure _
      | some length =>
        refine (Unending.echoed ?_).haltsIdly
        split
        · exact .bind fun _ => unending_suspended _
        · exact .bind fun _ => unending_progressed
  refuses hw input := by
    change (resume input s).mapError _ = _
    unfold resume
    rw [get_bind_apply, await_eq_none.mp hw]
    rfl
  resumes _ kind hw input := by
    obtain ⟨s', effects, hresume, hs'⟩ := resume_apply input (await_eq_some.mp hw).1
    change True ∧ waits (resume input s).state = none
    rw [hresume]
    exact ⟨trivial, await_eq_none.mpr hs'⟩

/-- The tape machine halts after the last command. -/
theorem Brainfuck.idles (s : State) : machine.IdlesAt State.Good waits s where
  halts := by
    refine haltsIdly_asCall ?_
    unfold step
    split
    · exact nofun
    · split
      · exact fun _ => rfl
      · split
        · exact nofun
        · exact (Unending.bind fun _ => unending_progressed).haltsIdly
  refuses hw input := by
    change (resume input s).mapError _ = _
    unfold resume
    rw [if_neg (ne_true_of_eq_false (await_eq_none.mp hw))]
    rfl
  resumes hs kind hw input := (resume_safe input hs (await_eq_some.mp hw).1).1

/-- The token machine halts after the last token. -/
theorem Element.idles (s : State) : machine.IdlesAt State.Good waits s where
  halts := by
    refine haltsIdly_asCall ?_
    unfold step
    rw [get_bind_apply]
    split
    · exact haltsIdly_pure _
    · cases s.program[s.next]? with
      | none => exact haltsIdly_pure _
      | some token =>
        dsimp only
        split
        · exact (Unending.bind fun _ => unending_suspended _).haltsIdly
        · exact (Unending.bind fun _ => .bind fun _ => unending_progressed).haltsIdly
  refuses hw input := by
    change (resume input s).mapError _ = _
    unfold resume
    rw [get_bind_apply, await_eq_none.mp hw]
    rfl
  resumes hs kind hw input := by
    obtain ⟨s', effects, hresume, hs', hprogram, hloops⟩ :=
      resume_apply input (await_eq_some.mp hw).1
    change State.Good (resume input s).state ∧ waits (resume input s).state = none
    rw [hresume]
    exact ⟨⟨hprogram ▸ hs.matched, hloops ▸ hs.running⟩, await_eq_none.mpr hs'⟩

/-- The playfield machine halts after its stop, and on a field without characters. -/
theorem Befunge.idles (draw : Nat → Direction) (s : State) :
    (machine draw).IdlesAt State.Good waits s where
  halts := by
    refine haltsIdly_asCall ?_
    unfold step
    rw [get_bind_apply]
    dsimp only
    cases s.waiting with
    | some kind => exact haltsIdly_pure _
    | none =>
      dsimp only
      split
      · exact haltsIdly_pure _
      · refine (Unending.bind fun c => .echoed ?_).haltsIdly
        split
        · exact .bind fun _ => .bind fun _ => unending_progressed
        · split
          -- The two input instructions, the one that stops the program, and all others.
          · exact .bind fun _ => unending_suspended _
          · exact .bind fun _ => unending_suspended _
          · exact .bind fun _ => unending_progressed
          · exact .bind fun _ => .bind fun _ => unending_progressed
  refuses hw input := by
    have hnone : s.waiting = none := hw
    change (resume input s).mapError _ = _
    unfold resume
    rw [get_bind_apply, hnone]
    rfl
  resumes hs kind hw input := by
    obtain ⟨⟨hplaced, hnone⟩, -⟩ := resume_safe input hs hw
    exact ⟨.inl hplaced, hnone⟩

namespace Builtin

/-- The built-in machines idle, each in its states. -/
theorem idles (draw : Nat → Befunge.Direction) (s : Builtin) :
    (machine draw).IdlesAt Good waits s := by
  cases s with
  | befunge s =>
    exact (mirrors_befunge draw).idlesAt (fun _ => Iff.rfl) (fun _ => rfl) (Befunge.idles draw s)
  | brainfuck s =>
    exact (mirrors_brainfuck draw).idlesAt (fun _ => Iff.rfl) (fun _ => rfl) (Brainfuck.idles s)
  | element s =>
    exact (mirrors_element draw).idlesAt (fun _ => Iff.rfl) (fun _ => rfl) (Element.idles s)
  | length s =>
    exact (mirrors_length draw).idlesAt (fun _ => Iff.rfl) (fun _ => rfl) (Length.idles s)

end Builtin

namespace Catalogue

/-- A machine of the standard catalogue is as its calls have told, whatever they were. -/
theorem standard_heeds {draw : Nat → Befunge.Direction} {language : Language Builtin}
    {options : Options} {start s : Builtin} {standing : Standing}
    (hl : language ∈ (standard draw).languages) (hb : language.build options = .ok start)
    (hx : (standard draw).machine.Stands start standing s) :
    (standard draw).machine.Heeds Builtin.waits standing s :=
  hx.heeds (standard_reliable draw).lawful (Builtin.idles draw)
    ((standard_reliable draw).builds language hl options start hb)

/-- A playfield machine with the program `&` after its first step. -/
def asksForNumber : Builtin :=
  ((standard fun _ => .right).machine.step (Session.load (standard fun _ => .right).machine "&"
    (.befunge (.new false none false))).state).state

/-- The machine has said that it waits for a line, and so it does until it is given one. -/
theorem standard_heeds_number :
    (standard fun _ => .right).machine.Heeds Builtin.waits (.waiting .line) asksForNumber := by
  obtain ⟨language, hl, hb⟩ : ∃ language ∈ (standard fun _ => .right).languages,
      language.build .empty = .ok (.befunge (.new false none false)) :=
    ⟨_, List.mem_cons_self, rfl⟩
  have hok : (Session.load (standard fun _ => .right).machine "&"
      (.befunge (.new false none false))).result = .ok () := rfl
  have htold : Standing.told ((standard fun _ => .right).machine.step
      (Session.load (standard fun _ => .right).machine "&"
        (.befunge (.new false none false))).state).result = .waiting .line := by decide +kernel
  rw [← htold]
  exact standard_heeds hl hb (.stepped (.loaded .made hok))

end Catalogue

end EsotericHost
