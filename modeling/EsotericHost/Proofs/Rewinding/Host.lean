import EsotericHost.Proofs.Host.Frame
import EsotericHost.Proofs.Host.Suspension
import EsotericHost.Proofs.Host.Totality
import EsotericHost.Proofs.Machine.Recast
import EsotericHost.Proofs.Rewinding.Machines

/-!
# Loading code forgets what was before

A built-in machine that has been made with some options comes to the same state when a source is
loaded, whatever it has done before (`Machine.ForgetsAt`). So two idle hosts with the same language
and options run the same code alike, whatever their clients have asked of them until then. Two
things remain of the past: the token machine tells which variables the reset before the run takes
away (`Session.forgotten`), and the playfield machine goes on with the random directions that it has
not yet used.

A run is the same in two casts of one machine (`Machine.Cast.run_over`), and after a load the
machines of the two hosts are such casts (`Builtin.exists_casts`).
-/

namespace EsotericHost

variable {σ τ : Type}

/-! ## Casts of one machine -/

/-- A machine that does, in the states of another one, what the other one does, and shows it in the
same way. -/
structure Machine.Cast (m : Machine σ) (n : Machine τ) (f : τ → σ) : Prop extends
    m.Mirrors n f where
  portray : ∀ s, m.portray (f s) = n.portray s

/-- A session with its machine in another cast. -/
def Session.over (f : τ → σ) (s : Session τ) : Session σ :=
  ⟨s.lang, s.options, s.capabilities, s.visualize, f s.state⟩

/-- A stretch of work with its machine in another cast. -/
def Stretch.over (f : τ → σ) (w : Stretch τ) : Stretch σ :=
  ⟨w.rest, w.session.over f, w.budget, w.events⟩

namespace Machine.Cast

variable {m : Machine σ} {n : Machine τ} {f : τ → σ}

/-- A call that the other machine makes too leaves the cast of what that call leaves, and tells the
same. -/
theorem call_over {α : Type} {x : Act Upset σ α} {y : Act Upset τ α} (hm : m.Cast n f)
    (hxy : ∀ s, x (f s) = (y s).mapState f) (s : Session τ) :
    (x (s.over f).state).result = (y s.state).result ∧
      (s.over f).left x = (s.left y).over f ∧ (s.over f).told m x = s.told n y := by
  have hcall : x (s.over f).state = (y s.state).mapState f := hxy s.state
  unfold Session.told Session.left Session.events
  rw [hcall]
  refine ⟨rfl, rfl, ?_⟩
  exact congrArg
    (fun portray => (y s.state).effects.flatMap (Effect.events s.visualize portray))
    (hm.portray _)

/-- A step leaves the cast of what the other machine's step leaves, and tells the same. -/
theorem step_over (hm : m.Cast n f) (s : Session τ) :
    (m.step (s.over f).state).result = (n.step s.state).result ∧
      (s.over f).left m.step = (s.left n.step).over f ∧
      (s.over f).told m m.step = s.told n n.step :=
  hm.call_over hm.step s

/-- A run goes the same way in another cast. -/
theorem run_over (hm : m.Cast n f) (bound : Nat) (budget : Budget) (s : Session τ)
    (out : Transcript) :
    (s.over f).run m bound budget out =
      (s.run n bound budget out).map fun (answer, budget, s, out) =>
        (answer, budget, s.over f, out) := by
  induction bound generalizing budget s out with
  | zero => rfl
  | succ bound ih =>
    obtain ⟨hresult, hleft, htold⟩ := hm.step_over s
    unfold Session.run
    simp only [Session.call_eq, hresult, hleft, htold]
    cases (n.step s.state).result with
    | error upset => rfl
    | ok outcome =>
      cases outcome with
      | halted => rfl
      | suspended kind => rfl
      | progressed =>
        dsimp only
        cases budget.charge.exceeded? with
        | some limit => rfl
        | none => exact ih _ _ _

/-- Work goes the same way in another cast. -/
theorem toil_over (hm : m.Cast n f) (bound : Nat) (op : Operation) (s : Session τ) :
    (s.over f).toil m bound op = (s.toil n bound op).map (Stretch.over f) := by
  unfold Session.toil
  cases op.task with
  | run =>
    dsimp only
    rw [hm.run_over, Option.map_map, Option.map_map]
    rfl
  | step =>
    obtain ⟨hresult, hleft, htold⟩ := hm.step_over s
    dsimp only
    rw [hresult, hleft, htold]
    rfl

end Machine.Cast

/-! ## The built-in machines after a load -/

namespace Builtin

/-- How many random directions the machine has used, if it uses any. -/
def drawn? : Builtin → Option Nat
  | befunge s => some s.draws
  | _ => none

/-- The random directions that the machine has not used yet, if it uses any. -/
def coming (draw : Nat → Befunge.Direction) (s : Builtin) : Option (Nat → Befunge.Direction) :=
  s.drawn?.map (Befunge.later draw)

/-- A playfield machine is a cast of the machine that draws what it has not used yet. -/
theorem cast_befunge (draw : Nat → Befunge.Direction) (k : Nat) :
    (machine draw).Cast (Befunge.machine (Befunge.later draw k))
      (fun s => befunge (s.recast false k)) where
  load source s := (mirrors_recast draw k).load source (befunge s)
  reset s := (mirrors_recast draw k).reset (befunge s)
  step s := by
    rw [show befunge (s.recast false k) = (befunge s).recast false k from rfl,
      (mirrors_recast draw k).step (befunge s)]
    rfl
  resume input s := by
    rw [show befunge (s.recast false k) = (befunge s).recast false k from rfl,
      (mirrors_recast draw k).resume input (befunge s)]
    rfl
  minify _ _ := rfl
  fromText _ _ := rfl
  portray _ := rfl

/-- The other machines draw nothing, so that they are casts of their own. -/
theorem cast_brainfuck (draw : Nat → Befunge.Direction) :
    (machine draw).Cast Brainfuck.machine brainfuck :=
  { mirrors_brainfuck draw with portray := fun _ => rfl }

/-- The token machine in the cast of the built-in ones. -/
theorem cast_element (draw : Nat → Befunge.Direction) :
    (machine draw).Cast Element.machine element :=
  { mirrors_element draw with portray := fun _ => rfl }

/-- The line machine in the cast of the built-in ones. -/
theorem cast_length (draw : Nat → Befunge.Direction) :
    (machine draw).Cast Length.machine length :=
  { mirrors_length draw with portray := fun _ => rfl }

/-- Two machines in states that differ at most in the count of random directions, with the same
directions to come, are casts of one machine. -/
theorem exists_casts {draw₁ draw₂ : Nat → Befunge.Direction} {s₁ s₂ : Builtin}
    (hstill : s₁.still = s₂.still) (hcoming : s₁.coming draw₁ = s₂.coming draw₂) :
    ∃ (τ : Type) (n : Machine τ) (f₁ f₂ : τ → Builtin) (s : τ), (machine draw₁).Cast n f₁ ∧
      (machine draw₂).Cast n f₂ ∧ f₁ s = s₁ ∧ f₂ s = s₂ := by
  cases s₁ with
  | befunge s =>
    cases s₂ with
    | befunge t =>
      have hrow : Befunge.later draw₁ s.draws = Befunge.later draw₂ t.draws :=
        Option.some.inj hcoming
      have hstill : s.still = t.still := befunge.inj hstill
      have hcast (u : Befunge.State) : u.still.recast false u.draws = u := by
        simp [Befunge.State.still, Befunge.State.recast]
      refine ⟨Befunge.State, Befunge.machine (Befunge.later draw₁ s.draws),
        fun u => befunge (u.recast false s.draws), fun u => befunge (u.recast false t.draws),
        s.still, cast_befunge draw₁ s.draws, ?_, congrArg befunge (hcast s), ?_⟩
      · rw [hrow]
        exact cast_befunge draw₂ t.draws
      · rw [hstill]
        exact congrArg befunge (hcast t)
    | brainfuck t => cases hstill
    | element t => cases hstill
    | length t => cases hstill
  | brainfuck s =>
    refine ⟨_, Brainfuck.machine, brainfuck, brainfuck, s, cast_brainfuck draw₁,
      cast_brainfuck draw₂, rfl, ?_⟩
    cases s₂ <;> first | exact hstill | cases hstill
  | element s =>
    refine ⟨_, Element.machine, element, element, s, cast_element draw₁,
      cast_element draw₂, rfl, ?_⟩
    cases s₂ <;> first | exact hstill | cases hstill
  | length s =>
    refine ⟨_, Length.machine, length, length, s, cast_length draw₁,
      cast_length draw₂, rfl, ?_⟩
    cases s₂ <;> first | exact hstill | cases hstill

/-- Loading does not use random directions. -/
theorem load_draw (draw₁ draw₂ : Nat → Befunge.Direction) (source : String) (s : Builtin) :
    (machine draw₁).load source s = (machine draw₂).load source s := by
  cases s <;> rfl

/-- Nor does a reset. -/
theorem reset_draw (draw₁ draw₂ : Nat → Befunge.Direction) (s : Builtin) :
    (machine draw₁).reset s = (machine draw₂).reset s := by
  cases s <;> rfl

/-- A load has no effects of its own. -/
theorem load_effects (draw : Nat → Befunge.Direction) (source : String) (s : Builtin) :
    ((machine draw).load source s).effects = [] := by
  cases s with
  | befunge s => rfl
  | brainfuck s =>
    change (Brainfuck.machine.load source s).effects = []
    rw [Brainfuck.load_eq]
    split <;> rfl
  | element s =>
    change (Element.machine.load source s).effects = []
    rw [Element.load_eq]
    split <;> rfl
  | length s => rfl

/-- The variables of the machine, if it has any. -/
def variableNames : Builtin → List String
  | element s => s.bindings.map Prod.fst
  | _ => []

/-- A reset tells of the variables that are gone, if there were any, and then the same as a machine
that has been rewound. -/
theorem reset_effects (draw : Nat → Befunge.Direction) (s : Builtin) :
    ((machine draw).reset s).effects =
      s.variableNames.map (fun name => .notify (.binding name .null)) ++
        ((machine draw).reset s.ready).effects := by
  cases s with
  | befunge s => rfl
  | brainfuck s => rfl
  | element s =>
    unfold variableNames
    rw [List.map_map]
    exact Element.reset_effects s
  | length s => rfl

/-- A load leaves the variables to the reset after it. -/
theorem variableNames_load (draw : Nat → Befunge.Direction) (source : String) (s : Builtin) :
    ((machine draw).load source s).state.variableNames = s.variableNames := by
  cases s with
  | befunge s => rfl
  | brainfuck s => rw [(mirrors_brainfuck draw).load]; rfl
  | element s =>
    rw [(mirrors_element draw).load]
    change (Element.machine.load source s).state.bindings.map Prod.fst = _
    rw [Element.load_eq]
    split <;> rfl
  | length s => rfl

/-- The count of random directions outlasts a load. -/
theorem drawn?_load (draw : Nat → Befunge.Direction) (source : String) (s : Builtin) :
    (Session.load (machine draw) source s).state.drawn? = s.drawn? := by
  cases s with
  | befunge s => rfl
  | brainfuck s => rw [(mirrors_brainfuck draw).session_load]; rfl
  | element s => rw [(mirrors_element draw).session_load]; rfl
  | length s => rfl

/-- Machines that are at the same place, apart from the count of random directions, show things in
the same way. -/
theorem portray_of_still (draw₁ draw₂ : Nat → Befunge.Direction) {s₁ s₂ : Builtin}
    (hstill : s₁.still = s₂.still) : (machine draw₁).portray s₁ = (machine draw₂).portray s₂ := by
  cases s₁ <;> cases s₂ <;> first | rfl | cases hstill

end Builtin

/-- The updates by which a reset tells that the variables are gone, if they are watched. -/
def Session.forgotten (s : Session Builtin) : List Event :=
  if s.visualize then
    s.state.variableNames.map fun name => .update (.entry "vars" name .delete .null)
  else []

/-- The same events, but that each of two sessions is reset at the same place, and tells there that
its own variables are gone. -/
inductive Session.SameButForgotten (s₁ s₂ : Session Builtin) : List Event → List Event → Prop
  | same (events : List Event) : SameButForgotten s₁ s₂ events events
  | reset (before after : List Event) : SameButForgotten s₁ s₂
      (before ++ s₁.forgotten ++ after) (before ++ s₂.forgotten ++ after)

namespace Session.SameButForgotten

variable {s₁ s₂ : Session Builtin} {events₁ events₂ : List Event}

/-- More of the same may stand before and behind. -/
theorem within (h : s₁.SameButForgotten s₂ events₁ events₂) (before after : List Event) :
    s₁.SameButForgotten s₂ (before ++ events₁ ++ after) (before ++ events₂ ++ after) := by
  cases h with
  | same => exact .same _
  | reset before' after' =>
    have hreset : s₁.SameButForgotten s₂ (before ++ before' ++ s₁.forgotten ++ (after' ++ after))
        (before ++ before' ++ s₂.forgotten ++ (after' ++ after)) := reset _ _
    simpa only [List.append_assoc] using hreset

end Session.SameButForgotten

namespace Builtin

/-- The variables that a reset takes away are told one by one. -/
theorem flatMap_forgotten (draw : Nat → Befunge.Direction) (s : Session Builtin) :
    (s.state.variableNames.map fun name => Effect.notify (.binding name .null)).flatMap
      (Effect.events s.visualize ((machine draw).portray s.state)) = s.forgotten := by
  obtain ⟨lang, options, capabilities, visualize, state⟩ := s
  unfold Session.forgotten
  dsimp only
  cases state with
  | element s =>
    rw [List.flatMap_map]
    cases visualize with
    | false => exact List.flatMap_eq_nil_iff.mpr fun _ _ => rfl
    | true =>
      rw [if_pos rfl, List.map_eq_flatMap]
      rfl
  | _ => cases visualize <;> rfl

/-- A load does not change how things are shown. -/
theorem portray_load (draw : Nat → Befunge.Direction) (source : String) (s : Builtin) :
    (machine draw).portray (Session.load (machine draw) source s).state =
      (machine draw).portray s := by
  cases s with
  | befunge s => rfl
  | brainfuck s => rw [(mirrors_brainfuck draw).session_load]; rfl
  | element s => rw [(mirrors_element draw).session_load]; rfl
  | length s => rfl

/-- Machines made with the same options refuse the same sources for the same reasons. -/
theorem load_result_eq (draw₁ draw₂ : Nat → Befunge.Direction) (source : String) {s₁ s₂ : Builtin}
    (hbare : s₁.bare = s₂.bare) :
    ((machine draw₁).load source s₁).result = ((machine draw₂).load source s₂).result := by
  rw [(rewinds draw₁ s₁).load_result, hbare, load_draw draw₁ draw₂,
    ← (rewinds draw₂ s₂).load_result]

/-- A load that is refused tells nothing. -/
theorem told_load_of_error {draw : Nat → Befunge.Direction} {source : String}
    {s : Session Builtin} {upset : Upset}
    (h : ((machine draw).load source s.state).result = .error upset) :
    s.told (machine draw) (Session.load (machine draw) source) = [] := by
  unfold Session.told Session.events
  rw [Machine.load_of_error h, load_effects]
  rfl

/-- A load that succeeds tells of the variables that are gone, and then what a reset at the start of
the program tells. -/
theorem told_load_of_ok {draw : Nat → Befunge.Direction} {source : String} {s : Session Builtin}
    (h : ((machine draw).load source s.state).result = .ok ()) :
    s.told (machine draw) (Session.load (machine draw) source) = s.forgotten ++
      ((machine draw).reset ((machine draw).load source s.state).state.ready).effects.flatMap
        (Effect.events s.visualize ((machine draw).portray s.state)) := by
  unfold Session.told Session.events
  dsimp only [Session.left]
  rw [(Machine.load_of_ok h).2.2, load_effects, List.nil_append, reset_effects,
    List.flatMap_append, portray_load, variableNames_load, flatMap_forgotten]

/-- Two sessions over machines made with the same options load a source alike. Both refuse it for the
same reason and tell nothing, or both come to the same place, and tell the same behind the updates
for their variables. -/
theorem load_alike (draw₁ draw₂ : Nat → Befunge.Direction) (source : String)
    {s₁ s₂ : Session Builtin} (hbare : s₁.state.bare = s₂.state.bare)
    (hvisualize : s₁.visualize = s₂.visualize) :
    (Session.load (machine draw₁) source s₁.state).result =
        (Session.load (machine draw₂) source s₂.state).result ∧
      (∀ upset, (Session.load (machine draw₁) source s₁.state).result = .error upset →
        s₁.told (machine draw₁) (Session.load (machine draw₁) source) = [] ∧
        s₂.told (machine draw₂) (Session.load (machine draw₂) source) = []) ∧
      ((Session.load (machine draw₁) source s₁.state).result = .ok () →
        (Session.load (machine draw₁) source s₁.state).state.still =
          (Session.load (machine draw₂) source s₂.state).state.still ∧
        ∃ after,
          s₁.told (machine draw₁) (Session.load (machine draw₁) source) = s₁.forgotten ++ after ∧
          s₂.told (machine draw₂) (Session.load (machine draw₂) source) = s₂.forgotten ++ after) := by
  have hresult := load_result_eq draw₁ draw₂ source hbare
  cases hok : ((machine draw₁).load source s₁.state).result with
  | error upset =>
    have hok₂ : ((machine draw₂).load source s₂.state).result = .error upset :=
      hresult.symm.trans hok
    rw [Machine.load_of_error hok, Machine.load_of_error hok₂, hok, hok₂]
    exact ⟨rfl, fun _ _ => ⟨told_load_of_error hok, told_load_of_error hok₂⟩, fun h => nomatch h⟩
  | ok _ =>
    have hok₂ : ((machine draw₂).load source s₂.state).result = .ok () := hresult.symm.trans hok
    have hload₁ := Machine.load_of_ok hok
    have hload₂ := Machine.load_of_ok hok₂
    -- What is ready after the load depends on the bare machine only.
    have hready : ((machine draw₁).load source s₁.state).state.ready =
        ((machine draw₂).load source s₂.state).state.ready := by
      rw [(rewinds draw₁ s₁.state).ready_load source hok, hbare, load_draw draw₁ draw₂,
        ← (rewinds draw₂ s₂.state).ready_load source hok₂]
    have hstill : (Session.load (machine draw₁) source s₁.state).state.still =
        (Session.load (machine draw₂) source s₂.state).state.still := by
      rw [hload₁.2.1, hload₂.2.1, (rewinds draw₁ _).still_reset, (rewinds draw₂ _).still_reset]
      exact hready
    have hportray := portray_of_still draw₁ draw₂ hstill
    rw [portray_load, portray_load] at hportray
    rw [hload₁.1, hload₂.1, (rewinds draw₁ _).reset_ok, (rewinds draw₂ _).reset_ok]
    refine ⟨rfl, fun _ herror => (nomatch herror), fun _ => ⟨hstill, _, told_load_of_ok hok, ?_⟩⟩
    rw [told_load_of_ok hok₂, hready, reset_draw draw₁ draw₂, hportray, hvisualize]

end Builtin

/-! ## Hosts -/

/-- A session whose machine would be the one that its options make, if it had no program. -/
def Session.Optioned (c : Catalogue Builtin) (s : Session Builtin) : Prop :=
  ∃ language, c.find? s.lang = some language ∧ language.build s.options = .ok s.state.bare ∧
    s.capabilities = c.machine.capabilities s.state.bare ∧ s.visualize = s.options.visualize

namespace Catalogue

/-- A machine that has just been made is at the start of no program, and has used no random
direction. -/
theorem standard_bare {draw : Nat → Befunge.Direction} {language : Language Builtin}
    {options : Options} {s : Builtin} (hl : language ∈ (standard draw).languages)
    (hb : language.build options = .ok s) : s.bare = s ∧ s.ready = s ∧ s.still = s := by
  cases standard_built hl hb with
  | befunge build =>
    obtain ⟨hbare, hready, hstill⟩ := Befunge.build_bare build
    exact ⟨congrArg _ hbare, congrArg _ hready, congrArg _ hstill⟩
  | brainfuck build =>
    obtain ⟨hbare, hready⟩ := Brainfuck.build_bare build
    exact ⟨congrArg _ hbare, congrArg _ hready, rfl⟩
  | element => exact ⟨rfl, rfl, rfl⟩
  | length => exact ⟨rfl, rfl, rfl⟩

/-- No call changes what the options of a session have made. -/
theorem maintains_optioned (draw : Nat → Befunge.Direction) :
    (standard draw).Maintains (Session.Optioned (standard draw)) := by
  have hm := Builtin.rewinds draw
  have hkept {s : Session Builtin} {state : Builtin} (hs : s.Optioned (standard draw))
      (hbare : state.bare = s.state.bare) :
      Session.Optioned (standard draw) { s with state } := by
    obtain ⟨language, hfind, hbuild, hcapabilities, hvisualize⟩ := hs
    exact ⟨language, hfind, by rw [hbare]; exact hbuild, by rw [hbare]; exact hcapabilities,
      hvisualize⟩
  refine ⟨fun lang options s ho => ?_, fun source s hs => hkept hs (hm.bare_loaded source s.state),
    fun s hs => hkept hs (hm.bare_of_ready (hm s.state).ready_reset),
    fun s hs => hkept hs (hm.bare_of_ready (hm s.state).ready_step),
    fun input s hs => hkept hs (hm.bare_of_ready ((hm s.state).ready_resume input))⟩
  unfold openSession at ho
  split at ho
  · cases ho
  · rename_i language hfind
    split at ho
    · cases ho
    · rename_i state hbuild
      cases ho
      obtain ⟨hbare, -, -⟩ := standard_bare (List.mem_of_find?_eq_some hfind) hbuild
      have hname : language.name = lang := by simpa using List.find?_some hfind
      refine ⟨language, ?_, ?_, ?_, rfl⟩
      · rw [hname]
        exact hfind
      · rw [hbare]
        exact hbuild
      · rw [hbare]

end Catalogue

namespace Host

variable {σ : Type} {c : Catalogue σ} {Good : σ → Prop} {waits : σ → Option InputKind}
  {bound : Nat} {h : Host σ} {s : Session σ}

/-- The work of a run that begins with code of its own. -/
def codeWork (c : Catalogue σ) (bound : Nat) (h : Host σ) (s : Session σ) (source : String) :
    Option (Stretch σ) :=
  s.toilAfter c.machine (h.beginning .run s.lang) (.badCode s.lang) (Session.load c.machine source)
    (·.toil c.machine bound (h.beginning .run s.lang))

/-- The events of a run that begins on an idle host, by the events of its work and by how that
comes to rest. -/
def runEvents (lang : String) (rest : Rest) (events : List Event) : List Event :=
  [.print s!"\n> interpreter execute --lang {lang} --file ./userInput\n",
      .status (Task.run.label lang)] ++ events ++
    match rest with
    | .waits kind => [.status kind.label, .request kind]
    | .ends ending => [Activity.idle.report] ++ endReport .run ending

/-- A run that begins with code of its own tells of its work. -/
theorem handle_code (hc : c.Reliable Good waits) (hh : h.Consistent) (hs : h.InStep Good waits)
    (hop : h.operation = none) (hsession : h.session = some s) (source : String)
    (text : Option String) :
    (h.handle c bound (.press .interpret ⟨some source, text⟩)).map Prod.fst =
      (h.codeWork c bound s source).map fun w => runEvents s.lang w.rest w.events := by
  have heffort : h.effort? c bound (.press .interpret ⟨some source, text⟩) =
      h.beginEffort .run s [.print s!"\n> interpreter execute --lang {s.lang} --file ./userInput\n"]
        fun _ => h.codeWork c bound s source := by
    simp only [effort?, hop, hsession]
    rfl
  cases hw : h.codeWork c bound s source with
  | none =>
    -- Without an answer of the work there is none of the command.
    have hnone : h.handle c bound (.press .interpret ⟨some source, text⟩) = none := by
      apply Option.eq_none_iff_forall_ne_some.mpr
      rintro ⟨events, h'⟩ hx
      obtain ⟨e, he⟩ := effort_of_interpret hh hop hsession hx
      rw [heffort] at he
      simp only [beginEffort, hw, Option.map_none] at he
      cases he
    rw [hnone]
    rfl
  | some w =>
    simp only [beginEffort, hw, Option.map_some] at heffort
    rw [handle_of_effort hc hh hs heffort]
    have hidle : h.activity = .idle := hh.idle_labels hop
    have hheld : h.held = none := hh.held_of_idle hop hsession
    simp only [Option.map_some, Effort.events, hheld, runEvents, hidle, beginning]
    cases w.rest with
    | waits kind => rfl
    | ends ending =>
      have hnothing : w.session.heldEvents c.machine none = [] := rfl
      dsimp only
      rw [hnothing, List.append_nil]
      rfl

/-- Two machines made with the same options do the same work for the same code. -/
theorem codeWork_alike (draw₁ draw₂ : Nat → Befunge.Direction) (bound : Nat)
    {h₁ h₂ : Host Builtin} {s₁ s₂ : Session Builtin} (source : String)
    (hop : h₁.beginning .run s₁.lang = h₂.beginning .run s₂.lang)
    (hmake : s₂ = { s₁ with state := s₂.state }) (hbare : s₁.state.bare = s₂.state.bare)
    (hcoming : s₁.state.coming draw₁ = s₂.state.coming draw₂) :
    Option.Rel (fun w₁ w₂ : Stretch Builtin =>
        w₁.rest = w₂.rest ∧ s₁.SameButForgotten s₂ w₁.events w₂.events)
      (h₁.codeWork (.standard draw₁) bound s₁ source)
      (h₂.codeWork (.standard draw₂) bound s₂ source) := by
  obtain ⟨lang, options, capabilities, visualize, state₁⟩ := s₁
  obtain ⟨_, _, _, _, state₂⟩ := s₂
  cases hmake
  obtain ⟨hresult, hrefused, hloaded⟩ := @Builtin.load_alike draw₁ draw₂ source
    ⟨lang, options, capabilities, visualize, state₁⟩
    ⟨lang, options, capabilities, visualize, state₂⟩ hbare rfl
  unfold codeWork Session.toilAfter
  dsimp only [Catalogue.standard] at hresult hrefused hloaded hop ⊢
  rw [← hresult, ← hop]
  cases hok : (Session.load (Builtin.machine draw₁) source state₁).result with
  | error upset =>
    obtain ⟨htold₁, htold₂⟩ := hrefused upset hok
    refine .some ⟨rfl, ?_⟩
    dsimp only
    rw [htold₁, htold₂]
    exact .same []
  | ok _ =>
    obtain ⟨hstill, after, htold₁, htold₂⟩ := hloaded hok
    -- Both machines are at the start of the same program, so they are casts of one machine.
    have hcoming' : (Session.load (Builtin.machine draw₁) source state₁).state.coming draw₁ =
        (Session.load (Builtin.machine draw₂) source state₂).state.coming draw₂ := by
      unfold Builtin.coming
      rw [Builtin.drawn?_load, Builtin.drawn?_load]
      exact hcoming
    obtain ⟨τ, n, f₁, f₂, t, hcast₁, hcast₂, ht₁, ht₂⟩ := Builtin.exists_casts hstill hcoming'
    have hleft₁ : Session.left (Session.load (Builtin.machine draw₁) source)
        ⟨lang, options, capabilities, visualize, state₁⟩ =
        Session.over f₁ ⟨lang, options, capabilities, visualize, t⟩ := by
      unfold Session.over
      rw [ht₁]
      rfl
    have hleft₂ : Session.left (Session.load (Builtin.machine draw₂) source)
        ⟨lang, options, capabilities, visualize, state₂⟩ =
        Session.over f₂ ⟨lang, options, capabilities, visualize, t⟩ := by
      unfold Session.over
      rw [ht₂]
      rfl
    dsimp only
    rw [hleft₁, hleft₂, hcast₁.toil_over, hcast₂.toil_over]
    cases
      Session.toil n bound (h₁.beginning .run lang) ⟨lang, options, capabilities, visualize, t⟩ with
    | none => exact .none
    | some w =>
      refine .some ⟨rfl, ?_⟩
      dsimp only [Stretch.after, Stretch.over]
      rw [htold₁, htold₂, List.append_assoc, List.append_assoc]
      exact .reset [] (after ++ w.events)

/-- An idle host that commands have brought to a session. -/
structure RestsOn (c : Catalogue σ) (limit : Option Nat) (h : Host σ) (s : Session σ) : Prop where
  reached : ∃ bound commands steps, (Host.new limit).handleAll c bound commands = some (steps, h)
  idle : h.operation = none
  session : h.session = some s

/-- Commands that leave a session and no operation bring a host to it, whatever else is known of the
session. -/
theorem exists_restsOn {β : Type} {c : Catalogue σ} {limit : Option Nat} {bound : Nat}
    {commands : List Command} {facts : Session σ → β} {b : β}
    (hrun : ((Host.new limit).handleAll c bound commands).map
      (fun run => (run.2.operation, run.2.session.map facts)) = some (none, some b)) :
    ∃ steps h s, (Host.new limit).handleAll c bound commands = some (steps, h) ∧
      h.RestsOn c limit s ∧ facts s = b := by
  obtain ⟨⟨steps, h⟩, hrun, hfacts⟩ := Option.map_eq_some_iff.mp hrun
  simp only [Prod.mk.injEq, Option.map_eq_some_iff] at hfacts
  obtain ⟨hidle, s, hs, hfacts⟩ := hfacts
  exact ⟨steps, h, s, hrun, ⟨⟨_, _, _, hrun⟩, hidle, hs⟩, hfacts⟩

/-- What is known of a host of the built-in languages that rests on a session. -/
theorem RestsOn.known {draw : Nat → Befunge.Direction} {limit : Option Nat} {h : Host Builtin}
    {s : Session Builtin} (hr : h.RestsOn (.standard draw) limit s) :
    h.Consistent ∧ h.InStep Builtin.Good Builtin.waits ∧ s.Optioned (.standard draw) ∧
      h.beginning .run s.lang = ⟨.run, s.lang, 0, .fresh limit⟩ := by
  obtain ⟨bound, commands, steps, hrun⟩ := hr.reached
  obtain ⟨⟨hh, hs, -⟩, -⟩ := standard_handleAll hrun
  refine ⟨hh, hs, (Catalogue.maintains_optioned draw).handleAll hrun s hr.session, ?_⟩
  unfold beginning
  rw [hh.idle_labels hr.idle, handleAll_stepLimit (new_consistent limit) hrun]
  rfl

/-- Sessions with the same language and options differ in their states only, and these would be the
same without a program. -/
theorem optioned_alike {draw₁ draw₂ : Nat → Befunge.Direction} {s₁ s₂ : Session Builtin}
    (h₁ : s₁.Optioned (.standard draw₁)) (h₂ : s₂.Optioned (.standard draw₂))
    (hlang : s₁.lang = s₂.lang) (hoptions : s₁.options = s₂.options) :
    s₂ = { s₁ with state := s₂.state } ∧ s₁.state.bare = s₂.state.bare := by
  obtain ⟨lang, options, capabilities₁, visualize₁, state₁⟩ := s₁
  obtain ⟨_, _, capabilities₂, visualize₂, state₂⟩ := s₂
  obtain rfl : lang = _ := hlang
  obtain rfl : options = _ := hoptions
  obtain ⟨language₁, hfind₁, hbuild₁, hcapabilities₁, hvisualize₁⟩ := h₁
  obtain ⟨language₂, hfind₂, hbuild₂, hcapabilities₂, hvisualize₂⟩ := h₂
  obtain rfl : language₁ = language₂ := Option.some.inj (hfind₁.symm.trans hfind₂)
  have hbare : state₁.bare = state₂.bare := Except.ok.inj (hbuild₁.symm.trans hbuild₂)
  have hcapabilities : capabilities₁ = capabilities₂ := by
    refine hcapabilities₁.trans (Eq.trans ?_ hcapabilities₂.symm)
    dsimp only
    rw [hbare]
    cases state₂ <;> rfl
  have hvisualize : visualize₁ = visualize₂ := hvisualize₁.trans hvisualize₂.symm
  rw [hcapabilities, hvisualize]
  exact ⟨rfl, hbare⟩

end Host

/-- Every built-in machine, made with any options and brought to any state by loads, resets, steps,
runs and inputs, forgets all of that when it loads code or is reset, apart from its random
directions; and code that it refuses changes nothing. So two idle hosts with the same language, the
same options and the same step limit answer the same code that is to be run with the same events,
but for the variables that the reset before the run tells to be gone, if they have the same random
directions to come. -/
theorem Catalogue.standard_load_forgets (draw₁ draw₂ : Nat → Befunge.Direction) :
    (∀ language ∈ (standard draw₁).languages, ∀ options start, language.build options = .ok start →
      ∀ last s, (standard draw₁).machine.Visits start last s →
        (standard draw₁).machine.ForgetsAt Builtin.still start last s) ∧
    ∀ (bound : Nat) (limit : Option Nat) (h₁ h₂ : Host Builtin) (s₁ s₂ : Session Builtin)
      (source : String) (text₁ text₂ : Option String),
      h₁.RestsOn (standard draw₁) limit s₁ → h₂.RestsOn (standard draw₂) limit s₂ →
      s₁.lang = s₂.lang → s₁.options = s₂.options →
      s₁.state.coming draw₁ = s₂.state.coming draw₂ →
      Option.Rel (s₁.SameButForgotten s₂)
        ((h₁.handle (standard draw₁) bound (.press .interpret ⟨some source, text₁⟩)).map Prod.fst)
        ((h₂.handle (standard draw₂) bound (.press .interpret ⟨some source, text₂⟩)).map
          Prod.fst) := by
  constructor
  · intro language hl options start hb last s hv
    obtain ⟨hbare, hready, hstill⟩ := standard_bare hl hb
    exact hv.forgetsAt (Builtin.rewinds draw₁) hbare (hready.trans hstill.symm)
  · intro bound limit h₁ h₂ s₁ s₂ source text₁ text₂ hr₁ hr₂ hlang hoptions hcoming
    obtain ⟨hh₁, hs₁, hmade₁, hop₁⟩ := hr₁.known
    obtain ⟨hh₂, hs₂, hmade₂, hop₂⟩ := hr₂.known
    obtain ⟨hmake, hbare⟩ := Host.optioned_alike hmade₁ hmade₂ hlang hoptions
    have hop : h₁.beginning .run s₁.lang = h₂.beginning .run s₂.lang := by
      rw [hop₁, hop₂, hlang]
    have hwork := Host.codeWork_alike draw₁ draw₂ bound source hop hmake hbare hcoming
    rw [Host.handle_code (standard_reliable draw₁) hh₁ hs₁ hr₁.idle hr₁.session,
      Host.handle_code (standard_reliable draw₂) hh₂ hs₂ hr₂.idle hr₂.session]
    generalize h₁.codeWork (standard draw₁) bound s₁ source = work₁ at hwork ⊢
    generalize h₂.codeWork (standard draw₂) bound s₂ source = work₂ at hwork ⊢
    cases hwork with
    | none => exact .none
    | some hw =>
      obtain ⟨hrest, hevents⟩ := hw
      refine .some ?_
      dsimp only [Host.runEvents]
      rw [hlang, hrest]
      exact hevents.within _ _

/-- A row of random directions whose first one leads to the left and all others to the right. -/
def Befunge.leftFirst (n : Nat) : Direction := if n = 0 then .left else .right

/-- The options of a client that watches. -/
def Options.watching : Options :=
  ⟨[("updateVisuals", .bool true)]⟩

/-- Whether they are these. -/
def Options.areWatching (o : Options) : Bool :=
  match o.entries with
  | [(key, .bool value)] => key == "updateVisuals" && value
  | _ => false

/-- Nothing else are the options of such a client. -/
theorem Options.eq_watching {o : Options} (h : o.areWatching = true) : o = watching := by
  obtain ⟨entries⟩ := o
  unfold areWatching at h
  split at h
  · rename_i key value hentries
    rw [Bool.and_eq_true, beq_iff_eq] at h
    obtain ⟨rfl, rfl⟩ := h
    exact congrArg Options.mk hentries
  · cases h

open Befunge (leftFirst)

/-- A host whose playfield machine has turned to the left once, and a new one whose directions all
lead to the right: the directions to come are the same. -/
theorem Host.exists_turned : ∃ (h₁ h₂ : Host Builtin) (s₁ s₂ : Session Builtin),
    h₁.RestsOn (.standard leftFirst) none s₁ ∧
      h₂.RestsOn (.standard fun _ => .right) none s₂ ∧ s₁.lang = s₂.lang ∧
      s₁.options = s₂.options ∧
      s₁.state.coming leftFirst = s₂.state.coming fun _ => .right := by
  have hfirst : ((new none).handleAll (.standard leftFirst) 9
      [.setLanguage "befunge" .empty, .press .interpret ⟨some "?@", none⟩]).map
      (fun run => (run.2.operation, run.2.session.map fun s =>
        (s.lang, s.options.entries.length, s.state.drawn?))) =
      some (none, some ("befunge", 0, some 1)) := by decide +kernel
  have hsecond : ((new none).handleAll (.standard fun _ => .right) 9
      [.setLanguage "befunge" .empty]).map
      (fun run => (run.2.operation, run.2.session.map fun s =>
        (s.lang, s.options.entries.length, s.state.drawn?))) =
      some (none, some ("befunge", 0, some 0)) := by decide +kernel
  obtain ⟨-, h₁, s₁, -, hr₁, hfacts₁⟩ := exists_restsOn hfirst
  obtain ⟨-, h₂, s₂, -, hr₂, hfacts₂⟩ := exists_restsOn hsecond
  simp only [Prod.mk.injEq] at hfacts₁ hfacts₂
  obtain ⟨hlang₁, hoptions₁, hdrawn₁⟩ := hfacts₁
  obtain ⟨hlang₂, hoptions₂, hdrawn₂⟩ := hfacts₂
  refine ⟨h₁, h₂, s₁, s₂, hr₁, hr₂, hlang₁.trans hlang₂.symm, ?_, ?_⟩
  · exact congrArg Options.mk ((List.eq_nil_of_length_eq_zero hoptions₁).trans
      (List.eq_nil_of_length_eq_zero hoptions₂).symm)
  · unfold Builtin.coming
    rw [hdrawn₁, hdrawn₂]
    rfl

/-- A host whose token machine has a variable and is watched, and a new one that has none: the first
one answers code that deletes another variable. -/
theorem Host.exists_bound : ∃ (h₁ h₂ : Host Builtin) (s₁ s₂ : Session Builtin),
    h₁.RestsOn (.standard leftFirst) none s₁ ∧ h₂.RestsOn (.standard leftFirst) none s₂ ∧
      s₁.lang = s₂.lang ∧ s₁.options = s₂.options ∧
      s₁.state.coming leftFirst = s₂.state.coming leftFirst ∧
      s₁.forgotten ≠ [] ∧ s₂.forgotten = [] ∧
      (h₁.handle (.standard leftFirst) 9 (.press .interpret ⟨some "nan y;", none⟩)).isSome := by
  have hfirst : ((new none).handleAll (.standard leftFirst) 9
      [.setLanguage "element" .watching, .press .interpret ⟨some "5 x;", none⟩]).map
      (fun run => (run.2.operation, run.2.session.map fun s =>
        (s.lang, s.options.areWatching, s.state.drawn?.isNone, s.forgotten.length))) =
      some (none, some ("element", true, true, 1)) := by decide +kernel
  have hanswers : ((new none).handleAll (.standard leftFirst) 9
      [.setLanguage "element" .watching, .press .interpret ⟨some "5 x;", none⟩]).map
      (fun run =>
        (run.2.handle (.standard leftFirst) 9 (.press .interpret ⟨some "nan y;", none⟩)).isSome) =
      some true := by decide +kernel
  have hsecond : ((new none).handleAll (.standard leftFirst) 9
      [.setLanguage "element" .watching]).map
      (fun run => (run.2.operation, run.2.session.map fun s =>
        (s.lang, s.options.areWatching, s.state.drawn?.isNone, s.forgotten.length))) =
      some (none, some ("element", true, true, 0)) := by decide +kernel
  obtain ⟨steps₁, h₁, s₁, hrun₁, hr₁, hfacts₁⟩ := exists_restsOn hfirst
  obtain ⟨-, h₂, s₂, -, hr₂, hfacts₂⟩ := exists_restsOn hsecond
  simp only [Prod.mk.injEq, Option.isNone_iff_eq_none] at hfacts₁ hfacts₂
  obtain ⟨hlang₁, hoptions₁, hdrawn₁, hgone₁⟩ := hfacts₁
  obtain ⟨hlang₂, hoptions₂, hdrawn₂, hgone₂⟩ := hfacts₂
  rw [hrun₁] at hanswers
  refine ⟨h₁, h₂, s₁, s₂, hr₁, hr₂, hlang₁.trans hlang₂.symm,
    (Options.eq_watching hoptions₁).trans (Options.eq_watching hoptions₂).symm, ?_,
    fun hnone => ?_, List.eq_nil_of_length_eq_zero hgone₂, Option.some.inj hanswers⟩
  · unfold Builtin.coming
    rw [hdrawn₁, hdrawn₂]
  · rw [hnone] at hgone₁
    cases hgone₁

/-- A playfield machine that has turned to the left once runs other code as a new one does whose
directions all lead to the right. A token machine that has a variable runs code that deletes one as
a new machine does, but for the update for its own variable. And a line machine in the middle of a
program forgets it. -/
theorem Catalogue.standard_load_forgets_turn :
    (∃ h₁ h₂ s₁ s₂, Host.RestsOn (standard leftFirst) none h₁ s₁ ∧
      Host.RestsOn (standard fun _ => .right) none h₂ s₂ ∧
      s₁.state.coming leftFirst = s₂.state.coming (fun _ => .right) ∧
      Option.Rel (s₁.SameButForgotten s₂)
        ((h₁.handle (standard leftFirst) 9 (.press .interpret ⟨some "?1.@", none⟩)).map Prod.fst)
        ((h₂.handle (standard fun _ => .right) 9 (.press .interpret ⟨some "?1.@", none⟩)).map
          Prod.fst)) ∧
    (∃ h₁ h₂ s₁ s₂, Host.RestsOn (standard leftFirst) none h₁ s₁ ∧
      Host.RestsOn (standard leftFirst) none h₂ s₂ ∧ s₁.forgotten ≠ [] ∧ s₂.forgotten = [] ∧
      (h₁.handle (standard leftFirst) 9 (.press .interpret ⟨some "nan y;", none⟩)).isSome ∧
      Option.Rel (s₁.SameButForgotten s₂)
        ((h₁.handle (standard leftFirst) 9 (.press .interpret ⟨some "nan y;", none⟩)).map Prod.fst)
        ((h₂.handle (standard leftFirst) 9 (.press .interpret ⟨some "nan y;", none⟩)).map
          Prod.fst)) ∧
    ∃ s, (standard leftFirst).machine.Visits (.length (Length.build .empty)) (some "x") s ∧
      (standard leftFirst).machine.ForgetsAt Builtin.still (.length (Length.build .empty))
        (some "x") s := by
  obtain ⟨hforgets, hruns⟩ := standard_load_forgets leftFirst fun _ => .right
  obtain ⟨-, hruns'⟩ := standard_load_forgets leftFirst leftFirst
  refine ⟨?_, ?_, ?_⟩
  · obtain ⟨h₁, h₂, s₁, s₂, hr₁, hr₂, hlang, hoptions, hcoming⟩ := Host.exists_turned
    exact ⟨h₁, h₂, s₁, s₂, hr₁, hr₂, hcoming,
      hruns 9 none h₁ h₂ s₁ s₂ "?1.@" none none hr₁ hr₂ hlang hoptions hcoming⟩
  · obtain ⟨h₁, h₂, s₁, s₂, hr₁, hr₂, hlang, hoptions, hcoming, hgone, hnone, hanswers⟩ :=
      Host.exists_bound
    exact ⟨h₁, h₂, s₁, s₂, hr₁, hr₂, hgone, hnone, hanswers,
      hruns' 9 none h₁ h₂ s₁ s₂ "nan y;" none none hr₁ hr₂ hlang hoptions hcoming⟩
  · have hvisits :
        (standard leftFirst).machine.Visits (.length (Length.build .empty)) (some "x") _ :=
      .stepped (.loaded .made rfl)
    refine ⟨_, hvisits, hforgets ⟨Length.name, fun o => .ok (.length (Length.build o))⟩ ?_ .empty _
      rfl _ _ hvisits⟩
    simp [standard]

end EsotericHost
