import EsotericHost.Proofs.Rewinding.Host
import EsotericHost.Proofs.Watching.Session

/-!
# Work that is watched differently

Options that differ in one aspect open twin sessions (`Catalogue.standard_open_alike`). Twins do the
same work on an operation: it takes the same strides and comes to rest alike, and its events are
seen alike but for the echoes of the strides, which are woven in (`Woven`). So hosts that are twins
do the same work in the course of a command (`Host.Twin.effort`).
-/

namespace EsotericHost

variable {a : Aspect} {draw : Nat → Befunge.Direction} {bound : Nat} {s t : Session Builtin}
  {h k : Host Builtin} {op : Operation}

/-! ## Sessions that options open -/

namespace Catalogue

/-- The languages whose machines can echo the instructions that they begin. -/
def echoingLanguages : List String := [Befunge.name, Length.name]

/-- The machine of the standard catalogue is the built-in one. -/
theorem standard_machine (draw : Nat → Befunge.Direction) :
    (standard draw).machine = Builtin.machine draw := rfl

/-- Options that differ in one aspect build the same machine, but for its echo. -/
theorem standard_build_alike {language : Language Builtin} {o p : Options}
    (hl : language ∈ (standard draw).languages) (ho : o.Alike a p) :
    language.build p = (language.build o).map (Builtin.recast (p.flag "debug") 0) := by
  have hflag : (p.flag "debug" || o.flag "debug") = p.flag "debug" := by
    cases hdebug : o.flag "debug" with
    | false => exact Bool.or_false _
    | true => rw [ho.echoes_of_flag hdebug]; rfl
  simp only [standard, List.mem_cons, List.not_mem_nil, or_false] at hl
  rcases hl with rfl | rfl | rfl | rfl
  · have hwrap : Befunge.wrapLimitOf p = Befunge.wrapLimitOf o := by
      unfold Befunge.wrapLimitOf
      rw [ho.number_eq (by cases a <;> decide)]
    have hself : p.flag "selfModification" = o.flag "selfModification" :=
      ho.flag_eq (by cases a <;> decide)
    dsimp only
    unfold Befunge.build
    rw [hwrap, hself]
    cases Befunge.wrapLimitOf o with
    | error detail => rfl
    | ok wrapLimit =>
      change Except.ok (Builtin.befunge (.new _ _ _)) =
        Except.ok (Builtin.befunge (.new (p.flag "debug" || o.flag "debug") _ _))
      rw [hflag]
      rfl
  · have hcell : Brainfuck.cellTypeOf p = Brainfuck.cellTypeOf o := by
      unfold Brainfuck.cellTypeOf
      rw [ho.string_eq (by cases a <;> decide)]
    have hreel : Brainfuck.reelLengthOf p = Brainfuck.reelLengthOf o := by
      unfold Brainfuck.reelLengthOf
      rw [ho.number_eq (by cases a <;> decide)]
    have hbuild : Brainfuck.build p = Brainfuck.build o := by
      unfold Brainfuck.build
      rw [hcell, hreel]
    dsimp only
    rw [hbuild]
    cases Brainfuck.build o <;> rfl
  · have hvivify : p.flag "autovivification" = o.flag "autovivification" :=
      ho.flag_eq (by cases a <;> decide)
    dsimp only
    unfold Element.build
    rw [hvivify]
    rfl
  · have hcomments : p.flag "comments" = o.flag "comments" := ho.flag_eq (by cases a <;> decide)
    dsimp only
    unfold Length.build
    rw [hcomments]
    change _ = Except.ok (Builtin.length ⟨_, p.flag "debug" || o.flag "debug", _, _, _, _⟩)
    rw [hflag]

/-- A machine echoes if its options say so and its language has an echo. -/
theorem standard_debug {language : Language Builtin} {o : Options} {s : Builtin}
    (hl : language ∈ (standard draw).languages) (hb : language.build o = .ok s) :
    s.debug = (o.flag "debug" && decide (language.name ∈ echoingLanguages)) := by
  rcases standard_cases hl hb with
    ⟨hname, t, ht, rfl⟩ | ⟨hname, t, -, rfl⟩ | ⟨hname, rfl⟩ | ⟨hname, rfl⟩
  · obtain ⟨limit, -, rfl⟩ := Befunge.build_eq_ok ht
    rw [hname]
    exact (Bool.and_true _).symm
  · rw [hname]
    exact (Bool.and_false _).symm
  · rw [hname]
    exact (Bool.and_false _).symm
  · rw [hname]
    exact (Bool.and_true _).symm

/-- Options that differ in one aspect open twins, or are refused alike. -/
theorem standard_open_alike (draw : Nat → Befunge.Direction) (lang : String) {o p : Options}
    (ho : o.Alike a p) :
    (∃ e, (standard draw).openSession lang o = .error e ∧
        (standard draw).openSession lang p = .error e) ∨
      ∃ s t, (standard draw).openSession lang o = .ok s ∧
        (standard draw).openSession lang p = .ok t ∧ s.Twin a t := by
  unfold openSession
  cases hfind : (standard draw).find? lang with
  | none => exact .inl ⟨_, rfl, rfl⟩
  | some language =>
    have hl := List.mem_of_find?_eq_some hfind
    dsimp only
    rw [standard_build_alike hl ho]
    cases hb : language.build o with
    | error detail => exact .inl ⟨_, rfl, rfl⟩
    | ok state =>
      have hdebug (hs : state.debug = true) : o.flag "debug" = true := by
        rw [standard_debug hl hb] at hs
        exact (Bool.and_eq_true _ _ ▸ hs).1
      refine .inr ⟨_, _, rfl, rfl, rfl, ?_, fun ha => ?_, fun ha => ?_, ?_⟩
      · cases state <;> rfl
      · exact ho.flag_eq (by rw [ha]; decide)
      · -- The echo is as it was, so the machine is the same.
        have hsame : p.flag "debug" = o.flag "debug" := ho.flag_eq (by rw [ha]; decide)
        have halike : o.Alike a o := ⟨fun _ _ => rfl, fun _ hflag => hflag⟩
        have hself := standard_build_alike hl halike
        rw [hb] at hself
        have hstate : state = state.recast (o.flag "debug") 0 := Except.ok.inj hself
        dsimp only
        rw [hsame, ← hstate]
      · exact (Builtin.recast_debug state (p.flag "debug")
          fun hs => ho.echoes_of_flag (hdebug hs)).symm

end Catalogue

/-- A session echoes if its options say so and its language has an echo. -/
theorem Session.Optioned.debug_eq (hs : s.Optioned (.standard draw)) :
    s.state.debug = (s.options.flag "debug" && decide (s.lang ∈ Catalogue.echoingLanguages)) := by
  obtain ⟨language, hfind, hbuild, -, -⟩ := hs
  have hname : language.name = s.lang := by simpa using List.find?_some hfind
  have hbare : s.state.bare.debug = s.state.debug := by cases s.state <;> rfl
  rw [← hbare, ← hname]
  exact Catalogue.standard_debug (List.mem_of_find?_eq_some hfind) hbuild

/-! ## Work on an operation -/

/-- Answers that are related, or none on either side, are related in every weaker way. -/
theorem rel_imp {α β : Type} {r q : α → β → Prop} {x : Option α} {y : Option β}
    (hxy : Option.Rel r x y) (hrq : ∀ a b, r a b → q a b) : Option.Rel q x y := by
  cases hxy with
  | none => exact .none
  | some hr => exact .some (hrq _ _ hr)

/-- Answers that are related, or none on either side, are still so after a function that respects
the relations. -/
theorem rel_map {α β γ δ : Type} {r : α → β → Prop} {q : γ → δ → Prop} {f : α → γ} {g : β → δ}
    {x : Option α} {y : Option β} (hxy : Option.Rel r x y) (hfg : ∀ a b, r a b → q (f a) (g b)) :
    Option.Rel q (x.map f) (y.map g) := by
  cases hxy with
  | none => exact .none
  | some hr => exact .some (hfg _ _ hr)

/-- Events in the course of which a machine takes its strides, and the events of a twin, as they are
seen, into which the echoes of the strides are woven. -/
def Woven (a : Aspect) (m : Machine Builtin) (e : Bool) (strides : List (Session Builtin))
    (events events' : List Event) : Prop :=
  ∃ before after, events = before ++ Session.stridesTold m strides ++ after ∧
    a.seen events' = a.seen (before ++ Session.weave m e strides ++ after)

namespace Woven

variable {m : Machine Builtin} {e : Bool} {strides : List (Session Builtin)}
  {events events' : List Event}

/-- Events without a stride between them are seen alike. -/
theorem of_seen (hseen : a.seen events' = a.seen events) : Woven a m e [] events events' :=
  ⟨events, [], by simp [Session.stridesTold], by simpa [Session.weave] using hseen⟩

/-- More events before and after the strides that are seen alike. -/
theorem within {before before' after after' : List Event} (hw : Woven a m e strides events events')
    (hbefore : a.seen before' = a.seen before) (hafter : a.seen after' = a.seen after) :
    Woven a m e strides (before ++ events ++ after) (before' ++ events' ++ after') := by
  obtain ⟨first, last, hevents, hseen⟩ := hw
  refine ⟨before ++ first, last ++ after, ?_, ?_⟩
  · rw [hevents]
    simp only [List.append_assoc]
  · simp only [Aspect.seen_append, List.append_assoc] at hseen ⊢
    rw [hbefore, hafter, hseen]
    simp only [List.append_assoc]

/-- Without an echo, events and those of a twin are seen alike. -/
theorem seen_eq (hw : Woven a m false strides events events') : a.seen events' = a.seen events := by
  obtain ⟨before, after, hevents, hseen⟩ := hw
  rw [hseen, hevents, Session.weave_false]

end Woven

/-- Stretches of work that come to rest alike, after the same strides. -/
structure Stretch.Twin (a : Aspect) (m : Machine Builtin) (e : Bool)
    (strides : List (Session Builtin)) (u v : Stretch Builtin) : Prop where
  rest : v.rest = u.rest
  budget : v.budget = u.budget
  session : u.session.Twin a v.session
  events : Woven a m e strides u.events v.events

namespace Session.Twin

variable {act : Act Upset Builtin Unit}

/-- Twins work alike on an operation. -/
theorem toil (hst : s.Twin a t) (bound : Nat) (op : Operation) :
    Option.Rel
      (Stretch.Twin a (Builtin.machine draw) (s.echoing t)
        (s.toilStrides (Builtin.machine draw) bound op))
      (s.toil (Builtin.machine draw) bound op) (t.toil (Builtin.machine draw) bound op) := by
  unfold Session.toil toilStrides
  cases op.task with
  | run =>
    dsimp only
    have hrun := hst.run draw bound op.budget #[] #[]
    generalize hhere : Session.run (Builtin.machine draw) bound op.budget s #[] = here at hrun ⊢
    generalize Session.run (Builtin.machine draw) bound op.budget t #[] = there at hrun ⊢
    cases hrun with
    | none => exact .none
    | some hr =>
      rename_i x y
      obtain ⟨answer, budget, s', out⟩ := x
      obtain ⟨answer', budget', t', told⟩ := y
      obtain ⟨rfl, rfl, htwin, more, rfl, hseen⟩ := hr
      refine .some ⟨congrArg (Rest.ofAnswer · answer') htwin.lang, rfl, htwin, [], [], ?_, ?_⟩
      · simp [told_of_run hhere]
      · simpa using hseen
  | step =>
    have hstep := Builtin.echoes_step draw
    refine .some ⟨by rw [hst.lang, hst.result_eq hstep], rfl, hst.left hstep, [], [], ?_, ?_⟩
    · simp [stridesTold]
    · simpa [weave] using hst.told_call draw hstep

/-- Twins work alike after a call without an echo that prepares the work. -/
theorem toilAfter (hst : s.Twin a t) (op : Operation) (error : Fault → HostError)
    (hact : Builtin.Silent act) {next : Session Builtin → Option (Stretch Builtin)}
    {strides : Session Builtin → List (Session Builtin)}
    (hnext : ∀ s t, s.Twin a t → Option.Rel
      (Stretch.Twin a (Builtin.machine draw) (s.echoing t) (strides s)) (next s) (next t)) :
    Option.Rel
      (Stretch.Twin a (Builtin.machine draw) (s.echoing t) (s.stridesAfter act strides))
      (s.toilAfter (Builtin.machine draw) op error act next)
      (t.toilAfter (Builtin.machine draw) op error act next) := by
  have htold := hst.told_silent draw hact
  have hleft := hst.left hact
  unfold Session.toilAfter stridesAfter
  rw [hst.result_eq hact]
  cases (act s.state).result with
  | error upset => exact .some ⟨rfl, rfl, hleft, Woven.of_seen htold⟩
  | ok _ =>
    dsimp only
    have hlater := hnext _ _ hleft
    rw [echoing_left hact] at hlater
    refine rel_map hlater fun u v hw => ⟨hw.rest, hw.budget, hw.session, ?_⟩
    have hwithin := hw.events.within htold (rfl : a.seen [] = a.seen [])
    rwa [List.append_nil, List.append_nil] at hwithin

end Session.Twin

/-! ## Hosts -/

/-- Hosts that differ in nothing but what the client sees of the machine in use. -/
structure Host.Twin (a : Aspect) (h k : Host Builtin) : Prop where
  stepLimit : k.stepLimit = h.stepLimit
  session : Option.Rel (Session.Twin a) h.session k.session
  held : k.held = h.held
  activity : k.activity = h.activity
  request : k.request = h.request
  operation : k.operation = h.operation

/-- Whether a host echoes the instructions that its twin does not. -/
def Host.echoing (h k : Host Builtin) : Bool :=
  match h.session, k.session with
  | some s, some t => s.echoing t
  | _, _ => false

/-- Work in the course of a command that comes to rest alike. -/
structure Effort.Twin (a : Aspect) (m : Machine Builtin) (e : Bool)
    (strides : List (Session Builtin)) (f g : Effort Builtin) : Prop where
  operation : g.operation = f.operation
  labels : g.labels = f.labels
  opening : g.opening = f.opening
  stretch : f.stretch.Twin a m e strides g.stretch

namespace Host.Twin

/-- Hosts that are twins have both no session, or sessions that are twins. -/
theorem sessions (hhk : h.Twin a k) :
    (h.session = none ∧ k.session = none) ∨
      ∃ s t, h.session = some s ∧ k.session = some t ∧ s.Twin a t := by
  have hs := hhk.session
  generalize h.session = here at hs ⊢
  generalize k.session = there at hs ⊢
  cases hs with
  | none => exact .inl ⟨rfl, rfl⟩
  | some hst => exact .inr ⟨_, _, rfl, rfl, hst⟩

/-- Twins begin the same operation. -/
theorem beginning_eq (hhk : h.Twin a k) (task : Task) (lang : String) :
    k.beginning task lang = h.beginning task lang := by
  unfold beginning
  rw [hhk.activity, hhk.stepLimit]

/-- Twins take the same labels away when a request is answered. -/
theorem answeredLabels_eq (hhk : h.Twin a k) (popStatus : Bool) :
    k.answeredLabels popStatus = h.answeredLabels popStatus := by
  unfold answeredLabels
  rw [hhk.activity]

/-- Twins do the same work on an operation that begins. -/
theorem beginEffort (hhk : h.Twin a k) (hst : s.Twin a t) (task : Task) {echo : List Event}
    {m : Machine Builtin} {strides : List (Session Builtin)}
    {work work' : Operation → Option (Stretch Builtin)}
    (hwork : Option.Rel (Stretch.Twin a m (s.echoing t) strides)
      (work (h.beginning task s.lang)) (work' (h.beginning task s.lang))) :
    Option.Rel (Effort.Twin a m (s.echoing t) strides)
      (h.beginEffort task s echo work) (k.beginEffort task t echo work') := by
  unfold Host.beginEffort
  rw [hst.lang, hhk.beginning_eq, hhk.activity]
  exact rel_map hwork fun u v hw => ⟨rfl, rfl, rfl, hw⟩

/-- A question ends the operation in flight of both twins or of neither. -/
theorem crashEffort (hhk : h.Twin a k) (hst : s.Twin a t) (m : Machine Builtin)
    (supported : Bool) (answer : Except Crash (Option String)) :
    Option.Rel (Effort.Twin a m (s.echoing t) [])
      (h.crashEffort s supported answer) (k.crashEffort t supported answer) := by
  unfold Host.crashEffort
  rw [hhk.operation, hhk.activity]
  split
  · exact .some ⟨rfl, rfl, rfl, rfl, rfl, hst, Woven.of_seen rfl⟩
  · exact .none

/-- Without a session no command has work done. -/
theorem effort?_of_none {h : Host Builtin} (hs : h.session = none) (bound : Nat)
    (command : Command) : h.effort? (.standard draw) bound command = none := by
  cases command with
  | press button args =>
    cases button with
    | interpret | step => cases hop : h.operation <;> simp only [effort?, hs, hop]
    | minify | textToCode => simp only [effort?, hs, Option.bind_none]
    | reset => rfl
  | unblock value popStatus => cases hop : h.operation <;> simp only [effort?, hs, hop]
  | setLanguage lang options => rfl
  | loadCode source => rfl

section

variable (hhk : h.Twin a k) (hs : h.session = some s) (ht : k.session = some t) (hst : s.Twin a t)
  (bound : Nat)
include hhk hs ht hst

/-- Twins do the same work for a program that is run. -/
theorem effort_interpret (args : ButtonArgs) :
    Option.Rel
      (Effort.Twin a (Builtin.machine draw) (s.echoing t)
        (h.strides (.standard draw) bound (.press .interpret args)))
      (h.effort? (.standard draw) bound (.press .interpret args))
      (k.effort? (.standard draw) bound (.press .interpret args)) := by
  simp only [effort?, strides, hs, ht, hhk.operation]
  cases h.operation with
  | some op => exact .none
  | none =>
    dsimp only
    rw [hst.lang]
    refine hhk.beginEffort hst .run ?_
    cases args.code with
    | none => exact hst.toil bound _
    | some source =>
      exact hst.toilAfter _ _ (Builtin.silent_load draw source) fun s t hst => hst.toil bound _

/-- Twins do the same work for a step. -/
theorem effort_step (args : ButtonArgs) :
    Option.Rel
      (Effort.Twin a (Builtin.machine draw) (s.echoing t)
        (h.strides (.standard draw) bound (.press .step args)))
      (h.effort? (.standard draw) bound (.press .step args))
      (k.effort? (.standard draw) bound (.press .step args)) := by
  simp only [effort?, strides, hs, ht, hhk.operation]
  cases h.operation with
  | some op => exact .none
  | none =>
    dsimp only
    rw [hst.capabilities]
    split
    · refine hhk.beginEffort hst .step ?_
      exact hst.toil bound (h.beginning .step s.lang)
    · exact .none

/-- Twins do the same work for an answer. -/
theorem effort_unblock (value : Json) (popStatus : Bool) :
    Option.Rel
      (Effort.Twin a (Builtin.machine draw) (s.echoing t)
        (h.strides (.standard draw) bound (.unblock value popStatus)))
      (h.effort? (.standard draw) bound (.unblock value popStatus))
      (k.effort? (.standard draw) bound (.unblock value popStatus)) := by
  cases hr : Request.resolve h.request value with
  | error e =>
    simp only [effort?, strides, hs, ht, hhk.operation, hhk.request, hr]
    cases h.operation <;> exact .none
  | ok answer =>
    obtain ⟨kind, input⟩ := answer
    simp only [effort?, strides, hs, ht, hhk.operation, hhk.request, hr]
    cases h.operation with
    | none => exact .none
    | some op =>
      dsimp only
      rw [hst.lang, hhk.answeredLabels_eq]
      refine rel_map (hst.toilAfter op (.failed s.lang) (Builtin.silent_resume draw input) ?_)
        fun u v hw => ⟨rfl, rfl, rfl, hw⟩
      intro s t hst
      cases op.task with
      | run => exact hst.toil bound op
      | step => exact .some ⟨rfl, rfl, hst, Woven.of_seen rfl⟩

end

/-- Twins do the same work in the course of a command. -/
theorem effort (hhk : h.Twin a k) (bound : Nat) (command : Command) :
    Option.Rel
      (Effort.Twin a (Builtin.machine draw) (h.echoing k)
        (h.strides (.standard draw) bound command))
      (h.effort? (.standard draw) bound command) (k.effort? (.standard draw) bound command) := by
  rcases hhk.sessions with ⟨hs, ht⟩ | ⟨s, t, hs, ht, hst⟩
  · rw [effort?_of_none hs, effort?_of_none ht]
    exact .none
  have hechoing : h.echoing k = s.echoing t := by
    unfold echoing
    rw [hs, ht]
  rw [hechoing]
  cases command with
  | press button args =>
    cases button with
    | interpret => exact hhk.effort_interpret hs ht hst bound args
    | step => exact hhk.effort_step hs ht hst bound args
    | minify =>
      simp only [effort?, strides, hs, ht, Option.bind_some]
      rw [hst.capabilities, Catalogue.standard_machine, hst.minify_eq]
      exact hhk.crashEffort hst _ _ _
    | textToCode =>
      simp only [effort?, strides, hs, ht, Option.bind_some]
      rw [hst.capabilities, Catalogue.standard_machine, hst.fromText_eq]
      exact hhk.crashEffort hst _ _ _
    | reset => exact .none
  | unblock value popStatus => exact hhk.effort_unblock hs ht hst bound value popStatus
  | setLanguage lang options => exact .none
  | loadCode source => exact .none

end Host.Twin

/-- The events of twins' work are seen alike, but for the echoes. -/
theorem Effort.Twin.woven {e : Bool} {strides : List (Session Builtin)} {f g : Effort Builtin}
    (hfg : f.Twin a (Builtin.machine draw) e strides g) (held : Option String) :
    Woven a (Builtin.machine draw) e strides (f.events (Builtin.machine draw) held)
      (g.events (Builtin.machine draw) held) := by
  refine hfg.stretch.events.within (by rw [hfg.opening]) ?_
  rw [hfg.stretch.rest, hfg.labels, hfg.operation]
  cases f.stretch.rest with
  | waits kind => rfl
  | ends ending =>
    dsimp only
    rw [Aspect.seen_append, Aspect.seen_append _ (f.stretch.session.heldEvents _ _),
      hfg.stretch.session.seen_heldEvents]

/-- Twins that work alike are twins after the work. -/
theorem Effort.Twin.leaves {e : Bool} {strides : List (Session Builtin)} {f g : Effort Builtin}
    (hfg : f.Twin a (Builtin.machine draw) e strides g) (hhk : h.Twin a k) :
    (f.leaves (Builtin.machine draw) h).Twin a (g.leaves (Builtin.machine draw) k) := by
  unfold Effort.leaves
  rw [hfg.stretch.rest, hfg.labels, hfg.operation, hfg.stretch.budget, hhk.held]
  cases f.stretch.rest with
  | waits kind =>
    exact ⟨hhk.stepLimit, .some hfg.stretch.session, rfl, rfl, rfl, rfl⟩
  | ends ending =>
    exact ⟨hhk.stepLimit, .some (hfg.stretch.session.withHeld draw h.held), rfl, rfl, rfl, rfl⟩

end EsotericHost
