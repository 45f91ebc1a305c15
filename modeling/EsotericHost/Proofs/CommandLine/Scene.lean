import EsotericHost.CommandLine.Job

/-!
# Dialogues on a scene

`Surroundings.hold` carries a dialogue out and leaves the surroundings behind. `Dialogue.play` does
the same and says also what has become of them, so that a dialogue can be taken apart where one
part of it goes on with the value of another (`Dialogue.play_bind`). Work, which may fail, ends in a
scene or goes on for ever (`Ends`).
-/

namespace EsotericHost

variable {α β : Type}

/-! ## Dialogues -/

/-- Surroundings with what has been written so far. -/
structure Scene where
  around : Surroundings
  said : String
  complaints : String

/-- What a question is answered in a scene, and the scene after it. -/
def Scene.answer (s : Scene) : (q : Question) → q.Answer × Scene
  | .file path => (s.around.files path, s)
  | .environment => (s.around.environment, s)
  | .wholeInput => (s.around.takeInput.1, { s with around := s.around.takeInput.2 })
  | .nextLine => (s.around.takeLine.1, { s with around := s.around.takeLine.2 })
  | .say text => ((), { s with said := s.said ++ text })
  | .complain text => ((), { s with complaints := s.complaints ++ text })

namespace Dialogue

/-- The value of a dialogue in a scene, and the scene after it. -/
def play : Dialogue α → Scene → Option (α × Scene)
  | done a, s => some (a, s)
  | ask q next, s => (next (s.answer q).1).play (s.answer q).2
  | never, _ => none

/-- To carry a dialogue out is to play it and to leave the surroundings. -/
theorem hold_eq_play (x : Dialogue α) (s : Scene) :
    s.around.hold x s.said s.complaints =
      (x.play s).map fun (a, s) => ⟨s.said, s.complaints, a⟩ := by
  induction x generalizing s with
  | done a => rfl
  | never => rfl
  | ask q next ih =>
    have hnext := ih (s.answer q).1 (s.answer q).2
    cases q <;> exact hnext

/-- A dialogue that goes on is played to its first value, and then from there. -/
theorem play_bind (x : Dialogue α) (f : α → Dialogue β) (s : Scene) :
    (x >>= f).play s = (x.play s).bind fun (a, s) => (f a).play s := by
  change (x.bind f).play s = _
  induction x generalizing s with
  | done a => rfl
  | never => rfl
  | ask q next ih => exact ih _ _

end Dialogue

namespace CommandLine

/-! ## Work -/

/-- Work that is played in a scene gives a result and leaves a scene. -/
def Plays (x : Work α) (s : Scene) (r : Except String α) (s' : Scene) : Prop :=
  x.run.play s = some (r, s')

variable {s s' : Scene}

/-- The second part of work begins in the scene that the first part has left. -/
theorem play_run_bind (x : Work α) (f : α → Work β) (s : Scene) :
    (x >>= f).run.play s = (x.run.play s).bind fun (r, s) => (ExceptT.bindCont f r).play s :=
  Dialogue.play_bind x.run (ExceptT.bindCont f) s

/-- Work goes on with the value that its first part has given. -/
theorem plays_bind {x : Work α} {f : α → Work β} {a : α} {s₁ : Scene} {r : Except String β}
    (hx : Plays x s (.ok a) s₁) : Plays (x >>= f) s r s' ↔ Plays (f a) s₁ r s' := by
  have hfirst : x.run.play s = some (.ok a, s₁) := hx
  unfold Plays
  rw [play_run_bind, hfirst]
  rfl

/-- Work does not go on after a failure. -/
theorem plays_bind_of_error {x : Work α} {e : String} (hx : Plays x s (.error e) s')
    (f : α → Work β) : Plays (x >>= f) s (.error e) s' := by
  have hfirst : x.run.play s = some (.error e, s') := hx
  unfold Plays
  rw [play_run_bind, hfirst]
  rfl

/-- Work that is played in a scene comes to an end. -/
def Ends (x : Work α) (s : Scene) : Prop := ∃ r s', Plays x s r s'

/-- Work has a report just if it comes to an end. -/
theorem ends_iff_report {x : Work α} :
    Ends x s ↔ ∃ report, s.around.hold x.run s.said s.complaints = some report := by
  rw [Dialogue.hold_eq_play]
  constructor
  · rintro ⟨r, s', hx⟩
    exact ⟨_, Option.map_eq_some_iff.mpr ⟨_, hx, rfl⟩⟩
  · rintro ⟨report, hreport⟩
    obtain ⟨⟨r, s'⟩, hx, -⟩ := Option.map_eq_some_iff.mp hreport
    exact ⟨r, s', hx⟩

/-- Work ends if it does from where its first part has come to. -/
theorem ends_bind {x : Work α} {f : α → Work β} {a : α} {s₁ : Scene}
    (hx : Plays x s (.ok a) s₁) : Ends (x >>= f) s ↔ Ends (f a) s₁ :=
  exists_congr fun _ => exists_congr fun _ => plays_bind hx

/-- Work with more to follow, which always ends, ends if it does without that. -/
theorem ends_bind_iff {x : Work α} {f : α → Work β} (hf : ∀ a s, Ends (f a) s) :
    Ends (x >>= f) s ↔ Ends x s := by
  constructor
  · rintro ⟨r, s', h⟩
    unfold Plays at h
    rw [play_run_bind] at h
    obtain ⟨⟨first, s₁⟩, hfirst, -⟩ := Option.bind_eq_some_iff.mp h
    exact ⟨first, s₁, hfirst⟩
  · rintro ⟨first, s₁, hfirst⟩
    cases first with
    | ok a => exact (ends_bind hfirst).mpr (hf a s₁)
    | error e => exact ⟨.error e, s₁, plays_bind_of_error hfirst f⟩

/-- Work that goes on with the answer of a host ends only if there is one. -/
theorem ends_answered {a : Option α} {f : α → Work β} :
    Ends (answered a >>= f) s ↔ ∃ value, a = some value ∧ Ends (f value) s := by
  cases a with
  | none => exact ⟨fun ⟨_, _, h⟩ => (nomatch h), fun ⟨_, h, _⟩ => (nomatch h)⟩
  | some value =>
    have hanswered : Plays (answered (some value)) s (.ok value) s := rfl
    rw [ends_bind hanswered]
    simp only [Option.some.injEq, exists_eq_left']

/-- A file that holds a text is read. -/
theorem plays_readSource {file source : String} (hfile : s.around.files file = .text source) :
    Plays (readSource file) s (.ok source) s := by
  have hask : Plays (ask (.file file)) s (.ok (s.around.files file)) s := rfl
  refine (plays_bind hask).mpr ?_
  rw [hfile]
  rfl

/-- Events that are shown change nothing in the surroundings. -/
theorem plays_showEvents (events : List Event) (s : Scene) :
    ∃ s', Plays (events.forM showEvent) s (.ok ()) s' ∧ s'.around = s.around := by
  induction events generalizing s with
  | nil => exact ⟨s, rfl, rfl⟩
  | cons e rest ih =>
    have hone : ∃ s₁, Plays (showEvent e) s (.ok ()) s₁ ∧ s₁.around = s.around := by
      cases e <;> exact ⟨_, rfl, rfl⟩
    obtain ⟨s₁, hshown, haround⟩ := hone
    obtain ⟨s', hrest, hrests⟩ := ih s₁
    exact ⟨s', (plays_bind hshown).mpr hrest, hrests.trans haround⟩

end CommandLine

end EsotericHost
