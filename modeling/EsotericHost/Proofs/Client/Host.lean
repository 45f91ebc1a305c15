import EsotericHost.Proofs.Client.Basic

/-!
# What a watcher knows of the machine in use

A host of the built-in languages has one of four machines in use. A relation between a watcher and
the states of one of them that all calls of that machine keep holds after every run of commands, for
the watcher that has seen all that was told since the machine was made
(`Builtin.shown_of_handleAll`).
-/

namespace EsotericHost

variable {σ τ W F : Type} {Source : String → Prop}

/-- What a session goes through in one cast of its machine, it goes through in another. -/
theorem Machine.Cast.history {m : Machine σ} {n : Machine τ} {f : τ → σ} (hm : m.Cast n f)
    (hmemory : ∀ s, m.memory (f s) = n.memory s) {s : Session τ} {t : Session σ}
    {strides : List (Session σ)} {events : List Event}
    (hx : (s.over f).History m Source strides events t) :
    ∃ rows u, strides = rows.map (Session.over f) ∧ t = Session.over f u ∧
      s.History n Source rows events u := by
  induction hx with
  | start => exact ⟨[], s, rfl, rfl, .start⟩
  | said before outward ih =>
    obtain ⟨rows, u, hrows, hu, hhistory⟩ := ih
    exact ⟨rows, u, hrows, hu, hhistory.said outward⟩
  | shown before ih =>
    obtain ⟨rows, u, hrows, rfl, hhistory⟩ := ih
    have hcreated : (u.over f).createdEvent m = u.createdEvent n := by
      unfold Session.createdEvent Session.over
      rw [hmemory]
    rw [hcreated]
    exact ⟨rows, u, hrows, rfl, hhistory.shown⟩
  | reset before ih =>
    obtain ⟨rows, u, hrows, rfl, hhistory⟩ := ih
    obtain ⟨-, hleft, htold⟩ := hm.call_over hm.reset u
    rw [htold]
    exact ⟨rows, _, hrows, hleft, hhistory.reset⟩
  | called before call reports ih =>
    obtain ⟨rows, u, rfl, rfl, hhistory⟩ := ih
    cases call with
    | load given =>
      obtain ⟨hresult, hleft, htold⟩ := hm.call_over (hm.session_load _) u
      rw [htold]
      exact ⟨rows ++ [], _, by simp, hleft, hhistory.called (.load given) (hresult ▸ reports)⟩
    | step =>
      obtain ⟨hresult, hleft, htold⟩ := hm.call_over hm.step u
      rw [htold]
      exact ⟨rows ++ [u], _, by simp, hleft, hhistory.called .step (hresult ▸ reports)⟩
    | resume input =>
      obtain ⟨hresult, hleft, htold⟩ := hm.call_over (hm.resume input) u
      rw [htold]
      exact ⟨rows ++ [], _, by simp, hleft, hhistory.called (.resume input) (hresult ▸ reports)⟩

namespace Builtin

variable {draw : Nat → Befunge.Direction} {bound : Nat} {limit : Option Nat}

/-- The language of a machine. -/
def language : Builtin → String :=
  ask (fun _ => Befunge.name) (fun _ => Brainfuck.name) (fun _ => Element.name)
    (fun _ => Length.name)

/-- The machine of a language, which the built-in machines are in the states that `f` gives. -/
structure Copies (draw : Nat → Befunge.Direction) (n : Machine τ) (f : τ → Builtin)
    (lang : String) : Prop where
  cast : (machine draw).Cast n f
  memory : ∀ s, (machine draw).memory (f s) = n.memory s
  injective : Function.Injective f
  language : ∀ b : Builtin, b.language = lang ↔ ∃ s, f s = b

/-- The field machine among the built-in ones. -/
theorem copies_befunge : Copies draw (Befunge.machine draw) befunge Befunge.name where
  cast := { mirrors_befunge draw with portray := fun _ => rfl }
  memory _ := rfl
  injective _ _ := befunge.inj
  language b := by cases b <;> simp [Builtin.language, ask] <;> decide

/-- The tape machine among the built-in ones. -/
theorem copies_brainfuck : Copies draw Brainfuck.machine brainfuck Brainfuck.name where
  cast := cast_brainfuck draw
  memory _ := rfl
  injective _ _ := brainfuck.inj
  language b := by cases b <;> simp [Builtin.language, ask] <;> decide

/-- The token machine among the built-in ones. -/
theorem copies_element : Copies draw Element.machine element Element.name where
  cast := cast_element draw
  memory _ := rfl
  injective _ _ := element.inj
  language b := by cases b <;> simp [Builtin.language, ask] <;> decide

/-- The line machine among the built-in ones. -/
theorem copies_length : Copies draw Length.machine length Length.name where
  cast := cast_length draw
  memory _ := rfl
  injective _ _ := length.inj
  language b := by cases b <;> simp [Builtin.language, ask] <;> decide

/-- A machine goes on with its language, whatever it is called for. -/
theorem language_history {s t : Session Builtin} {strides : List (Session Builtin)}
    {events : List Event} (hx : s.History (machine draw) Source strides events t) :
    t.state.language = s.state.language := by
  have hload (source : String) (b : Builtin) :
      (Session.load (machine draw) source b).state.language = b.language := by
    cases b with
    | befunge b => rw [(mirrors_befunge draw).session_load]; rfl
    | brainfuck b => rw [(mirrors_brainfuck draw).session_load]; rfl
    | element b => rw [(mirrors_element draw).session_load]; rfl
    | length b => rw [(mirrors_length draw).session_load]; rfl
  have hchoose {α : Type} (x : Act Upset Befunge.State α) (y : Act Upset Brainfuck.State α)
      (z : Act Upset Element.State α) (v : Act Upset Length.State α) (b : Builtin) :
      (choose x y z v b).state.language = b.language := by
    cases b <;> rfl
  induction hx with
  | start => rfl
  | said before outward ih => exact ih
  | shown before ih => exact ih
  | reset before ih => exact (hchoose _ _ _ _ _).trans ih
  | called before call reports ih =>
    cases call with
    | load given => exact (hload _ _).trans ih
    | step => exact (hchoose _ _ _ _ _).trans ih
    | resume input => exact (hchoose _ _ _ _ _).trans ih

/-- A language of the standard catalogue builds machines of its own name. -/
theorem language_of_build {language : Language Builtin} {options : Options} {b : Builtin}
    (hl : language ∈ (Catalogue.standard draw).languages) (hb : language.build options = .ok b) :
    b.language = language.name := by
  rcases Catalogue.standard_cases hl hb with
    ⟨hname, t, -, rfl⟩ | ⟨hname, t, -, rfl⟩ | ⟨hname, rfl⟩ | ⟨hname, rfl⟩ <;> exact hname.symm

/-- A session that the standard catalogue opens has a machine of its language, made with its
options. -/
theorem built_of_openSession {lang : String} {options : Options} {s : Session Builtin}
    (ho : (Catalogue.standard draw).openSession lang options = .ok s) :
    s.lang = s.state.language ∧ s.state.Built s.options := by
  unfold Catalogue.openSession at ho
  split at ho
  · cases ho
  · rename_i language hfind
    split at ho
    · cases ho
    · rename_i state hbuild
      cases ho
      have hl := List.mem_of_find?_eq_some hfind
      exact ⟨(language_of_build hl hbuild).symm, Catalogue.standard_built hl hbuild⟩

/-- The machine in use has been made with the options of its session, and a relation that all its
calls keep has been kept since then by a watcher of all that was told. -/
theorem shown_of_handleAll {n : Machine τ} {f : τ → Builtin} {lang : String}
    {see : W → Event → W} (mark : F → Builtin → F) {R : F → W → τ → Prop}
    (hf : Copies draw n f lang) (hn : n.Shown lang see (fun k s => mark k (f s)) R)
    {commands : List Command} {steps : List (List Event)} {h : Host Builtin} {s : Session Builtin}
    {state : τ}
    (hrun : (Host.new limit).handleAll (.standard draw) bound commands = some (steps, h))
    (hs : h.session = some s) (hstate : s.state = f state) (hv : s.visualize = true) :
    ∃ start, Built s.options (f start) ∧ ∀ k w, R k w start →
      R (((Catalogue.standard draw).latest [] commands
          ((Host.new limit).stridesAll (.standard draw) bound commands)).foldl
            (fun k s => mark k s.state) k)
        (((Catalogue.standard draw).latest [] commands steps).foldl see w) state := by
  obtain ⟨_, _, opened, hopened, hhistory⟩ :=
    Host.handleAll_history (Catalogue.standard_reliable draw) hrun hs
  obtain ⟨hname, hbuilt⟩ := built_of_openSession hopened
  have hmake := hhistory.make
  have hoptions : s.options = opened.options := by rw [hmake]
  have hvisualize : opened.visualize = true := by rwa [hmake] at hv
  -- The session has been opened with a machine of the same language.
  have hlanguage : opened.state.language = lang := by
    rw [← language_history hhistory, hstate]
    exact (hf.language _).mpr ⟨state, rfl⟩
  obtain ⟨start, hopen⟩ := (hf.language _).mp hlanguage
  obtain ⟨lang', options, capabilities, visualize, state'⟩ := opened
  obtain rfl : f start = state' := hopen
  obtain ⟨rows, u, hrows, hu, hhistory⟩ := hf.cast.history (s := ⟨lang', options, capabilities,
    visualize, start⟩) hf.memory hhistory
  have hlast : u.state = state := hf.injective (by rw [← hstate, hu]; rfl)
  refine ⟨start, hoptions ▸ hbuilt, fun k w hstart => ?_⟩
  rw [hrows, List.foldl_map, ← hlast]
  exact hn.history (hname.trans hlanguage) hvisualize hstart hhistory

end Builtin

end EsotericHost
