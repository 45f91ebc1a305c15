import EsotericHost.Catalogue.Standard
import EsotericHost.Proofs.Machine.Befunge
import EsotericHost.Proofs.Machine.Brainfuck
import EsotericHost.Proofs.Machine.Element
import EsotericHost.Proofs.Machine.Length

/-!
# The built-in machines are lawful

The four machines as one are lawful because each of them is: a machine that does in the states of
another what the other one does is lawful in these states (`Machine.Mirrors.lawfulAt`). Every
machine that the standard catalogue builds starts in a state in which its invariant holds. So the
host can rely on all of them (`Catalogue.standard_reliable`).
-/

namespace EsotericHost

variable {σ τ : Type}

/-- A machine that does in the states of another machine, seen as its own, what the other does. -/
structure Machine.Mirrors (m : Machine σ) (n : Machine τ) (f : τ → σ) : Prop where
  load : ∀ source s, m.load source (f s) = (n.load source s).mapState f
  reset : ∀ s, m.reset (f s) = (n.reset s).mapState f
  step : ∀ s, m.step (f s) = (n.step s).mapState f
  resume : ∀ input s, m.resume input (f s) = (n.resume input s).mapState f
  minify : ∀ s source, m.minify (f s) source = n.minify s source
  fromText : ∀ s text, m.fromText (f s) text = n.fromText s text

namespace Machine.Mirrors

variable {m : Machine σ} {n : Machine τ} {f : τ → σ}

/-- Loading a program and making it ready to run is mirrored too. -/
theorem session_load (hm : m.Mirrors n f) (source : String) (s : τ) :
    Session.load m source (f s) = (Session.load n source s).mapState f := by
  obtain ⟨t, ht⟩ : ∃ t, n.load source s = t := ⟨_, rfl⟩
  obtain ⟨result, s', effects⟩ := t
  have hload := hm.load source s
  rw [ht] at hload
  unfold Session.load
  cases result with
  | error u => rw [Act.bind_of_error ht, Act.bind_of_error hload]; rfl
  | ok _ => rw [Act.bind_of_ok ht, Act.bind_of_ok hload, hm.reset s']; rfl

variable {Good : σ → Prop} {Good' : τ → Prop} {waits : σ → Option InputKind}
  {waits' : τ → Option InputKind} {α : Type}

/-- A call that has succeeded has also succeeded in the larger state. -/
theorem ready_mapState {t : Turn Upset τ Unit} (hgood : ∀ s, Good' s → Good (f s))
    (hwaits : ∀ s, waits (f s) = waits' s) (ht : t.Ready Good' waits') :
    (t.mapState f).Ready Good waits :=
  ⟨ht.1, hgood _ ht.2.1, (hwaits _).trans ht.2.2⟩

/-- A machine is lawful in the states of a lawful one that it mirrors. -/
theorem lawfulAt (hm : m.Mirrors n f) (hgood : ∀ s, Good' s → Good (f s))
    (hwaits : ∀ s, waits (f s) = waits' s) (hf : Function.Injective f) {s : τ}
    (hs : n.LawfulAt Good' waits' s) : m.LawfulAt Good waits (f s) where
  load_cases source := by
    rw [hm.session_load]
    rcases hs.load_cases source with hready | ⟨fault, hfault⟩
    · exact .inl (ready_mapState hgood hwaits hready)
    · rw [hfault]
      exact .inr ⟨fault, rfl⟩
  reset_ready := by
    rw [hm.reset]
    exact ready_mapState hgood hwaits hs.reset_ready
  step_safe := by
    rw [hm.step]
    exact ⟨hgood _ hs.step_safe.1, hs.step_safe.2⟩
  step_waits := by
    rw [hm.step]
    exact (hwaits _).trans hs.step_waits
  waits_iff kind := by
    rw [hm.step, hwaits, hs.waits_iff]
    constructor
    · intro hstep
      rw [hstep]
      rfl
    · intro hstep
      -- A step seen in the larger state is unchanged there only if it is unchanged in its own.
      obtain ⟨t, ht⟩ : ∃ t, n.step s = t := ⟨_, rfl⟩
      obtain ⟨result, s', effects⟩ := t
      rw [ht] at hstep ⊢
      obtain ⟨hresult, hstate, heffects⟩ := Turn.mk.inj hstep
      rw [Turn.mk.injEq]
      exact ⟨hresult, hf hstate, heffects⟩
  resume_safe input hw := by
    rw [hwaits] at hw
    obtain ⟨⟨hgood', hnone⟩, herror⟩ := hs.resume_safe input hw
    rw [hm.resume]
    exact ⟨⟨hgood _ hgood', (hwaits _).trans hnone⟩, herror⟩
  minify_ok source := by
    rw [hm.minify]
    exact hs.minify_ok source
  fromText_ok text := by
    rw [hm.fromText]
    exact hs.fromText_ok text

end Machine.Mirrors

namespace Builtin

/-- The invariant of the machine that the state belongs to. -/
def Good : Builtin → Prop
  | befunge s => s.Good
  | brainfuck s => s.Good
  | element s => s.Good
  | length _ => True

/-- The input that the machine waits for. -/
def waits : Builtin → Option InputKind
  | befunge s => Befunge.waits s
  | brainfuck s => Brainfuck.waits s
  | element s => Element.waits s
  | length s => Length.waits s

/-- The machine has no program. -/
def Blank : Builtin → Prop
  | befunge s => s.source = .empty ∧ s.grid = .empty
  | brainfuck s => s.program.code = #[]
  | element s => s.program = #[]
  | length s => s.lines = #[]

/-- The machines that options make, each by its own language. -/
inductive Built (options : Options) : Builtin → Prop where
  | befunge {s : Befunge.State} (build : Befunge.build options = .ok s) : Built options (.befunge s)
  | brainfuck {s : Brainfuck.State} (build : Brainfuck.build options = .ok s) :
    Built options (.brainfuck s)
  | element : Built options (.element (Element.build options))
  | length : Built options (.length (Length.build options))

variable (draw : Nat → Befunge.Direction)

/-- The built-in machine in a state of the field machine is the field machine. -/
theorem mirrors_befunge : (machine draw).Mirrors (Befunge.machine draw) befunge :=
  ⟨fun _ _ => rfl, fun _ => rfl, fun _ => rfl, fun _ _ => rfl, fun _ _ => rfl, fun _ _ => rfl⟩

/-- The built-in machine in a state of the tape machine is the tape machine. -/
theorem mirrors_brainfuck : (machine draw).Mirrors Brainfuck.machine brainfuck :=
  ⟨fun _ _ => rfl, fun _ => rfl, fun _ => rfl, fun _ _ => rfl, fun _ _ => rfl, fun _ _ => rfl⟩

/-- The built-in machine in a state of the token machine is the token machine. -/
theorem mirrors_element : (machine draw).Mirrors Element.machine element :=
  ⟨fun _ _ => rfl, fun _ => rfl, fun _ => rfl, fun _ _ => rfl, fun _ _ => rfl, fun _ _ => rfl⟩

/-- The built-in machine in a state of the line machine is the line machine. -/
theorem mirrors_length : (machine draw).Mirrors Length.machine length :=
  ⟨fun _ _ => rfl, fun _ => rfl, fun _ => rfl, fun _ _ => rfl, fun _ _ => rfl, fun _ _ => rfl⟩

/-- The built-in machines are lawful, each in its states. -/
theorem lawful : (machine draw).Lawful Good waits := by
  intro s hs
  cases s with
  | befunge s =>
    exact (mirrors_befunge draw).lawfulAt (fun _ hs => hs) (fun _ => rfl)
      (fun _ _ => befunge.inj) (Befunge.lawful draw s hs)
  | brainfuck s =>
    exact (mirrors_brainfuck draw).lawfulAt (fun _ hs => hs) (fun _ => rfl)
      (fun _ _ => brainfuck.inj) (Brainfuck.lawful s hs)
  | element s =>
    exact (mirrors_element draw).lawfulAt (fun _ hs => hs) (fun _ => rfl)
      (fun _ _ => element.inj) (Element.lawful s hs)
  | length s =>
    exact (mirrors_length draw).lawfulAt (fun _ hs => hs) (fun _ => rfl)
      (fun _ _ => length.inj) (Length.lawful s trivial)

end Builtin

namespace Catalogue

/-- The four languages of the standard catalogue, each with the machine that it builds. -/
theorem standard_cases {draw : Nat → Befunge.Direction} {language : Language Builtin}
    {options : Options} {s : Builtin} (hl : language ∈ (standard draw).languages)
    (hb : language.build options = .ok s) :
    (language.name = Befunge.name ∧ ∃ t, Befunge.build options = .ok t ∧ s = .befunge t) ∨
    (language.name = Brainfuck.name ∧ ∃ t, Brainfuck.build options = .ok t ∧ s = .brainfuck t) ∨
    (language.name = Element.name ∧ s = .element (Element.build options)) ∨
    (language.name = Length.name ∧ s = .length (Length.build options)) := by
  simp only [standard, List.mem_cons, List.not_mem_nil, or_false] at hl
  rcases hl with rfl | rfl | rfl | rfl
  · obtain ⟨t, ht, rfl⟩ := exists_of_map_eq_ok (f := Builtin.befunge) hb
    exact .inl ⟨rfl, t, ht, rfl⟩
  · obtain ⟨t, ht, rfl⟩ := exists_of_map_eq_ok (f := Builtin.brainfuck) hb
    exact .inr (.inl ⟨rfl, t, ht, rfl⟩)
  · cases hb
    exact .inr (.inr (.inl ⟨rfl, rfl⟩))
  · cases hb
    exact .inr (.inr (.inr ⟨rfl, rfl⟩))

/-- A machine that a language of the standard catalogue builds is one of the four. -/
theorem standard_built {draw : Nat → Befunge.Direction} {language : Language Builtin}
    {options : Options} {s : Builtin} (hl : language ∈ (standard draw).languages)
    (hb : language.build options = .ok s) : s.Built options := by
  rcases standard_cases hl hb with
    ⟨-, t, ht, rfl⟩ | ⟨-, t, ht, rfl⟩ | ⟨-, rfl⟩ | ⟨-, rfl⟩
  · exact .befunge ht
  · exact .brainfuck ht
  · exact .element
  · exact .length

/-- Every language of the standard catalogue builds machines that are good and do not wait. -/
theorem standard_builds (draw : Nat → Befunge.Direction) :
    ∀ language ∈ (standard draw).languages, ∀ options s, language.build options = .ok s →
      s.Good ∧ s.waits = none := by
  intro language hl options s hb
  cases standard_built hl hb with
  | befunge build => exact Befunge.build_good build
  | brainfuck build => exact Brainfuck.build_good build
  | element => exact Element.build_good options
  | length => exact ⟨trivial, rfl⟩

/-- Every session that the standard catalogue opens has a machine without a program. -/
theorem standard_blank (draw : Nat → Befunge.Direction) (lang : String) (options : Options)
    (s : Session Builtin) (ho : (standard draw).openSession lang options = .ok s) :
    s.state.Blank := by
  obtain ⟨language, hl, hb, -⟩ := openSession_ok ho
  have hbuilt := standard_built hl hb
  generalize s.state = state at hbuilt ⊢
  cases hbuilt with
  | befunge build => exact Befunge.build_blank build
  | brainfuck build => exact Brainfuck.build_blank build
  | element => rfl
  | length => rfl

/-- The host can rely on the built-in machines. -/
theorem standard_reliable (draw : Nat → Befunge.Direction) :
    (standard draw).Reliable Builtin.Good Builtin.waits :=
  ⟨Builtin.lawful draw, standard_builds draw⟩

end Catalogue

end EsotericHost
