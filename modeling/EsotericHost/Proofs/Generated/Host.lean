import EsotericHost.Proofs.Generated.Lines
import EsotericHost.Proofs.Generated.Tape
import EsotericHost.Proofs.Host.Holding
import EsotericHost.Proofs.Rewinding.Host

/-!
# Generated programs on a host

A host that rests on a language which writes programs, and is asked for one that prints a text, can
be given that program to run: the run ends well. What it has printed then is the text, or the text
by way of a cell (`Catalogue.standard_fromText_prints`). A cell that is too narrow for a code point
prints another character (`Catalogue.standard_fromText_not_printed`).
-/

namespace EsotericHost

variable {σ τ : Type}

/-! ## Other casts -/

/-- What a machine performs it performs in every cast. -/
theorem Machine.Cast.performs {m : Machine σ} {n : Machine τ} {f : τ → σ} (hm : m.Cast n f)
    {s : Session τ} {source text : String} (hs : s.Performs n source text) :
    (s.over f).Performs m source text := by
  have hload : Session.load m source (s.over f).state =
      (Session.load n source s.state).mapState f := hm.session_load source s.state
  refine ⟨(congrArg Turn.result hload).trans hs.loads, ?_, ?_⟩
  · rw [hload]
    exact hs.silent
  · have hleft : (s.over f).left (Session.load m source) =
        (s.left (Session.load n source)).over f := by
      unfold Session.left
      rw [hload]
      rfl
    obtain ⟨least, hprints⟩ := hs.prints
    refine ⟨least, fun bound budget hbound hb => ?_⟩
    obtain ⟨budget', s', out, hrun, hout⟩ := hprints bound budget hbound hb
    rw [hleft, hm.run_over, hrun]
    exact ⟨budget', s'.over f, out, rfl, hout⟩

/-! ## The built-in machines -/

namespace Brainfuck

/-- A machine made with some options has their cell type, and a reel with a cell. -/
theorem build_ok {options : Options} {s : State} (hb : build options = .ok s) :
    cellTypeOf options = .ok s.cellType ∧ 1 ≤ s.reelLength := by
  obtain ⟨cellType, reelLength, hc, hr, rfl⟩ := build_eq_ok hb
  exact ⟨hc, reelLengthOf_pos hr⟩

end Brainfuck

namespace Builtin

variable {options : Options}

/-- A line machine is built in one way only. -/
theorem Built.of_length {s : Length.State} (hs : (Builtin.length s).Built options) :
    s = Length.build options := by
  generalize hb : Builtin.length s = b at hs
  cases hs with
  | length => exact Builtin.length.inj hb
  | _ => cases hb

/-- A tape machine is built as its options say. -/
theorem Built.of_brainfuck {s : Brainfuck.State} (hs : (Builtin.brainfuck s).Built options) :
    Brainfuck.build options = .ok s := by
  generalize hb : Builtin.brainfuck s = b at hs
  cases hs with
  | brainfuck build =>
    rw [Builtin.brainfuck.inj hb]
    exact build
  | _ => cases hb

/-- What comes of a text that a machine made with some options is asked to print: a tape machine
stores each character in a cell of its type on the way. -/
inductive Spoken (options : Options) (text : String) : Builtin → String → Prop where
  | length {s : Length.State} : Spoken options text (.length s) text
  | brainfuck {s : Brainfuck.State} {t : Brainfuck.CellType}
    (cellType : Brainfuck.cellTypeOf options = .ok t) :
    Spoken options text (.brainfuck s) (Brainfuck.throughCell t text)

/-- A text whose code points the cells can hold comes out unchanged. -/
theorem Spoken.of_fits {text spoken : String} {s : Builtin} (hs : Spoken options text s spoken)
    (hfits : ∀ t, Brainfuck.cellTypeOf options = .ok t → ∀ c ∈ text.toList,
      t.wrap c.toNat = c.toNat) : spoken = text := by
  cases hs with
  | length => rfl
  | brainfuck cellType => exact Brainfuck.throughCell_of_fits (hfits _ cellType)

/-- A built-in machine that answers a text by a program performs that program, unless it is in debug
mode. -/
theorem performs_fromText (draw : Nat → Befunge.Direction) {s : Session Builtin}
    (hbuilt : s.state.bare.Built options) (hdebug : options.flag "debug" = false)
    {text code : String} (hcode : (machine draw).fromText s.state text = .ok (some code)) :
    ∃ spoken, Spoken options text s.state spoken ∧ s.Performs (machine draw) code spoken := by
  obtain ⟨lang, options', capabilities, visualize, state⟩ := s
  cases state with
  | befunge s => cases hcode
  | element s => cases hcode
  | length s =>
    cases hcode
    -- The options made the debug mode, and nothing changes it.
    have hbare : s.bare = Length.build options := hbuilt.of_length
    have hquiet : s.debug = false := by
      change s.bare.debug = false
      rw [hbare]
      exact hdebug
    exact ⟨text, .length, (cast_length draw).performs
      (Length.performs_ofText ⟨lang, options', capabilities, visualize, s⟩ hquiet text)⟩
  | brainfuck s =>
    cases hcode
    obtain ⟨hcell, hreel⟩ := Brainfuck.build_ok hbuilt.of_brainfuck
    exact ⟨_, .brainfuck hcell, (cast_brainfuck draw).performs
      (Brainfuck.performs_ofText ⟨lang, options', capabilities, visualize, s⟩ hreel text)⟩

end Builtin

/-! ## Hosts -/

namespace Host

variable {c : Catalogue σ} {h : Host σ} {s : Session σ}

/-- The work of a run without a limit that begins with a program is to perform it. -/
theorem codeWork_of_performs {source text : String} (hs : s.Performs c.machine source text)
    (hlimit : (h.beginning .run s.lang).budget.limit = none) :
    ∃ least, ∀ bound, least ≤ bound → ∃ w, h.codeWork c bound s source = some w ∧
      w.rest = .ends .halted ∧ Event.texts w.events = text := by
  obtain ⟨least, hprints⟩ := hs.prints
  refine ⟨least, fun bound hbound => ?_⟩
  obtain ⟨budget, s', out, hrun, hout⟩ := hprints bound _ hbound hlimit
  unfold codeWork Session.toilAfter Session.toil
  rw [hs.loads]
  dsimp only [beginning] at hrun ⊢
  rw [hrun]
  refine ⟨_, rfl, rfl, ?_⟩
  change Event.texts (s.told c.machine (Session.load c.machine source) ++ out.toList) = text
  rw [Event.texts_append, Session.texts_told, hs.silent, String.empty_append,
    ← Transcript.printed_eq, hout]

/-- A host answers a text by a program only if its machine does, and is the same host afterwards. -/
theorem fromText_of_answered {bound : Nat} {args : ButtonArgs} {events : List Event} {h' : Host σ}
    {code : String} (hh : h.Consistent) (hs : h.session = some s)
    (hok : ∃ answer, c.machine.fromText s.state (args.text.getD "") = .ok answer)
    (hx : h.handle c bound (.press .textToCode args) = some (events, h'))
    (hcode : .fromText s.lang code ∈ events) :
    h' = h ∧ c.machine.fromText s.state (args.text.getD "") = .ok (some code) := by
  obtain ⟨answer, hanswer⟩ := hok
  rw [handle_textToCode_ok hh hs hanswer] at hx
  obtain ⟨rfl, rfl⟩ := Prod.mk.inj (Option.some.inj hx)
  refine ⟨rfl, ?_⟩
  rw [hanswer]
  -- Neither a refusal nor the echo of the button is a program.
  unfold askedEvents at hcode
  split at hcode
  · simp only [List.mem_cons, List.not_mem_nil, or_false, reduceCtorEq, false_or,
      Event.fromText.injEq, true_and] at hcode
    rw [hcode]
  · simp only [List.mem_cons, List.not_mem_nil, or_false, reduceCtorEq] at hcode

/-- An idle host without a step limit whose session performs a source runs it to its end with exit
code 0. -/
theorem RestsOn.handle_of_performs {draw : Nat → Befunge.Direction} {h : Host Builtin}
    {s : Session Builtin} (hr : h.RestsOn (.standard draw) none s) {source spoken : String}
    (hs : s.Performs (Builtin.machine draw) source spoken) (text : Option String) :
    ∃ least, ∀ bound, least ≤ bound → ∃ told h',
      h.handle (.standard draw) bound (.press .interpret ⟨some source, text⟩) =
          some (runEvents s.lang (.ends .halted) told, h') ∧ Event.texts told = spoken := by
  obtain ⟨hh, hstep, -, hop⟩ := hr.known
  obtain ⟨least, hwork⟩ := codeWork_of_performs (c := .standard draw) (h := h) hs (by rw [hop]; rfl)
  refine ⟨least, fun bound hbound => ?_⟩
  obtain ⟨w, hw, hrest, htexts⟩ := hwork bound hbound
  have hevents : (h.handle (.standard draw) bound _).map Prod.fst = _ :=
    handle_code (Catalogue.standard_reliable draw) hh hstep hr.idle hr.session source text
  rw [hw, Option.map_some, hrest] at hevents
  obtain ⟨⟨events, h'⟩, hrun, hfst⟩ := Option.map_eq_some_iff.mp hevents
  refine ⟨w.events, h', ?_, htexts⟩
  rw [hrun]
  exact congrArg (fun events => some (events, h')) hfst

/-- The session of a host that rests on it has a machine that its options make. -/
theorem RestsOn.built {draw : Nat → Befunge.Direction} {limit : Option Nat} {h : Host Builtin}
    {s : Session Builtin} (hr : h.RestsOn (.standard draw) limit s) :
    s.state.bare.Built s.options := by
  obtain ⟨-, -, ⟨language, hfind, hbuild, -⟩, -⟩ := hr.known
  exact Catalogue.standard_built (List.mem_of_find?_eq_some hfind) hbuild

end Host

/-- **Generated programs print their text.** An idle host without a step limit, whose session is not
in debug mode and which answers a text by a program, runs that program to its end with exit code 0,
with every bound that is large enough. What the run prints is the text if the machine is one of
lines. If it is one with a tape, each character has been stored in a cell on the way; this is the
text if the code points fit. -/
theorem Catalogue.standard_fromText_prints (draw : Nat → Befunge.Direction) {h h' : Host Builtin}
    {s : Session Builtin} (hr : h.RestsOn (standard draw) none s)
    (hdebug : s.options.flag "debug" = false) {bound : Nat} {args : ButtonArgs}
    {events : List Event} {code : String}
    (hx : h.handle (standard draw) bound (.press .textToCode args) = some (events, h'))
    (hcode : .fromText s.lang code ∈ events) (text : Option String) :
    ∃ least, ∀ bound, least ≤ bound → ∃ told h'',
      h'.handle (standard draw) bound (.press .interpret ⟨some code, text⟩) =
          some (Host.runEvents s.lang (.ends .halted) told, h'') ∧
        Builtin.Spoken s.options (args.text.getD "") s.state (Event.texts told) ∧
        ((∀ t, Brainfuck.cellTypeOf s.options = .ok t → ∀ c ∈ (args.text.getD "").toList,
          t.wrap c.toNat = c.toNat) → Event.texts told = args.text.getD "") := by
  obtain ⟨rfl, hanswer⟩ := Host.fromText_of_answered hr.known.1 hr.session
    (by cases s.state <;> exact ⟨_, rfl⟩) hx hcode
  obtain ⟨spoken, hspoken, hperforms⟩ := Builtin.performs_fromText draw hr.built hdebug hanswer
  obtain ⟨least, hprints⟩ := hr.handle_of_performs hperforms text
  refine ⟨least, fun bound hbound => ?_⟩
  obtain ⟨told, h'', hrun, htold⟩ := hprints bound hbound
  rw [← htold] at hspoken
  exact ⟨told, h'', hrun, hspoken, hspoken.of_fits⟩

/-- A host that has been asked for the tape machine, without options, rests on it, and answers every
text by a program. -/
theorem Host.exists_restsOn_tape (text : String) :
    ∃ (h : Host Builtin) (s : Session Builtin) (events : List Event),
      h.RestsOn (.standard fun _ => .right) none s ∧ s.options = .empty ∧
        (∃ t, s.state = .brainfuck t) ∧
        h.handle (.standard fun _ => .right) 1 (.press .textToCode ⟨none, some text⟩) =
          some (events, h) ∧ .fromText s.lang (Brainfuck.ofText text) ∈ events := by
  have hasked : ((Host.new none).handleAll (.standard fun _ => .right) 1
      [.setLanguage "brainfuck" .empty]).map (fun run => (run.2.operation.isNone,
        run.2.session.map fun s => (s.options.entries.length, s.capabilities.fromText,
          match s.state with | .brainfuck _ => true | _ => false))) =
      some (true, some (0, true, true)) := by
    decide +kernel
  obtain ⟨⟨steps, h⟩, hrun, hfacts⟩ := Option.map_eq_some_iff.mp hasked
  simp only [Prod.mk.injEq, Option.map_eq_some_iff] at hfacts
  obtain ⟨hidle, s, hsession, hlength, hable, htape⟩ := hfacts
  have hr : h.RestsOn (.standard fun _ => .right) none s :=
    ⟨⟨_, _, _, hrun⟩, Option.isNone_iff_eq_none.mp hidle, hsession⟩
  have hoptions : s.options = .empty :=
    congrArg Options.mk (List.eq_nil_of_length_eq_zero hlength)
  cases hstate : s.state with
  | brainfuck t =>
    have hanswer : (Builtin.machine fun _ => .right).fromText s.state text =
        .ok (some (Brainfuck.ofText text)) := by
      rw [hstate]
      rfl
    have hx : h.handle (.standard fun _ => .right) 1 (.press .textToCode ⟨none, some text⟩) = _ :=
      Host.handle_textToCode_ok hr.known.1 hsession hanswer
    rw [hable] at hx
    exact ⟨h, s, _, hr, hoptions, ⟨t, hstate⟩, hx, List.mem_cons_of_mem _ List.mem_cons_self⟩
  | _ =>
    rw [hstate] at htape
    cases htape

/-- Asked to print an exclamation mark, the tape machine that no option changes writes a program
that prints it. -/
theorem Catalogue.standard_fromText_prints_mark :
    ∃ (h h' : Host Builtin) (s : Session Builtin) (bound : Nat) (told : List Event),
      h.RestsOn (standard fun _ => .right) none s ∧
        h.handle (standard fun _ => .right) bound
            (.press .interpret ⟨some (Brainfuck.ofText "!"), none⟩) =
          some (Host.runEvents s.lang (.ends .halted) told, h') ∧ Event.texts told = "!" := by
  obtain ⟨h, s, events, hr, hoptions, -, hx, hcode⟩ := Host.exists_restsOn_tape "!"
  have hdebug : s.options.flag "debug" = false := by
    rw [hoptions]
    rfl
  obtain ⟨least, hprints⟩ := standard_fromText_prints (fun _ => .right) hr hdebug hx hcode none
  obtain ⟨told, h', hinterpret, -, htold⟩ := hprints least (Nat.le_refl least)
  refine ⟨h, h', s, least, told, hr, hinterpret, htold fun t ht c hc => ?_⟩
  rw [hoptions] at ht
  cases ht
  obtain rfl : c = '!' := by simpa using hc
  rfl

/-- A byte has no room for a code point beyond 255: asked to print the letter U+0100, the tape
machine that no option changes writes a program that prints U+0000 instead, and ends well. -/
theorem Catalogue.standard_fromText_not_printed :
    ∃ (h h' : Host Builtin) (s : Session Builtin) (bound : Nat) (events told : List Event)
      (code : String),
      h.RestsOn (standard fun _ => .right) none s ∧ s.options.flag "debug" = false ∧
        h.handle (standard fun _ => .right) 1 (.press .textToCode ⟨none, some "\u0100"⟩) =
          some (events, h) ∧ .fromText s.lang code ∈ events ∧
        h.handle (standard fun _ => .right) bound (.press .interpret ⟨some code, none⟩) =
          some (Host.runEvents s.lang (.ends .halted) told, h') ∧
        Event.texts told = "\u0000" ∧ "\u0000" ≠ "\u0100" := by
  obtain ⟨h, s, events, hr, hoptions, ⟨t, hstate⟩, hx, hcode⟩ := Host.exists_restsOn_tape "\u0100"
  have hdebug : s.options.flag "debug" = false := by
    rw [hoptions]
    rfl
  have hanswer : (Builtin.machine fun _ => .right).fromText s.state "\u0100" =
      .ok (some (Brainfuck.ofText "\u0100")) := by
    rw [hstate]
    rfl
  obtain ⟨spoken, hspoken, hperforms⟩ :=
    Builtin.performs_fromText (fun _ => .right) hr.built hdebug hanswer
  obtain ⟨least, hprints⟩ := hr.handle_of_performs hperforms none
  obtain ⟨told, h', hrun, rfl⟩ := hprints least (Nat.le_refl least)
  refine ⟨h, h', s, least, events, told, _, hr, hdebug, hx, hcode, hrun, ?_, by decide⟩
  rw [hstate, hoptions] at hspoken
  generalize Event.texts told = spoken at hspoken ⊢
  cases hspoken with
  | brainfuck cellType =>
    cases cellType
    decide +kernel

end EsotericHost
