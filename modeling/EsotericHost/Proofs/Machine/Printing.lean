import EsotericHost.Proofs.Host.Unfolding
import EsotericHost.Text.Scalar

/-!
# What is printed

The text printed in the course of a transcript grows by what each call prints, and what a call
prints is told by its effects alone, whether the client watches or not. The same holds of the texts
one by one (`Session.prints_events`).
-/

namespace EsotericHost

/-- A result that is there is a success. -/
theorem eq_ok_of_toOption {ε α : Type} {result : Except ε α} {a : α}
    (h : result.toOption = some a) : result = .ok a := by
  cases result with
  | ok b => exact congrArg Except.ok (Option.some.inj h)
  | error e => cases h

/-- A character has its own code point. -/
theorem Text.charOfCode_toNat (c : Char) : Text.charOfCode c.toNat = c := by
  have hvalid : 0 ≤ (c.toNat : Int) ∧ (c.toNat : Int).toNat.isValidChar :=
    ⟨Int.natCast_nonneg _, c.valid⟩
  rw [Text.charOfCode, if_pos hvalid]
  exact Char.ofNat_toNat c

/-- The text that some events print. -/
def Event.texts : List Event → String
  | [] => ""
  | .print text :: events => text ++ texts events
  | _ :: events => texts events

/-- The text that some effects print. -/
def Effect.texts : List Effect → String
  | [] => ""
  | .print text :: effects => text ++ texts effects
  | .notify _ :: effects => texts effects

/-- Where there are no events, no text is printed. -/
@[simp] theorem Event.texts_nil : texts [] = "" := rfl

/-- The text that is printed first comes before that of the other events. -/
@[simp] theorem Event.texts_print (text : String) (events : List Event) :
    texts (.print text :: events) = text ++ texts events := rfl

/-- Events that print nothing are passed over. -/
theorem Event.texts_updates (updates : List Update) (events : List Event) :
    texts (updates.map .update ++ events) = texts events := by
  induction updates with
  | nil => rfl
  | cons u updates ih => exact ih

/-- The texts of two rows of events are printed one after the other. -/
theorem Event.texts_append (first second : List Event) :
    texts (first ++ second) = texts first ++ texts second := by
  induction first with
  | nil => rw [List.nil_append, texts_nil, String.empty_append]
  | cons e first ih =>
    cases e with
    | print text => rw [List.cons_append, texts_print, texts_print, ih, String.append_assoc]
    | _ => exact ih

/-- The texts of two rows of effects are printed one after the other. -/
theorem Effect.texts_append (first second : List Effect) :
    texts (first ++ second) = texts first ++ texts second := by
  induction first with
  | nil => rw [List.nil_append, texts, String.empty_append]
  | cons e first ih =>
    cases e with
    | print text => rw [List.cons_append, texts, texts, ih, String.append_assoc]
    | notify notice => exact ih

/-- What a transcript has printed comes before what is added to it prints. -/
theorem Transcript.printed_append (out : Transcript) (events : List Event) :
    Transcript.printed (out ++ events) = Transcript.printed out ++ Event.texts events := by
  unfold Transcript.printed
  rw [← Array.foldl_toList, ← Array.foldl_toList, Array.toList_appendList, List.foldl_append]
  generalize out.toList.foldl _ "" = printed
  induction events generalizing printed with
  | nil => rw [List.foldl_nil, Event.texts_nil, String.append_empty]
  | cons e events ih =>
    rw [List.foldl_cons, ih]
    cases e with
    | print text => rw [Event.texts_print, String.append_assoc]
    | _ => rfl

/-- What a transcript has printed is what its events print. -/
theorem Transcript.printed_eq (out : Transcript) : out.printed = Event.texts out.toList := by
  have hempty : (#[] : Transcript) ++ out.toList = out := by simp
  calc out.printed
    _ = Transcript.printed (#[] ++ out.toList) := by rw [hempty]
    _ = "" ++ Event.texts out.toList := printed_append _ _
    _ = Event.texts out.toList := String.empty_append

variable {σ : Type}

/-- The events of a call print what its effects print. -/
theorem Session.texts_events (m : Machine σ) (s : Session σ) (effects : List Effect) :
    Event.texts (s.events m effects) = Effect.texts effects := by
  unfold events
  induction effects with
  | nil => rfl
  | cons e effects ih =>
    rw [List.flatMap_cons, Event.texts_append, ih]
    cases e with
    | print text => rw [Effect.texts, Effect.events, Event.texts_print, Event.texts_nil,
        String.append_empty]
    | notify notice =>
      rw [Effect.texts, Effect.events]
      split
      · rw [← List.append_nil (List.map _ _), Event.texts_updates, Event.texts_nil,
          String.empty_append]
      · rw [Event.texts_nil, String.empty_append]

/-- A call prints what its effects print. -/
theorem Session.texts_told {α : Type} (m : Machine σ) (act : Act Upset σ α) (s : Session σ) :
    Event.texts (s.told m act) = Effect.texts (act s.state).effects :=
  texts_events m _ _

/-- A run stops with a step that makes no progress, without an effect of it. -/
theorem Session.run_of_quiet {m : Machine σ} {s : Session σ} {state : σ}
    {answer : Except Upset Outcome} (hstep : m.step s.state = ⟨answer, state, []⟩)
    (hanswer : answer ≠ .ok .progressed) (bound : Nat) (budget : Budget) (out : Transcript) :
    s.run m (bound + 1) budget out = some (answer, budget, { s with state }, out) := by
  have hresult : (m.step s.state).result = answer := by rw [hstep]
  have htold : s.told m m.step = [] := by
    rw [told, hstep]
    rfl
  rw [run_of_rest budget bound out (by rwa [hresult]), hresult, htold, Array.appendList_nil, left,
    hstep]

/-- A machine that runs to its end, with every bound that is large enough, and prints a text on the
way. -/
def Session.Prints (m : Machine σ) (s : Session σ) (text : String) : Prop :=
  ∃ least, ∀ bound budget, least ≤ bound → budget.limit = none →
    ∃ budget' s' out, s.run m bound budget #[] = some (.ok .halted, budget', s', out) ∧
      Transcript.printed out = text

/-- A session whose machine loads a source without printing anything, runs it to its end and prints
a text on the way. -/
structure Session.Performs (m : Machine σ) (s : Session σ) (source text : String) : Prop where
  loads : (Session.load m source s.state).result = .ok ()
  silent : Effect.texts (Session.load m source s.state).effects = ""
  prints : (s.left (Session.load m source)).Prints m text

/-! ## Texts one by one -/

/-- The texts that some events print. -/
def Event.prints (events : List Event) : List String :=
  events.filterMap fun
    | .print text => some text
    | _ => none

/-- The texts that some effects print. -/
def Effect.prints (effects : List Effect) : List String :=
  effects.filterMap fun
    | .print text => some text
    | .notify _ => none

/-- The texts that two rows of events print are those of the first and those of the second. -/
theorem Event.prints_append (first second : List Event) :
    prints (first ++ second) = prints first ++ prints second :=
  List.filterMap_append

/-- The texts that two rows of effects print are those of the first and those of the second. -/
theorem Effect.prints_append (first second : List Effect) :
    prints (first ++ second) = prints first ++ prints second :=
  List.filterMap_append

/-- Updates print nothing. -/
theorem Event.prints_updates (updates : List Update) : prints (updates.map .update) = [] := by
  induction updates with
  | nil => rfl
  | cons u updates ih => exact ih

/-- Events print one text after the other. -/
theorem Event.texts_eq_join (events : List Event) : texts events = String.join (prints events) := by
  induction events with
  | nil => rfl
  | cons e events ih =>
    cases e with
    | print text =>
      have hprints : prints (.print text :: events) = text :: prints events := rfl
      rw [texts_print, hprints, String.join_cons, ih]
    | _ => exact ih

/-- Texts of one character each, put together. -/
theorem join_single (cs : List Char) : String.join (cs.map Text.single) = String.ofList cs := by
  induction cs with
  | nil => rfl
  | cons c cs ih =>
    rw [List.map_cons, String.join_cons, ih, Text.single, ← String.ofList_append]
    rfl

/-- The events of a call print one by one what its effects print. -/
theorem Session.prints_events (m : Machine σ) (s : Session σ) (effects : List Effect) :
    Event.prints (s.events m effects) = Effect.prints effects := by
  unfold events
  induction effects with
  | nil => rfl
  | cons e effects ih =>
    rw [List.flatMap_cons, Event.prints_append, ih]
    cases e with
    | print text => rfl
    | notify notice =>
      have hquiet : Event.prints (Effect.events s.visualize (m.portray s.state) (.notify notice)) =
          [] := by
        rw [Effect.events]
        split
        · exact Event.prints_updates _
        · rfl
      rw [hquiet]
      rfl

end EsotericHost
