import EsotericHost.Proofs.Host.Frame
import EsotericHost.Proofs.Host.History
import EsotericHost.Proofs.Rewinding.Host

/-!
# Clients that follow a machine

A client that watches a machine is told of the changes inside it. `Client` is what it puts together
from them: the tape and its two pointers, a list for each stack and a value for each entry of a
table. It changes with the updates only (`Client.see`).

What such a watcher knows of the machine is a relation between the two. `Act.Shows` says that a part
of a call keeps the relation, and it is shown part by part. A machine whose calls keep it
(`Machine.Shown`) keeps it through the history of a session (`Machine.Shown.history`), so that it
holds of every host after every run of commands (`Builtin.shown_of_handleAll`). A relation may also
depend on something that is counted along the steps of the machine.
-/

namespace EsotericHost

variable {ε σ α β W F : Type}

/-! ## The client -/

/-- What a client has put together from the updates of a machine. -/
structure Client where
  tape : Array Int
  dataPointer : Nat
  instructionPointer : Nat
  /-- The stacks by their names, each from its bottom to its top. -/
  lists : Option String → List Json
  /-- The entries of the tables, by table and key. -/
  entries : String → String → Option Json

namespace Client

/-- A client that has been told nothing, with a tape of the given length. -/
def start (reel : Nat) : Client :=
  ⟨Array.replicate reel 0, 0, 0, fun _ => [], fun _ _ => none⟩

/-- The list of a stack after a change. -/
def changed (values : List Json) (value : Option Json) : StackChange → List Json
  | .push => values ++ value.toList
  | .pop => values.dropLast
  | .empty => []

/-- The client with one list replaced. -/
def withStack (client : Client) (name : Option String) (values : List Json) : Client :=
  { client with lists := fun other => if other = name then values else client.lists other }

/-- The client with one entry of a table replaced or taken away. -/
def withEntry (client : Client) (table key : String) (value : Option Json) : Client :=
  { client with
    entries := fun other name =>
      if other = table ∧ name = key then value else client.entries other name }

/-- What a client makes of an update. -/
def change (client : Client) : Update → Client
  | .instructionPointer value => { client with instructionPointer := value }
  | .dataPointer value => { client with dataPointer := value }
  | .data index value => { client with tape := client.tape.setIfInBounds index value }
  | .allData values => { client with tape := values }
  | .stack name change value =>
    client.withStack name (changed (client.lists name) value change)
  | .entry table key .set value => client.withEntry table key (some value)
  | .entry table key .delete _ => client.withEntry table key none

/-- What a client makes of an event: only updates concern it. -/
def see (client : Client) : Event → Client
  | .update u => client.change u
  | _ => client

/-- What a client makes of a row of events. -/
def watch (client : Client) (events : List Event) : Client := events.foldl see client

/-- A client that watches two rows of events watches the first one and then the second. -/
theorem watch_append (client : Client) (first second : List Event) :
    client.watch (first ++ second) = (client.watch first).watch second :=
  List.foldl_append

/-- The number under a key of the table of pointers, or zero before it has been told. -/
def pointer (client : Client) (key : String) : Json :=
  (client.entries "pointers" key).getD (.ofNat 0)

/-- Only updates concern a client. -/
theorem watch_of_outward {events : List Event} (he : ∀ e ∈ events, e.IsOutward) (client : Client) :
    client.watch events = client := by
  induction events with
  | nil => rfl
  | cons e events ih =>
    have hsee : client.see e = client := by
      have houtward := he e List.mem_cons_self
      cases e <;> first | rfl | exact houtward.elim
    unfold watch at ih ⊢
    rw [List.foldl_cons, hsee]
    exact ih fun x hx => he x (List.mem_cons_of_mem _ hx)

/-- A change of one entry leaves all others as they are. -/
theorem entries_withEntry_of_ne {client : Client} {table key other name : String}
    {value : Option Json} (hne : ¬ (other = table ∧ name = key)) :
    (client.withEntry table key value).entries other name = client.entries other name :=
  if_neg hne

end Client

/-! ## Stacks -/

/-- The list that a client keeps for a stack, beside the values of the stack with its top first. The
list is as long as the stack, and has the same values unless it is stale. -/
structure Tallies (stale : Bool) (values stack : List Json) : Prop where
  length_eq : values.length = stack.length
  eq_reverse : stale = false → values = stack.reverse

namespace Tallies

variable {stale : Bool} {values stack stack' : List Json} {value : Json}

/-- A client that has been told nothing keeps the empty stack. -/
theorem nil : Tallies stale [] [] := ⟨rfl, fun _ => rfl⟩

/-- A value that is pushed is told at the end of the list. -/
theorem push (ht : Tallies stale values stack) (value : Json) :
    Tallies stale (values ++ [value]) (value :: stack) := by
  refine ⟨?_, fun hstale => ?_⟩
  · rw [List.length_append, ht.length_eq]
    rfl
  · rw [ht.eq_reverse hstale, List.reverse_cons]

/-- A value that is popped leaves the list from its end. -/
theorem pop (ht : Tallies stale values (value :: stack)) :
    Tallies stale values.dropLast stack := by
  refine ⟨?_, fun hstale => ?_⟩
  · rw [List.length_dropLast, ht.length_eq]
    rfl
  · rw [ht.eq_reverse hstale, List.reverse_cons, List.dropLast_concat]

/-- What a client keeps may only become stale. -/
theorem mono (ht : Tallies stale values stack) {later : Bool} (hl : later = false → stale = false) :
    Tallies later values stack :=
  ⟨ht.length_eq, fun hlater => ht.eq_reverse (hl hlater)⟩

/-- An empty stack settles what is known of it. -/
theorem settle (ht : Tallies stale values stack) :
    Tallies (stale && !stack.isEmpty) values stack := by
  cases stack with
  | nil =>
    rw [List.isEmpty_nil, Bool.not_true, Bool.and_false]
    exact ⟨ht.length_eq, fun _ => List.eq_nil_of_length_eq_zero ht.length_eq⟩
  | cons value stack =>
    rw [List.isEmpty_cons, Bool.not_false, Bool.and_true]
    exact ht

/-- A stack that takes another order is known only if it was no longer, or if the order is the same
after all. -/
theorem reorder (ht : Tallies stale values stack) (hlength : stack'.length = stack.length)
    (hsame : stale = false → stack' = stack) : Tallies stale values stack' :=
  ⟨ht.length_eq.trans hlength.symm, fun hstale => hsame hstale ▸ ht.eq_reverse hstale⟩

end Tallies

/-! ## Parts of a call -/

/-- The events of effects, for a client that watches. -/
def shownEvents (portray : Notice → List Update) (effects : List Effect) : List Event :=
  effects.flatMap (Effect.events true portray)

/-- What a client sees of effects one after the other are the events of the first and of the others.
-/
theorem shownEvents_append (portray : Notice → List Update) (first second : List Effect) :
    shownEvents portray (first ++ second) =
      shownEvents portray first ++ shownEvents portray second :=
  List.flatMap_append

/-- A turn after whose effects a relation holds between a watcher and the state, or what there is
instead after an error. -/
structure Turn.Shows (see : W → Event → W) (portray : Notice → List Update) (R : W → σ → Prop)
    (R' : ε → W → σ → Prop) (w : W) (t : Turn ε σ α) : Prop where
  ok : ∀ a, t.result = .ok a → R ((shownEvents portray t.effects).foldl see w) t.state
  error : ∀ e, t.result = .error e → R' e ((shownEvents portray t.effects).foldl see w) t.state

/-- A turn that leaves a relation whether it has failed or not. -/
theorem Turn.Shows.of_state {see : W → Event → W} {portray : Notice → List Update}
    {R : W → σ → Prop} {w : W} {t : Turn ε σ α}
    (ht : R ((shownEvents portray t.effects).foldl see w) t.state) :
    t.Shows see portray R (fun _ => R) w :=
  ⟨fun _ _ => ht, fun _ _ => ht⟩

/-- A relation that holds after a turn, failed or not, holds of the state that the turn leaves. -/
theorem Turn.Shows.state {see : W → Event → W} {portray : Notice → List Update} {R : W → σ → Prop}
    {w : W} {t : Turn ε σ α} (ht : t.Shows see portray R (fun _ => R) w) :
    R ((shownEvents portray t.effects).foldl see w) t.state := by
  cases hr : t.result with
  | ok a => exact ht.ok a hr
  | error e => exact ht.error e hr

/-- It does not matter to a watcher what is printed before everything else. -/
theorem Turn.Shows.after {see : W → Event → W} {portray : Notice → List Update} {R : W → σ → Prop}
    {R' : ε → W → σ → Prop} {w : W} {t : Turn ε σ α} (hsee : ∀ w text, see w (.print text) = w)
    (texts : List String) (ht : t.Shows see portray R R' w) :
    (t.after texts).Shows see portray R R' w := by
  have hprinted : (shownEvents portray (t.after texts).effects).foldl see w =
      (shownEvents portray t.effects).foldl see w := by
    unfold Turn.after
    induction texts with
    | nil => rfl
    | cons text texts ih =>
      rw [← ih]
      exact congrArg (fun w => List.foldl see w _) (hsee w text)
  obtain ⟨hok, herror⟩ := ht
  rw [← hprinted] at hok herror
  exact ⟨hok, herror⟩

namespace Act

/-- A part of a call that keeps a relation between a watcher and the state, unless it fails. -/
def Shows (see : W → Event → W) (portray : Notice → List Update) (R : W → σ → Prop)
    (R' : ε → W → σ → Prop) (act : Act ε σ α) : Prop :=
  ∀ w s, R w s → (act s).Shows see portray R R' w

variable {see : W → Event → W} {portray : Notice → List Update} {R : W → σ → Prop}
  {R' : ε → W → σ → Prop} {w : W} {s : σ}

/-- A sequence shows from a state what it should if its first part does, and its second part does
from what the first one has left. -/
theorem Shows.bind_from {x : Act ε σ α} {f : α → Act ε σ β}
    (hx : (x s).Shows see portray R R' w)
    (hf : ∀ a, (x s).result = .ok a → (f a (x s).state).Shows see portray R R'
      ((shownEvents portray (x s).effects).foldl see w)) :
    ((x >>= f) s).Shows see portray R R' w := by
  obtain ⟨t, ht⟩ : ∃ t, x s = t := ⟨_, rfl⟩
  obtain ⟨result, s', effects⟩ := t
  rw [ht] at hx hf
  cases result with
  | ok a =>
    rw [bind_of_ok ht]
    obtain ⟨hok, herror⟩ := hf a rfl
    constructor
    · rw [shownEvents_append, List.foldl_append]
      exact hok
    · rw [shownEvents_append, List.foldl_append]
      exact herror
  | error e =>
    rw [bind_of_error ht]
    refine ⟨fun _ ha => (nomatch ha), fun e' he => ?_⟩
    cases he
    exact hx.error e rfl

/-- It is enough that the second part shows from every state what it should. -/
theorem Shows.bind_at {x : Act ε σ α} {f : α → Act ε σ β} (hx : (x s).Shows see portray R R' w)
    (hf : ∀ a, Shows see portray R R' (f a)) : ((x >>= f) s).Shows see portray R R' w :=
  bind_from hx fun a ha => hf a _ _ (hx.ok a ha)

/-- A sequence of such parts. -/
theorem Shows.bind {x : Act ε σ α} {f : α → Act ε σ β} (hx : Shows see portray R R' x)
    (hf : ∀ a, Shows see portray R R' (f a)) : Shows see portray R R' (x >>= f) :=
  fun w s hs => bind_at (hx w s hs) hf

/-- A part of a call that only gives a value shows nothing. -/
theorem shows_pure (a : α) : Shows see portray R R' (pure a : Act ε σ α) :=
  fun _ _ hs => ⟨fun _ _ => hs, fun _ he => nomatch he⟩

/-- To look at the state shows nothing. -/
theorem shows_get : Shows see portray R R' (get : Act ε σ σ) :=
  fun _ _ hs => ⟨fun _ _ => hs, fun _ he => nomatch he⟩

/-- A change of the state that no client need be told of. -/
theorem shows_modify {f : σ → σ} (hf : ∀ w s, R w s → R w (f s)) :
    Shows see portray R R' (modify f : Act ε σ Unit) :=
  fun w s hs => ⟨fun _ _ => hf w s hs, fun _ he => nomatch he⟩

/-- A failure shows nothing, and leaves what holds then. -/
theorem shows_fail {e : ε} (he : ∀ w s, R w s → R' e w s) :
    Shows see portray R R' (fail e : Act ε σ α) := by
  refine fun w s hs => ⟨fun _ ha => (nomatch ha), fun e' he' => ?_⟩
  cases he'
  exact he w s hs

/-- A watcher that does not mind what is printed sees nothing of it. -/
theorem shows_print (hsee : ∀ w text, see w (.print text) = w) (text : String) :
    Shows see portray R R' (print text : Act ε σ Unit) := by
  refine fun w s hs => ⟨fun _ _ => ?_, fun _ he => nomatch he⟩
  change R (see w (.print text)) s
  rw [hsee]
  exact hs

/-- What is put together from such parts, when failing with one of the expected errors shows what it
should. -/
theorem Composed.shows {E : ε → Prop} {B : (α : Type) → Act ε σ α → Prop} {x : Act ε σ α}
    (hx : Composed E B x) (hB : ∀ (α : Type) (x : Act ε σ α), B α x → Shows see portray R R' x)
    (hsee : ∀ w text, see w (.print text) = w) (hE : ∀ e, E e → ∀ w s, R w s → R' e w s) :
    Shows see portray R R' x := by
  induction hx with
  | basic hx => exact hB _ _ hx
  | pure a => exact shows_pure a
  | get => exact shows_get
  | print text => exact shows_print hsee text
  | fail he => exact shows_fail (hE _ he)
  | bind _ _ ihx ihf => exact .bind ihx ihf

end Act

/-! ## Machines -/

/-- The events of a call, for a client that watches. -/
def Machine.shown (m : Machine σ) (act : Act Upset σ α) (s : σ) : List Event :=
  shownEvents (m.portray (act s).state) (act s).effects

/-- A machine of a language that keeps a relation between a watcher and its state through all calls
and their reports. The relation may depend on a value that each step from a state marks. -/
structure Machine.Shown (m : Machine σ) (lang : String) (see : W → Event → W) (mark : F → σ → F)
    (R : F → W → σ → Prop) : Prop where
  outward : ∀ f w s e, e.IsOutward → R f w s → R f (see w e) s
  created : ∀ f w s visualize memory, R f w s → R f (see w (.created lang visualize memory)) s
  reset : ∀ f w s, R f w s → R f ((m.shown m.reset s).foldl see w) (m.reset s).state
  load : ∀ source f w s report, Reports (.badCode lang) (Session.load m source s).result report →
    R f w s →
    R f ((m.shown (Session.load m source) s ++ report).foldl see w) (Session.load m source s).state
  step : ∀ f w s report, Reports (.failed lang) (m.step s).result report → R f w s →
    R (mark f s) ((m.shown m.step s ++ report).foldl see w) (m.step s).state
  resume : ∀ input f w s report, Reports (.failed lang) (m.resume input s).result report →
    R f w s →
    R f ((m.shown (m.resume input) s ++ report).foldl see w) (m.resume input s).state

section

variable {m : Machine σ} {lang : String} {mark : F → σ → F} {see : W → Event → W}

/-- A load that is refused leaves the state and tells nothing, and any other is followed by a
reset. -/
theorem Machine.shown_load {R : W → σ → Prop} {source : String} {w : W} {s : σ}
    {still ready bare : σ → σ} (hm : m.RewindsAt still ready bare s)
    (heffects : (m.load source s).effects = [])
    (hreset : R ((m.shown m.reset (m.load source s).state).foldl see w)
      (m.reset (m.load source s).state).state) (hs : R w s) :
    R ((m.shown (Session.load m source) s).foldl see w) (Session.load m source s).state := by
  unfold shown
  cases hr : (m.load source s).result with
  | ok _ =>
    obtain ⟨-, hstate, hload⟩ := load_of_ok hr
    rw [hstate, hload, heffects, List.nil_append]
    exact hreset
  | error upset =>
    rw [load_of_error hr, heffects, hm.load_refused source upset hr]
    exact hs

/-- For a client the reports of the host change nothing. -/
theorem Machine.shown_of_client {R : F → Client → σ → Prop}
    (hreset : ∀ f client s, R f client s →
      R f (client.watch (m.shown m.reset s)) (m.reset s).state)
    (hload : ∀ source f client s, R f client s →
      R f (client.watch (m.shown (Session.load m source) s)) (Session.load m source s).state)
    (hstep : ∀ f client s, R f client s →
      R (mark f s) (client.watch (m.shown m.step s)) (m.step s).state)
    (hresume : ∀ input f client s, R f client s →
      R f (client.watch (m.shown (m.resume input) s)) (m.resume input s).state) :
    m.Shown lang Client.see mark R := by
  have hreported {α : Type} {error : Fault → HostError} {result : Except Upset α}
      {events report : List Event} {f : F} {client : Client} {s : σ}
      (hr : Reports error result report) (hs : R f (client.watch events) s) :
      R f ((events ++ report).foldl Client.see client) s := by
    rw [List.foldl_append]
    have hreport := Client.watch_of_outward hr.outward (client.watch events)
    unfold Client.watch at hreport hs
    rwa [hreport]
  refine ⟨fun f client s e he hs => ?_, fun _ _ _ _ _ hs => hs, hreset,
    fun source f client s report hr hs => hreported hr (hload source f client s hs),
    fun f client s report hr hs => hreported hr (hstep f client s hs),
    fun input f client s report hr hs => hreported hr (hresume input f client s hs)⟩
  cases e <;> first | exact hs | exact he.elim

end

/-- What is told of a call to a client that watches. -/
theorem Session.told_of_visualize {m : Machine σ} {act : Act Upset σ α} {s : Session σ}
    (hv : s.visualize = true) : s.told m act = m.shown act s.state := by
  unfold told events left
  dsimp only
  rw [hv]
  rfl

namespace Machine.Shown

variable {m : Machine σ} {lang : String} {see : W → Event → W} {mark : F → σ → F}
  {R : F → W → σ → Prop} {Source : String → Prop} {s t : Session σ}
  {strides : List (Session σ)} {events : List Event}

/-- The relation is kept through the history of a session. -/
theorem history (hm : m.Shown lang see mark R) (hl : s.lang = lang) (hv : s.visualize = true)
    {f : F} {w : W} (hs : R f w s.state) (hx : s.History m Source strides events t) :
    R (strides.foldl (fun f s => mark f s.state) f) (events.foldl see w) t.state := by
  induction hx with
  | start => exact hs
  | said before outward ih =>
    rw [List.foldl_append]
    exact hm.outward _ _ _ _ outward ih
  | @shown strides events t before ih =>
    rw [List.foldl_append]
    have hlang : t.lang = lang := by
      rw [before.make]
      exact hl
    unfold Session.createdEvent
    rw [hlang]
    exact hm.created _ _ _ _ _ ih
  | @reset strides events t before ih =>
    have hvt : t.visualize = true := by
      rw [before.make]
      exact hv
    rw [List.foldl_append, Session.told_of_visualize hvt]
    exact hm.reset _ _ _ ih
  | @called strides more events report t _ act error before call reports ih =>
    have hvt : t.visualize = true := by
      rw [before.make]
      exact hv
    have hlang : t.lang = lang := by
      rw [before.make]
      exact hl
    rw [List.foldl_append, List.foldl_append, Session.told_of_visualize hvt]
    cases call with
    | load given => exact hm.load _ _ _ _ _ (hlang ▸ reports) ih
    | step => exact hm.step _ _ _ _ (hlang ▸ reports) ih
    | resume input => exact hm.resume input _ _ _ _ (hlang ▸ reports) ih

end Machine.Shown

end EsotericHost
