import EsotericHost.Proofs.Client.Host

/-!
# Clients that follow the variables of the token machine

The token machine gives notice of every variable that it gives a value and, when it is reset, of
every variable that goes. The notice of a value carries the value as the client sees it, and `null`
stands for a variable that is gone. The doubles that are not finite have no other form than `null`,
so that a client takes the variable for gone to which one of them has been given. It knows all other
variables with their values, and no variable besides (`Host.handleAll_bindings`).
-/

namespace EsotericHost

namespace Table

variable {α : Type}

/-- A table whose first entry is that of a name gives its value, and others are looked up behind it.
-/
theorem find?_cons (name key : String) (value : α) (table : List (String × α)) :
    find? name ((key, value) :: table) = if name = key then some value else find? name table := by
  by_cases hname : name = key
  · rw [if_pos hname, hname]
    exact List.lookup_cons_self
  · rw [if_neg hname]
    unfold find?
    rw [List.lookup_cons, beq_eq_false_iff_ne.mpr hname]

/-- A table that a value has been put into has it under its key, and is the same elsewhere. -/
theorem find?_insert (key name : String) (value : α) (table : List (String × α)) :
    find? name (insert key value table) = if name = key then some value else find? name table := by
  induction table with
  | nil => exact find?_cons name key value []
  | cons entry rest ih =>
    obtain ⟨k, v⟩ := entry
    unfold insert
    split
    · exact find?_cons name key value _
    · split
      · rename_i hkey
        rw [find?_cons, find?_cons, hkey]
        split <;> rfl
      · rename_i hkey
        rw [find?_cons, find?_cons, ih]
        by_cases hname : name = key
        · rw [if_pos hname, if_pos hname, if_neg (hname ▸ hkey)]
        · rw [if_neg hname, if_neg hname]

/-- What is no key of a table has no value. -/
theorem find?_eq_none_of_notMem {name : String} {table : List (String × α)}
    (hname : name ∉ table.map Prod.fst) : find? name table = none := by
  refine List.lookup_eq_none_iff.mpr fun entry hentry => ?_
  rw [bne_iff_ne]
  rintro rfl
  exact hname (List.mem_map_of_mem hentry)

end Table

namespace Element

open Act

variable {client : Client} {s : State}

/-- A text, or a finite number. -/
def Value.IsFinite : Value → Prop
  | .number x => ∃ negative mantissa exponent, Decimal.parts x = .finite negative mantissa exponent
  | .text _ => True

/-- What a client has under the name of a variable to which a value has been given. -/
def Value.told? (v : Value) : Option Json :=
  match v.toJson with
  | .null => none
  | value => some value

/-- A client is told of the finite values. -/
theorem Value.told?_eq_some_iff {v : Value} {value : Json} :
    v.told? = some value ↔ v.IsFinite ∧ value = v.toJson := by
  cases v with
  | text text =>
    change some (Json.string text) = some value ↔ True ∧ value = Json.string text
    rw [Option.some.injEq, true_and, eq_comm]
  | number x =>
    simp only [told?, toJson, Json.ofFloat, IsFinite]
    cases Decimal.parts x with
    | finite negative mantissa exponent => simp [eq_comm]
    | infinite negative => simp
    | nan => simp

/-- A client whose table of variables is that of the machine, as far as a client is told of it. -/
def State.TableKnownTo (client : Client) (s : State) : Prop :=
  ∀ name, client.entries "vars" name = (Table.find? name s.bindings).bind Value.told?

/-- A part of a call after which a client still knows the variables. -/
abbrev Charts {α : Type} (act : Step α) : Prop :=
  act.Shows Client.see Notice.tokenUpdates State.TableKnownTo fun _ => State.TableKnownTo

/-- A change that leaves the variables alone keeps them known. -/
theorem charts_modify {f : State → State} (hbindings : ∀ s, (f s).bindings = s.bindings) :
    Charts (Act.modify f) :=
  shows_modify fun _ s hs name => by rw [hbindings]; exact hs name

/-- A push leaves the variables alone. -/
theorem charts_pushOn (stack : Stack) (v : Value) : Charts (pushOn stack v) := by
  intro client s hs
  cases stack <;> exact .of_state fun name => hs name

/-- A pop leaves the variables alone. -/
theorem charts_popFrom (stack : Stack) : Charts (popFrom stack) := by
  intro client s hs
  unfold popFrom
  rw [get_bind_apply]
  cases s.stack stack with
  | nil => exact .of_state hs
  | cons v rest => cases stack <;> exact .of_state fun name => hs name

/-- The place is an entry of another table. -/
theorem charts_goTo (index : Nat) : Charts (goTo index) := by
  refine fun client s hs => .of_state fun name => ?_
  have hother : (client.withEntry "pointers" "ip"
      (some (.ofNat { s with next := index }.sourcePosition))).entries "vars" name =
        client.entries "vars" name :=
    Client.entries_withEntry_of_ne fun h => absurd h.1 (by decide)
  exact hother.trans (hs name)

/-- The notice of a value is an entry with the value, or the end of the entry. -/
theorem watch_binding (client : Client) (name : String) (value : Json) :
    client.watch (shownEvents Notice.tokenUpdates [.notify (.binding name value)]) =
      client.withEntry "vars" name (match value with | .null => none | value => some value) := by
  cases value <;> rfl

/-- To give a variable a value tells the client of it, or that the name is gone. -/
theorem charts_assign (name : String) (v : Value) : Charts (assign name v) := by
  refine fun client s hs => .of_state fun other => ?_
  change (client.watch (shownEvents Notice.tokenUpdates [.notify (.binding name v.toJson)])).entries
      "vars" other = (Table.find? other (Table.insert name v s.bindings)).bind Value.told?
  rw [watch_binding, Table.find?_insert]
  by_cases hother : other = name
  · rw [if_pos hother, hother]
    exact if_pos ⟨rfl, rfl⟩
  · rw [if_neg hother, Client.entries_withEntry_of_ne fun h => hother h.2]
    exact hs other

/-- A value that is raised leaves the variables alone. -/
theorem charts_raise (depth : Nat) : Charts (raise depth) := by
  refine .bind shows_get fun s => ?_
  split
  · exact charts_modify fun _ => rfl
  · exact shows_fail fun _ _ hs => hs

/-- The parts of a token. -/
theorem charts_basic {raises loops : Prop} {α : Type} {x : Step α}
    (hx : Basic raises loops α x) : Charts x := by
  cases hx with
  | pushOn stack v => exact charts_pushOn stack v
  | popFrom stack => exact charts_popFrom stack
  | assign name v => exact charts_assign name v
  | raise allowed depth => exact charts_raise depth
  | frames allowed f => exact charts_modify fun _ => rfl

/-- A step tells a client all that it does to the variables. -/
theorem charts_step : Charts step := by
  refine .bind shows_get fun s => ?_
  split
  · exact shows_pure _
  · split
    · exact shows_pure _
    · split
      · exact .bind (charts_modify fun _ => rfl) fun _ => shows_pure _
      · refine .bind ?_ fun index => .bind (charts_goTo index) fun _ => shows_pure _
        exact (composed_execute _ _).shows (fun _ _ hx => charts_basic hx) (fun _ _ => rfl)
          fun _ _ _ _ hs => hs

/-- An input leaves the variables alone. -/
theorem charts_resume (input : Input) : Charts (resume input) := by
  refine .bind shows_get fun s => ?_
  split
  · refine .bind (charts_modify fun _ => rfl) fun _ => ?_
    exact .bind (charts_pushOn _ _) fun _ => charts_goTo _
  · exact shows_fail fun _ _ hs => hs

/-- A client that is told of variables that go has no entry for any of them. -/
theorem entries_of_gone (names : List String) (client : Client) (name : String) :
    (client.watch (shownEvents Notice.tokenUpdates
        (names.map fun name => .notify (.binding name .null)))).entries "vars" name =
      if name ∈ names then none else client.entries "vars" name := by
  induction names generalizing client with
  | nil => rfl
  | cons first names ih =>
    rw [List.map_cons, ← List.singleton_append, shownEvents_append, Client.watch_append, ih,
      watch_binding]
    by_cases hname : name = first
    · rw [if_pos (hname ▸ List.mem_cons_self : name ∈ first :: names)]
      split
      · rfl
      · exact if_pos ⟨rfl, hname⟩
    · rw [Client.entries_withEntry_of_ne fun h => hname h.2]
      simp only [List.mem_cons, hname, false_or]

/-- A reset leaves no variable, and tells of every one that has been there. -/
theorem tableKnownTo_reset (hs : s.TableKnownTo client) :
    (reset s).state.TableKnownTo (client.watch (machine.shown machine.reset s)) := by
  intro name
  change (client.watch (machine.shown machine.reset s)).entries "vars" name = none
  unfold Machine.shown
  rw [reset_effects, shownEvents_append, Client.watch_append]
  -- What is told besides is about the stacks and the place.
  have hrest (client : Client) : (client.watch
      (shownEvents Notice.tokenUpdates (machine.reset s.ready).effects)).entries "vars" name =
        client.entries "vars" name :=
    Client.entries_withEntry_of_ne fun h => absurd h.1 (by decide)
  have hgone := entries_of_gone (s.bindings.map Prod.fst) client name
  rw [List.map_map] at hgone
  refine (hrest _).trans (hgone.trans ?_)
  split
  · rfl
  · rename_i hname
    rw [hs name, Table.find?_eq_none_of_notMem hname]
    rfl

/-- A load that is refused changes nothing, and any other is followed by a reset. -/
theorem tableKnownTo_load (source : String) (hs : s.TableKnownTo client) :
    (Session.load machine source s).state.TableKnownTo
      (client.watch (machine.shown (Session.load machine source) s)) := by
  have hload := load_eq source s
  refine Machine.shown_load (rewinds s) ?_ (tableKnownTo_reset ?_) hs
  · rw [hload]
    split <;> rfl
  · rw [hload]
    split <;> exact fun name => hs name

/-- A client that watches the token machine goes on knowing its variables. -/
theorem shown_bindings :
    machine.Shown name Client.see (fun _ _ => ()) fun _ => State.TableKnownTo :=
  Machine.shown_of_client (fun _ _ _ hs => tableKnownTo_reset hs)
    (fun source _ _ _ hs => tableKnownTo_load source hs)
    (fun _ _ _ hs => (charts_step _ _ hs).state)
    fun input _ _ _ hs => (charts_resume input _ _ hs).state

end Element

namespace Host

variable {draw : Nat → Befunge.Direction} {bound : Nat} {limit : Option Nat}
  {commands : List Command} {steps : List (List Event)} {h : Host Builtin} {s : Session Builtin}

/-- After every run of commands a client that watches the token machine has an entry for a name
exactly if the name is bound to a text or to a finite number, and the entry is that value. -/
theorem handleAll_bindings {state : Element.State}
    (hrun : (Host.new limit).handleAll (.standard draw) bound commands = some (steps, h))
    (hs : h.session = some s) (hstate : s.state = .element state) (hv : s.visualize = true)
    (name : String) (value : Json) :
    ((Client.start 0).watch ((Catalogue.standard draw).latest [] commands steps)).entries "vars"
        name = some value ↔
      ∃ v, Table.find? name state.bindings = some v ∧ v.IsFinite ∧ value = v.toJson := by
  obtain ⟨start, hbuilt, hkept⟩ := Builtin.shown_of_handleAll (fun _ _ => ())
    Builtin.copies_element Element.shown_bindings hrun hs hstate hv
  cases hbuilt with
  | element =>
    have hentry := hkept () (Client.start 0) (fun _ => rfl) name
    unfold Client.watch
    rw [hentry, Option.bind_eq_some_iff]
    simp only [Element.Value.told?_eq_some_iff]

/-- A program that gives two variables a value, for a client that watches. -/
def assigns : List Command :=
  [.setLanguage "element" ⟨[("updateVisuals", .bool true)]⟩,
    .press .interpret ⟨some "word w; nan x;", none⟩]

/-- The machine after that program. -/
def assigned : Element.State :=
  { Element.build .empty with
    program := #[⟨0, .word "word".toList⟩, ⟨5, .word ['w']⟩, ⟨6, .command .assign⟩,
      ⟨8, .word "nan".toList⟩, ⟨12, .word ['x']⟩, ⟨13, .command .assign⟩]
    next := 6, bindings := [("w", .text "word"), ("x", .number (0.0 / 0.0))] }

/-- A client that watches that program knows the variable with a text. -/
theorem handleAll_bindings_text :
    ∃ steps h, (Host.new none).handleAll (.standard fun _ => .right) 9 assigns =
        some (steps, h) ∧
      ((Client.start 0).watch
        ((Catalogue.standard fun _ => .right).latest [] assigns steps)).entries "vars" "w" =
          some (.string "word") := by
  have hend : (((Host.new none).handleAll (.standard fun _ => .right) 9 assigns).bind
      fun run => run.2.session.map fun s => (s.state, s.visualize)) =
      some (.element assigned, true) := by decide +kernel
  obtain ⟨⟨steps, h⟩, hrun, hend⟩ := Option.bind_eq_some_iff.mp hend
  obtain ⟨s, hs, hend⟩ := Option.map_eq_some_iff.mp hend
  obtain ⟨hstate, hv⟩ := Prod.mk.inj hend
  refine ⟨steps, h, hrun, (handleAll_bindings hrun hs hstate hv "w" _).mpr ?_⟩
  exact ⟨.text "word", by decide +kernel, trivial, rfl⟩

/-- The variable that is not a number is bound, and a client that watches has no entry for it. -/
theorem handleAll_bindings_nan :
    ∃ steps h s, (Host.new none).handleAll (.standard fun _ => .right) 9 assigns =
        some (steps, h) ∧
      h.session = some s ∧ s.state = .element assigned ∧ s.visualize = true ∧
      (Table.find? "x" assigned.bindings).isSome = true ∧
      (((Client.start 0).watch
        ((Catalogue.standard fun _ => .right).latest [] assigns steps)).entries "vars"
          "x").isSome = false := by
  have hend : (((Host.new none).handleAll (.standard fun _ => .right) 9 assigns).bind
      fun run => run.2.session.map fun s => (s.state, s.visualize,
        (((Client.start 0).watch ((Catalogue.standard fun _ => .right).latest [] assigns
          run.1)).entries "vars" "x").isSome)) =
      some (.element assigned, true, false) := by decide +kernel
  obtain ⟨⟨steps, h⟩, hrun, hend⟩ := Option.bind_eq_some_iff.mp hend
  obtain ⟨s, hs, hend⟩ := Option.map_eq_some_iff.mp hend
  simp only [Prod.mk.injEq] at hend
  obtain ⟨hstate, hv, hentry⟩ := hend
  exact ⟨steps, h, s, hrun, hs, hstate, hv, by decide +kernel, hentry⟩

end Host

end EsotericHost
