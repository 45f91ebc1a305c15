import EsotericHost.Proofs.Json.RoundTrip
import EsotericHost.Wire.Event

/-!
# Reading the events that are written

The line of an event is read as the event again, but for two things: a double comes back as what the
reader of numbers makes of its text, which is near it, and a `null` that stands for the value of a
stack is taken for a value that is missing. `Wire.exists_readEvent?_writeEvent` says so for every
event whose numbers fit the wire (`Event.Fits`), and `Wire.readEvent?_writeEvent_iff` says when the
same event comes back.
-/

namespace EsotericHost

/-- A value without parts. -/
def Json.isFlat : Json → Bool
  | .array _ | .object _ => false
  | _ => true

/-- The integers in the update fit 64 bits, and its value is finite and has no parts. -/
def Update.Fits : Update → Prop
  | .instructionPointer value | .dataPointer value => value < Word.natBound
  | .data index value => index < Word.natBound ∧ Word.holdsInt value
  | .allData values => ∀ value ∈ values.toList, Word.holdsInt value
  | .stack _ _ value => ∀ v ∈ value, v.isFlat ∧ v.fits
  | .entry _ _ _ value => value.isFlat ∧ value.fits

/-- Likewise for an event. -/
def Event.Fits : Event → Prop
  | .created _ _ memory => ∀ cells ∈ memory, ∀ value ∈ cells.toList, Word.holdsInt value
  | .update u => u.Fits
  | _ => True

/-- The update with each double in it read again. -/
def Update.reread? : Update → Option Update
  | .stack name change (some v) => v.reread?.map fun w => .stack name change (some w)
  | .entry table key change v => v.reread?.map (.entry table key change)
  | u => some u

/-- The event with each double in it read again, if all of them can be read. -/
def Event.reread? : Event → Option Event
  | .update u => u.reread?.map .update
  | e => some e

/-- The update without a `null` that stands for the value of a stack. -/
def Update.unnulled : Update → Update
  | .stack name change (some .null) => .stack name change none
  | u => u

/-- The event without a `null` that stands for the value of a stack. -/
def Event.unnulled : Event → Event
  | .update u => .update u.unnulled
  | e => e

/-- Whether a `null` stands for the value of a stack. -/
def Event.hasNull : Event → Bool
  | .update (.stack _ _ (some .null)) => true
  | _ => false

/-- The double in an event, if there is one. -/
def Event.double? : Event → Option Float
  | .update (.stack _ _ (some (.number (.float x)))) => some x
  | .update (.entry _ _ _ (.number (.float x))) => some x
  | _ => none

/-- The update with another double in the place of its own. -/
def Update.withDouble (y : Float) : Update → Update
  | .stack name change (some (.number (.float _))) =>
    .stack name change (some (.number (.float y)))
  | .entry table key change (.number (.float _)) => .entry table key change (.number (.float y))
  | u => u

/-- The event with another double in the place of its own. -/
def Event.withDouble (y : Float) : Event → Event
  | .update u => .update (u.withDouble y)
  | e => e

/-- What an event is read as. Without a double it is the event itself, but for a `null` that stands
for the value of a stack; a double is read from its text, as a finite double near it. -/
inductive Event.ReadAs : Event → Event → Prop
  | plain {e : Event} (h : e.double? = none) : ReadAs e e.unnulled
  | double {e : Event} {x y : Float} (hx : e.double? = some x)
      (hread : Json.Number.reread? (.float x) = some (.float y)) (hnear : Json.Near x y) :
      ReadAs e (e.withDouble y)

/-- A double is no `null`. -/
theorem Event.hasNull_of_double? {e : Event} {x : Float} (hx : x ∈ e.double?) :
    e.hasNull = false := by
  unfold double? at hx
  split at hx <;> first | rfl | cases hx

namespace Wire

/-! ## Fields -/

/-- An integer that a machine word with a sign holds fits 64 bits. -/
theorem fits_of_holdsInt {n : Int} (hn : Word.holdsInt n) : Json.Number.fits n := by
  simp only [Word.holdsInt, Bool.and_eq_true, decide_eq_true_eq] at hn
  simp only [Json.Number.fits, Bool.and_eq_true, decide_eq_true_eq]
  have hbound : Word.intBound < Word.natBound := by decide
  exact ⟨hn.1, Int.lt_trans hn.2 hbound⟩

/-- A natural number that a machine word counts fits 64 bits. -/
theorem fits_of_lt {n : Nat} (hn : n < Word.natBound) : Json.Number.fits n := by
  have hbound : 0 ≤ Word.intBound := by decide
  simp only [Json.Number.fits, Bool.and_eq_true, decide_eq_true_eq]
  omega

/-- An integer that a machine word holds is read as itself. -/
theorem int?_ofInt {n : Int} (hn : Word.holdsInt n) : int? (.ofInt n) = some n := by
  simp only [Word.holdsInt, Bool.and_eq_true, decide_eq_true_eq] at hn
  exact if_pos hn.2

/-- A natural number that a machine word counts is read as itself. -/
theorem nat?_ofNat {n : Nat} (hn : n < Word.natBound) : nat? (.ofNat n) = some n := by
  rw [Json.ofNat, nat?, if_pos ⟨Int.natCast_nonneg n, Int.ofNat_lt.mpr hn⟩, Int.toNat_natCast]

/-- Integers that a machine word holds are read one by one as themselves. -/
theorem mapM_int?_ofInt {values : List Int} (h : ∀ n ∈ values, Word.holdsInt n) :
    (values.map Json.ofInt).mapM int? = some values := by
  induction values with
  | nil => rfl
  | cons n values ih =>
    rw [List.map_cons, List.mapM_cons, int?_ofInt (h n (by simp)),
      ih fun m hm => h m (List.mem_cons_of_mem n hm)]
    rfl

/-- A list of integers that a machine word holds is read as itself. -/
theorem ints?_intsToJson {values : Array Int} (h : ∀ n ∈ values.toList, Word.holdsInt n) :
    ints? (intsToJson values) = some values := by
  simp [ints?, intsToJson, mapM_int?_ofInt h]

/-- A value without parts is read as any value is. -/
theorem any?_of_isFlat {v : Json} (hv : v.isFlat) : any? v = some v := by
  cases v <;> first | rfl | cases hv

/-- A `null` is read like a value that is missing. -/
theorem optional_any? {name : Option String} {change : StackChange} {value : Option Json}
    (hv : ∀ v ∈ value, v.isFlat) :
    ((optional any? value).bind fun value => some (Update.stack name change value)) =
      some (Update.stack name change value).unnulled := by
  cases value with
  | none => rfl
  | some v =>
    have hflat := hv v rfl
    cases v <;> first | rfl | cases hflat

/-- The name of a change of a stack is read as that change. -/
theorem stackChange?_name (change : StackChange) :
    stackChange? (.string (stackChangeName change)) = some change := by
  cases change <;> rfl

/-- The name of a change of a table is read as that change. -/
theorem entryChange?_name (change : EntryChange) :
    entryChange? (.string (entryChangeName change)) = some change := by
  cases change <;> rfl

/-! ## Records -/

/-- An update is read from the value that it is written as, but for a `null`. -/
theorem update?_updateToJson {u : Update} (hu : u.Fits) :
    update? innerVariant? (updateToJson u) = some u.unnulled := by
  cases u with
  | instructionPointer value =>
    have hread (v : Json) : update? innerVariant?
        (.object [("kind", .string "instructionPointer"), ("value", v)]) =
      (nat? v).bind fun n => some (.instructionPointer n) := rfl
    exact (hread _).trans (by rw [nat?_ofNat hu]; rfl)
  | dataPointer value =>
    have hread (v : Json) : update? innerVariant?
        (.object [("kind", .string "dataPointer"), ("value", v)]) =
      (nat? v).bind fun n => some (.dataPointer n) := rfl
    exact (hread _).trans (by rw [nat?_ofNat hu]; rfl)
  | data index value =>
    have hread (v w : Json) : update? innerVariant?
        (.object [("kind", .string "data"), ("index", v), ("value", w)]) =
      (nat? v).bind fun i => (int? w).bind fun n => some (.data i n) := rfl
    exact (hread _ _).trans (by rw [nat?_ofNat hu.1, int?_ofInt hu.2]; rfl)
  | allData values =>
    have hread (v : Json) : update? innerVariant?
        (.object [("kind", .string "allData"), ("values", v)]) =
      (ints? v).bind fun ns => some (.allData ns) := rfl
    exact (hread _).trans (by rw [ints?_intsToJson hu]; rfl)
  | stack name change value =>
    have hread : update? innerVariant? (updateToJson (.stack name change value)) =
        (stackChange? (.string (stackChangeName change))).bind fun change =>
          (optional any? value).bind fun value => some (.stack name change value) := by
      cases name <;> cases value <;> rfl
    rw [hread, stackChange?_name]
    exact optional_any? fun v hv => (hu v hv).1
  | entry table key change value =>
    have hread : update? innerVariant? (updateToJson (.entry table key change value)) =
        (entryChange? (.string (entryChangeName change))).bind fun change =>
          (any? value).bind fun value => some (.entry table key change value) := rfl
    rw [hread, entryChange?_name, any?_of_isFlat hu.1]
    rfl

/-- An event is read from the value that it is written as, but for a `null`. -/
theorem event?_eventToJson {e : Event} (he : e.Fits) :
    event? (eventToJson e) = some e.unnulled := by
  cases e with
  | update u =>
    have hread (v : Json) :
        event? (.object [("event", .string "instrumentationUpdate"), ("update", v)]) =
      (update? innerVariant? v).bind fun u => some (.update u) := rfl
    exact (hread _).trans (by rw [update?_updateToJson he]; rfl)
  | created lang visualize memory =>
    cases memory with
    | none => rfl
    | some cells =>
      have hread (items : List Json) :
          event? (.object [("event", .string "created"), ("lang", .string lang),
            ("visualize", .bool visualize), ("initialMemory", .array items)]) =
          ((ints? (.array items)).map some).bind fun cells =>
            some (.created lang visualize cells) := rfl
      have hints := ints?_intsToJson (he cells rfl)
      rw [intsToJson] at hints
      exact (hread _).trans (by rw [hints]; rfl)
  | request kind => cases kind <;> rfl
  | _ => rfl

/-! ## What can be read of an event -/

/-- Integers that a machine word holds are integers of 64 bits as values. -/
theorem areIntegral_map_ofInt {values : List Int} (h : ∀ n ∈ values, Word.holdsInt n) :
    Json.areIntegral (values.map Json.ofInt) := by
  induction values with
  | nil => rfl
  | cons n values ih =>
    rw [List.map_cons, Json.areIntegral, ih fun m hm => h m (List.mem_cons_of_mem n hm),
      Bool.and_true]
    exact fits_of_holdsInt (h n (by simp))

/-- Integers as items have no depth of their own. -/
theorem itemsDepth_map_ofInt (values : List Int) : Json.itemsDepth (values.map Json.ofInt) = 0 := by
  induction values with
  | nil => rfl
  | cons n values ih =>
    rw [List.map_cons, Json.itemsDepth, ih]
    rfl

/-- An array of integers has nothing to be read again. -/
theorem intsToJson_reread? {values : Array Int} (h : ∀ n ∈ values.toList, Word.holdsInt n) :
    (intsToJson values).fits ∧ (intsToJson values).reread? = some (intsToJson values) :=
  Json.reread?_of_isIntegral (v := intsToJson values) (areIntegral_map_ofInt h)

/-- A value without parts is not nested. -/
theorem depth_of_isFlat {v : Json} (hv : v.isFlat) : v.depth = 0 := by
  cases v <;> first | rfl | cases hv

/-- An update that fits is written as a value that does. -/
theorem fits_updateToJson {u : Update} (hu : u.Fits) : (updateToJson u).fits := by
  cases u with
  | instructionPointer value | dataPointer value =>
    simp [updateToJson, Json.ofNat, Json.fits, Json.membersFit, fits_of_lt hu]
  | data index value =>
    simp [updateToJson, Json.ofNat, Json.ofInt, Json.fits, Json.membersFit, fits_of_lt hu.1,
      fits_of_holdsInt hu.2]
  | allData values =>
    simp [updateToJson, Json.fits, Json.membersFit, (intsToJson_reread? hu).1]
  | stack name change value =>
    cases value with
    | none => cases name <;> simp [updateToJson, optionalMember, Json.fits, Json.membersFit]
    | some v =>
      cases name <;>
        simp [updateToJson, optionalMember, Json.fits, Json.membersFit, (hu v rfl).2]
  | entry table key change value =>
    simp [updateToJson, Json.fits, Json.membersFit, hu.2]

/-- An update that fits is nested no deeper than two levels. -/
theorem depth_updateToJson {u : Update} (hu : u.Fits) : (updateToJson u).depth ≤ 2 := by
  cases u with
  | instructionPointer value | dataPointer value =>
    simp [updateToJson, Json.ofNat, Json.depth, Json.membersDepth]
  | data index value =>
    simp [updateToJson, Json.ofNat, Json.ofInt, Json.depth, Json.membersDepth]
  | allData values =>
    simp [updateToJson, Json.depth, Json.membersDepth, intsToJson, itemsDepth_map_ofInt]
  | stack name change value =>
    cases value with
    | none => cases name <;> simp [updateToJson, optionalMember, Json.depth, Json.membersDepth]
    | some v =>
      cases name <;>
        simp [updateToJson, optionalMember, Json.depth, Json.membersDepth,
          depth_of_isFlat (hu v rfl).1]
  | entry table key change value =>
    simp [updateToJson, Json.depth, Json.membersDepth, depth_of_isFlat hu.1]

/-- To read the value of an update again is to read the update again. -/
theorem reread?_updateToJson {u : Update} (hu : u.Fits) :
    (updateToJson u).reread? = u.reread?.map updateToJson := by
  cases u with
  | instructionPointer value | dataPointer value | data index value => rfl
  | allData values =>
    simp [updateToJson, Json.reread?, Json.rereadMembers?, (intsToJson_reread? hu).2,
      Update.reread?]
  | stack name change value =>
    cases value with
    | none => cases name <;> rfl
    | some v =>
      cases name <;>
      · simp only [updateToJson, optionalMember, Option.map, Option.toList, List.cons_append,
          List.nil_append, Json.reread?, Json.rereadMembers?, Update.reread?]
        cases v.reread? <;> rfl
  | entry table key change value =>
    simp only [updateToJson, Json.reread?, Json.rereadMembers?, Update.reread?]
    cases value.reread? <;> rfl

/-- An event that fits is written as a value that does. -/
theorem fits_eventToJson {e : Event} (he : e.Fits) : (eventToJson e).fits := by
  cases e with
  | update u => simp [eventToJson, Json.fits, Json.membersFit, fits_updateToJson he]
  | created lang visualize memory =>
    cases memory with
    | none => rfl
    | some cells =>
      simp [eventToJson, optionalMember, Json.fits, Json.membersFit,
        (intsToJson_reread? (he cells rfl)).1]
  | request kind => cases kind <;> rfl
  | _ => rfl

/-- An event that fits is nested no deeper than three levels. -/
theorem depth_eventToJson {e : Event} (he : e.Fits) : (eventToJson e).depth ≤ 3 := by
  cases e with
  | update u =>
    have hdepth := depth_updateToJson he
    simp only [eventToJson, Json.depth, Json.membersDepth]
    omega
  | created lang visualize memory =>
    cases memory <;>
      simp [eventToJson, optionalMember, Json.depth, Json.membersDepth, intsToJson,
        itemsDepth_map_ofInt]
  | request kind => cases kind <;> simp [eventToJson, Json.depth, Json.membersDepth]
  | _ => simp [eventToJson, Json.depth, Json.membersDepth]

/-- To read the value of an event again is to read the event again. -/
theorem reread?_eventToJson {e : Event} (he : e.Fits) :
    (eventToJson e).reread? = e.reread?.map eventToJson := by
  cases e with
  | update u =>
    simp only [eventToJson, Json.reread?, Json.rereadMembers?, reread?_updateToJson he,
      Event.reread?]
    cases u.reread? <;> rfl
  | created lang visualize memory =>
    cases memory with
    | none => rfl
    | some cells =>
      simp [eventToJson, optionalMember, Json.reread?, Json.rereadMembers?, Event.reread?,
        (intsToJson_reread? (he cells rfl)).2]
  | request kind => cases kind <;> rfl
  | _ => rfl

/-- A value without parts that is read again is such a value. -/
theorem isFlat_of_reread? {v w : Json} (hv : v.isFlat ∧ v.fits) (h : v.reread? = some w) :
    w.isFlat ∧ w.fits := by
  cases v with
  | number n =>
    obtain ⟨m, hm, rfl⟩ := Option.map_eq_some_iff.mp h
    cases n with
    | int i =>
      cases hm
      exact hv
    | float x =>
      obtain ⟨y, hy, hnear⟩ := Json.reread?_float hv.2
      rw [hy] at hm
      cases hm
      exact ⟨rfl, hnear.finite⟩
  | array items => cases hv.1
  | object members => cases hv.1
  | _ =>
    cases h
    exact hv

/-- An event that is read again can be written like the event itself. -/
theorem fits_of_reread? {e e' : Event} (he : e.Fits) (h : e.reread? = some e') : e'.Fits := by
  cases e with
  | update u =>
    obtain ⟨u', hu', rfl⟩ := Option.map_eq_some_iff.mp h
    cases u with
    | stack name change value =>
      cases value with
      | none =>
        cases hu'
        exact he
      | some v =>
        obtain ⟨w, hw, rfl⟩ := Option.map_eq_some_iff.mp hu'
        rintro _ ⟨⟩
        exact isFlat_of_reread? (he v rfl) hw
    | entry table key change v =>
      obtain ⟨w, hw, rfl⟩ := Option.map_eq_some_iff.mp hu'
      exact isFlat_of_reread? he hw
    | _ =>
      cases hu'
      exact he
  | _ =>
    cases h
    exact he

/-- What is read of the line of an event is the event with each double in it read again, and
without a `null` that stands for the value of a stack. -/
theorem readEvent?_writeEvent {e : Event} (he : e.Fits) :
    readEvent? (writeEvent e) = e.reread?.map Event.unnulled := by
  have hdepth := (depth_eventToJson he).trans (by decide : 3 ≤ Json.maxDepth)
  rw [readEvent?, writeEvent, Json.read?_compact_reread (fits_eventToJson he) hdepth,
    reread?_eventToJson he]
  cases hagain : e.reread? with
  | none => rfl
  | some e' => exact event?_eventToJson (fits_of_reread? he hagain)

/-- An event without a double has nothing to be read again. -/
theorem reread?_of_double?_eq_none {e : Event} (he : e.Fits) (h : e.double? = none) :
    e.reread? = some e := by
  cases e with
  | update u =>
    cases u with
    | stack name change value =>
      match value with
      | none | some .null | some (.bool _) | some (.string _) | some (.number (.int _)) => rfl
      | some (.number (.float x)) => cases h
      | some (.array items) => cases (he _ rfl).1
      | some (.object members) => cases (he _ rfl).1
    | entry table key change value =>
      match value with
      | .null | .bool _ | .string _ | .number (.int _) => rfl
      | .number (.float x) => cases h
      | .array items => cases he.1
      | .object members => cases he.1
    | _ => rfl
  | _ => rfl

/-- The double in an event is finite, and read again it takes its place in what comes back. -/
theorem exists_reread?_of_double? {e : Event} {x : Float} (he : e.Fits) (h : e.double? = some x) :
    ∃ y, Json.Number.reread? (.float x) = some (.float y) ∧ Json.Near x y ∧
      e.reread?.map Event.unnulled = some (e.withDouble y) := by
  have hfinite : Decimal.isFinite x := by
    unfold Event.double? at h
    split at h <;> cases h
    · exact (he _ rfl).2
    · exact he.2
  obtain ⟨y, hy, hnear⟩ := Json.reread?_float hfinite
  refine ⟨y, hy, hnear, ?_⟩
  unfold Event.double? at h
  split at h <;> cases h <;>
    simp [Event.reread?, Update.reread?, Json.reread?, hy, Event.unnulled, Update.unnulled,
      Event.withDouble, Update.withDouble]

/-- The line of every event that fits is read as an event. -/
theorem exists_readEvent?_writeEvent {e : Event} (he : e.Fits) :
    ∃ e', readEvent? (writeEvent e) = some e' ∧ e.ReadAs e' := by
  rw [readEvent?_writeEvent he]
  cases hx : e.double? with
  | none => exact ⟨_, by rw [reread?_of_double?_eq_none he hx]; rfl, .plain hx⟩
  | some x =>
    obtain ⟨y, hy, hnear, hback⟩ := exists_reread?_of_double? he hx
    exact ⟨_, hback, .double hx hy hnear⟩

/-- The same event comes back just if no `null` stands for the value of a stack and the double in
it, if there is one, is read back from its own text. -/
theorem readEvent?_writeEvent_iff {e : Event} (he : e.Fits) :
    readEvent? (writeEvent e) = some e ↔
      e.hasNull = false ∧ ∀ x ∈ e.double?, Json.Number.reread? (.float x) = some (.float x) := by
  -- Only a value that is `null` or a double makes a difference.
  have hsame (hr : e.reread? = some e) (hu : e.unnulled = e) (hn : e.hasNull = false)
      (hd : e.double? = none) : e.reread?.map Event.unnulled = some e ↔
        e.hasNull = false ∧ ∀ x ∈ e.double?, Json.Number.reread? (.float x) = some (.float x) := by
    simp [hr, hu, hn, hd]
  rw [readEvent?_writeEvent he]
  cases e with
  | update u =>
    cases u with
    | stack name change value =>
      match value with
      | none => exact hsame rfl rfl rfl rfl
      | some .null =>
        simp [Event.hasNull, Event.reread?, Update.reread?, Json.reread?, Event.unnulled,
          Update.unnulled]
      | some (.bool b) => exact hsame rfl rfl rfl rfl
      | some (.string text) => exact hsame rfl rfl rfl rfl
      | some (.number (.int n)) => exact hsame rfl rfl rfl rfl
      | some (.number (.float x)) =>
        simp only [Event.hasNull, Event.reread?, Update.reread?, Json.reread?, Event.double?,
          Option.mem_some, forall_eq', true_and]
        cases Json.Number.reread? (.float x) <;> simp [Event.unnulled, Update.unnulled]
      | some (.array items) => cases (he _ rfl).1
      | some (.object members) => cases (he _ rfl).1
    | entry table key change value =>
      match value with
      | .null => exact hsame rfl rfl rfl rfl
      | .bool b => exact hsame rfl rfl rfl rfl
      | .string text => exact hsame rfl rfl rfl rfl
      | .number (.int n) => exact hsame rfl rfl rfl rfl
      | .number (.float x) =>
        simp only [Event.hasNull, Event.reread?, Update.reread?, Json.reread?, Event.double?,
          Option.mem_some, forall_eq', true_and]
        cases Json.Number.reread? (.float x) <;> simp [Event.unnulled, Update.unnulled]
      | .array items => cases he.1
      | .object members => cases he.1
    | _ => exact hsame rfl rfl rfl rfl
  | _ => exact hsame rfl rfl rfl rfl

end Wire

end EsotericHost
