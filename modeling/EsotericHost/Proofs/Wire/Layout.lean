import EsotericHost.Proofs.Json.Canonical
import EsotericHost.Proofs.Json.Reading
import EsotericHost.Wire.Command

/-!
# Commands in any layout

The line that a command is written on is one of many that stand for it. The members of an object
may come in any order, the tag in any place, and others that the record does not know may stand
between them; a member may be left out where the command has the value that stands for a missing
one; and between the tokens there may be blanks. `LaysOut` is the relation of a command to the
values that stand for it in this way, and each of their texts is read as the command, while a text
in which a known member stands twice is refused.
-/

namespace EsotericHost

/-- The values inside a command are in normal form. -/
def Command.Canonical : Command → Prop
  | .setLanguage _ options => options.toJson.canonical = options.toJson
  | .unblock value _ => value.canonical = value
  | .loadCode _ | .press _ _ => True

/-- The name of the variant. -/
def Command.variant : Command → String
  | .setLanguage .. => "setLanguage"
  | .loadCode _ => "loadCode"
  | .press .. => "buttonPress"
  | .unblock .. => "unblock"

/-- The names of the fields of the variant. -/
def Command.fieldNames : Command → List String
  | .setLanguage .. => ["lang", "options"]
  | .loadCode _ => ["source"]
  | .press .. => ["action", "args"]
  | .unblock .. => ["value", "popStatus"]

namespace Wire

/-! ## Records -/

/-- A record is written with its members in any order, and with others among them whose names are
not those of its fields. -/
def Mixes (names : List String) (known written : List (String × Json)) : Prop :=
  ∃ others, (∀ m ∈ others, m.1 ∉ names) ∧ written.Perm (known ++ others)

variable {name tag : String} {names : List String} {known written : List (String × Json)}

/-- A member is found wherever it stands. -/
theorem once?_perm (name : String) {members : List (String × Json)} (h : written.Perm members) :
    once? name written = once? name members := by
  have hperm := h.filter (·.1 = name)
  have hlength := hperm.length_eq
  rw [once?, once?]
  generalize written.filter (·.1 = name) = ms at *
  generalize members.filter (·.1 = name) = ns at *
  match ms, ns, hlength with
  | [], [], _ => rfl
  | [_], [_], _ => rw [List.perm_singleton.mp hperm]
  | _ :: _ :: _, _ :: _ :: _, _ => rfl

/-- Members of other names are no copies of a member. -/
theorem once?_append {others : List (String × Json)} (h : ∀ m ∈ others, m.1 ≠ name) :
    once? name (known ++ others) = once? name known := by
  have hnone : others.filter (·.1 = name) = [] := by simpa using h
  rw [once?, once?, List.filter_append, hnone, List.append_nil]

/-- A known member is found as often among others as without them. -/
theorem Mixes.once? (h : Mixes names known written) (hname : name ∈ names) :
    once? name written = once? name known := by
  obtain ⟨others, hothers, hperm⟩ := h
  rw [once?_perm name hperm, once?_append]
  rintro m hm rfl
  exact hothers m hm hname

/-- A member that stands twice is refused. -/
theorem once?_eq_none (h : 2 ≤ written.countP (·.1 = name)) : once? name written = none := by
  rw [List.countP_eq_length_filter] at h
  rw [once?]
  split <;> simp_all

/-- A member of another name is no copy. -/
theorem once?_cons_ne {other : String} (hother : other ≠ name) (w : Json) :
    once? other ((name, w) :: written) = once? other written := by
  rw [once?, once?, List.filter_cons_of_neg (by simpa using hother.symm)]

/-- The other members stand as often without the tag as with it. -/
theorem once?_filter_ne (hname : name ≠ tag) :
    once? name (written.filter (·.1 ≠ tag)) = once? name written := by
  rw [once?, once?, List.filter_filter]
  congr 2
  funext m
  by_cases hm : m.1 = name <;> simp [hm, hname]

/-- Records in which each known member is found alike have the same values. -/
theorem values?_congr (h : ∀ name ∈ names, once? name written = once? name known) :
    (Fields.named written).values? names = (Fields.named known).values? names := by
  simp only [Fields.values?]
  induction names with
  | nil => rfl
  | cons name names ih =>
    rw [List.mapM_cons, List.mapM_cons, h name (by simp), ih fun n hn => h n (by simp [hn])]

/-- A record in which a known member is missing or doubled has no values. -/
theorem values?_eq_none (hname : name ∈ names) (h : once? name written = none) :
    (Fields.named written).values? names = none := by
  simp only [Fields.values?]
  induction names with
  | nil => cases hname
  | cons first names ih =>
    rw [List.mapM_cons]
    rcases List.mem_cons.mp hname with rfl | hname
    · rw [h]
      rfl
    · rw [ih hname]
      cases once? first written <;> rfl

/-! ## Layouts -/

/-- A member for a text that may be missing: if it is, the member is left out or `null`. -/
inductive TextMember (name : String) : Option String → List (String × Json) → Prop
  | given (s : String) : TextMember name (some s) [(name, .string s)]
  | absent : TextMember name none []
  | null : TextMember name none [(name, .null)]

/-- The values that the arguments of a button are written as. -/
inductive LaysOutArgs : ButtonArgs → Json → Prop
  | mk {args : ButtonArgs} {code text written : List (String × Json)}
      (hcode : TextMember "code" args.code code) (htext : TextMember "text" args.text text)
      (h : Mixes argumentNames (code ++ text) written) : LaysOutArgs args (.object written)

/-- The members, besides the tag, that a command is written with. -/
inductive Fills : Command → List (String × Json) → Prop
  | setLanguage (lang : String) {options : Options} {w : Json} (h : w.Rearranged options.toJson) :
      Fills (.setLanguage lang options) [("lang", .string lang), ("options", w)]
  | plainLanguage (lang : String) : Fills (.setLanguage lang .empty) [("lang", .string lang)]
  | loadCode (source : String) : Fills (.loadCode source) [("source", .string source)]
  | press (button : Button) {args : ButtonArgs} {w : Json} (h : LaysOutArgs args w) :
      Fills (.press button args) [("action", .string button.name), ("args", w)]
  | barePress (button : Button) :
      Fills (.press button ⟨none, none⟩) [("action", .string button.name)]
  | unblock {value w : Json} (h : w.Rearranged value) (popStatus : Bool) :
      Fills (.unblock value popStatus) [("value", w), ("popStatus", .bool popStatus)]
  | plainUnblock {value w : Json} (h : w.Rearranged value) :
      Fills (.unblock value true) [("value", w)]

/-- The values that stand for a command. -/
inductive LaysOut (command : Command) : Json → Prop
  | mk {known written : List (String × Json)} (h : Fills command known)
      (hwritten : Mixes ("cmd" :: command.fieldNames)
        (("cmd", .string command.variant) :: known) written) : LaysOut command (.object written)

/-! ## Reading a layout -/

/-- A button is known by its name. -/
theorem button?_name (button : Button) :
    button? isInnerNull (.string button.name) = some button := by
  cases button <;> decide

/-- The arguments of a button are read from every value that they are laid out as. -/
theorem buttonArgs?_of_laysOut {args : ButtonArgs} {v : Json} (h : LaysOutArgs args v) :
    buttonArgs? v = some args := by
  obtain ⟨hcode, htext, hmixes⟩ := h
  rename_i code text written
  have hvalues : (Fields.named written).values? argumentNames =
      (Fields.named (code ++ text)).values? argumentNames :=
    values?_congr fun name hname => hmixes.once? hname
  obtain ⟨c, t⟩ := args
  have hread : buttonArgs? (.object (code ++ text)) = some ⟨c, t⟩ := by
    cases hcode <;> cases htext <;> rfl
  simpa only [buttonArgs?, fieldsOf?, Option.bind_eq_bind, Option.bind_some, hvalues] using hread

/-- Options are read from every rearrangement of their value. -/
theorem options?_of_rearranged {options : Options}
    (ho : options.toJson.canonical = options.toJson) {w : Json}
    (h : w.Rearranged options.toJson) : options? w = some options := by
  rw [options?, members?, h.canonical_eq, ho]
  rfl

/-- The fields of a command are read from the members that it is written with. -/
theorem commandOf?_of_fills {command : Command} (hc : command.Canonical)
    {known : List (String × Json)} (h : Fills command known) :
    commandOf? command.variant (.named known) = some command := by
  cases h with
  | @setLanguage lang options w h =>
    have hread : commandOf? "setLanguage" (.named [("lang", .string lang), ("options", w)]) =
      (options? w).bind fun options => some (.setLanguage lang options) := rfl
    exact hread.trans (by rw [options?_of_rearranged hc h]; rfl)
  | plainLanguage lang => rfl
  | loadCode source => rfl
  | @press button args w h =>
    have hread : commandOf? "buttonPress" (.named [("action", .string button.name), ("args", w)]) =
      (button? isInnerNull (.string button.name)).bind fun button =>
        (buttonArgs? w).bind fun args => some (.press button args) := rfl
    exact hread.trans (by rw [button?_name, buttonArgs?_of_laysOut h]; rfl)
  | barePress button =>
    have hread : commandOf? "buttonPress" (.named [("action", .string button.name)]) =
      (button? isInnerNull (.string button.name)).bind fun button =>
        some (.press button ⟨none, none⟩) := rfl
    exact hread.trans (by rw [button?_name]; rfl)
  | @unblock value w h popStatus =>
    have hread : commandOf? "unblock" (.named [("value", w), ("popStatus", .bool popStatus)]) =
      some (.unblock w.canonical popStatus) := rfl
    exact hread.trans (by rw [h.canonical_eq.trans hc])
  | @plainUnblock value w h =>
    have hread : commandOf? "unblock" (.named [("value", w)]) =
      some (.unblock w.canonical true) := rfl
    exact hread.trans (by rw [h.canonical_eq.trans hc])

/-- Nothing but the values of its fields matters for a command. -/
theorem commandOf?_congr (command : Command) {fields other : Fields}
    (h : fields.values? command.fieldNames = other.values? command.fieldNames) :
    commandOf? command.variant fields = commandOf? command.variant other := by
  cases command <;>
    simp only [Command.fieldNames, Command.variant, commandOf?] at h ⊢ <;>
    rw [h]

/-- A command whose fields have no values is not read. -/
theorem commandOf?_eq_none (command : Command) {fields : Fields}
    (h : fields.values? command.fieldNames = none) : commandOf? command.variant fields = none := by
  cases command <;>
    simp only [Command.fieldNames, Command.variant, commandOf?] at h ⊢ <;>
    rw [h] <;> rfl

/-- No field of a command is named like the tag. -/
theorem ne_cmd_of_mem_fieldNames {command : Command} (hname : name ∈ command.fieldNames) :
    name ≠ "cmd" := by
  rintro rfl
  cases command <;> simp [Command.fieldNames] at hname

/-- No member that fills a command is named like the tag. -/
theorem Fills.ne_cmd {command : Command} (h : Fills command known) :
    ∀ m ∈ known, m.1 ≠ "cmd" := by
  cases h <;> simp

/-- The tag of a command is found in each of its layouts. -/
theorem Fills.once?_cmd {command : Command} (h : Fills command known)
    (hwritten : Mixes ("cmd" :: command.fieldNames)
      (("cmd", .string command.variant) :: known) written) :
    once? "cmd" written = some (some (.string command.variant)) := by
  have hknown : known.filter (·.1 = "cmd") = [] := by simpa using h.ne_cmd
  rw [hwritten.once? (by simp), once?]
  simp [hknown]

/-- A record with the tag of a command is read field by field. -/
theorem command?_of_tag {command : Command}
    (htag : once? "cmd" written = some (some (.string command.variant))) :
    command? (.object written) =
      commandOf? command.variant (.named (written.filter (·.1 ≠ "cmd"))) := by
  have hvariant : variant? commandNames (.string command.variant) = some command.variant := by
    cases command <;> rfl
  simp only [command?, tagged?, htag, Option.bind_eq_bind, Option.bind_some, hvariant]

/-- A command is read from each of its layouts. -/
theorem command?_of_laysOut {command : Command} (hc : command.Canonical) {v : Json}
    (h : LaysOut command v) : command? v = some command := by
  obtain @⟨known, written, hfills, hmixes⟩ := h
  rw [command?_of_tag (hfills.once?_cmd hmixes), ← commandOf?_of_fills hc hfills]
  refine commandOf?_congr command (values?_congr fun name hname => ?_)
  have hne := ne_cmd_of_mem_fieldNames hname
  rw [once?_filter_ne hne, hmixes.once? (by simp [hname])]
  exact once?_cons_ne hne _

/-! ## Second copies -/

/-- A layout of a command and the same with a second copy of a known member in it, which may have
any value and stand anywhere. -/
inductive Doubles : Command → Json → Json → Prop
  | member {command : Command} {written doubled : List (String × Json)} {name : String} (w : Json)
      (hname : name ∈ "cmd" :: command.fieldNames) (hthere : name ∈ written.map (·.1))
      (h : doubled.Perm ((name, w) :: written)) :
      Doubles command (.object written) (.object doubled)
  /-- In the arguments of a button; the other members stay. -/
  | argument {button : Button} {args : ButtonArgs}
      {written doubled others inner inner' : List (String × Json)} {name : String} (w : Json)
      (hname : name ∈ argumentNames) (hthere : name ∈ inner.map (·.1))
      (hinner : inner'.Perm ((name, w) :: inner))
      (h : written.Perm (("args", .object inner) :: others))
      (h' : doubled.Perm (("args", .object inner') :: others)) :
      Doubles (.press button args) (.object written) (.object doubled)

/-- A second copy of a member makes it ambiguous, wherever it stands. -/
theorem once?_eq_none_of_perm {w : Json} {doubled : List (String × Json)}
    (hthere : name ∈ written.map (·.1)) (h : doubled.Perm ((name, w) :: written)) :
    once? name doubled = none := by
  apply once?_eq_none
  obtain ⟨m, hm, hmname⟩ := List.mem_map.mp hthere
  have hpos : 0 < written.countP (·.1 = name) :=
    List.countP_pos_iff.mpr ⟨m, hm, by simpa using hmname⟩
  rw [h.countP_eq, List.countP_cons_of_pos (by simp)]
  omega

/-- A second copy of one member leaves the others as they are found. -/
theorem once?_eq_of_perm {w : Json} {other : String} (hother : other ≠ name)
    {doubled : List (String × Json)} (h : doubled.Perm ((name, w) :: written)) :
    once? other doubled = once? other written := by
  rw [once?_perm other h, once?_cons_ne hother]

/-- A member that is there and is accepted is the only one of its name. -/
theorem once?_of_perm_cons {v w : Json} {others : List (String × Json)}
    (h : written.Perm ((name, v) :: others)) (hw : once? name written ≠ none) :
    once? name ((name, w) :: others) = some (some w) := by
  rw [once?_perm name h, once?, List.filter_cons_of_pos (by simp)] at hw
  rw [once?, List.filter_cons_of_pos (by simp)]
  cases hothers : others.filter (·.1 = name) with
  | nil => rfl
  | cons m ms => simp [hothers] at hw

/-- A button whose arguments cannot be read is not pressed. -/
theorem commandOf?_press_eq_none {v : Json} (hargs : buttonArgs? v = none)
    (h : once? "args" written = some (some v)) :
    commandOf? "buttonPress" (.named written) = none := by
  simp only [commandOf?, Fields.values?, List.mapM_cons, h]
  cases once? "action" written with
  | none => rfl
  | some action =>
    cases haction : required (button? isInnerNull) action <;>
      simp [haction, defaulted, hargs]

/-- No command is read from a layout with a second copy of a known member. -/
theorem command?_of_doubles {command : Command} {v v' : Json} (hv : LaysOut command v)
    (h : Doubles command v v') : command? v' = none := by
  obtain @⟨known, written, hfills, hmixes⟩ := hv
  have htag := hfills.once?_cmd hmixes
  cases h with
  | @member _ _ doubled name w hname hthere h =>
    have hnone := once?_eq_none_of_perm hthere h
    rcases List.mem_cons.mp hname with rfl | hfield
    · simp [command?, tagged?, hnone]
    · have hne := ne_cmd_of_mem_fieldNames hfield
      rw [← once?_eq_of_perm hne.symm h] at htag
      rw [command?_of_tag htag]
      refine commandOf?_eq_none command (values?_eq_none hfield ?_)
      rw [once?_filter_ne hne, hnone]
  | @argument button args _ doubled others inner inner' name w hname hthere hinner h h' =>
    have hrefused : buttonArgs? (.object inner') = none := by
      have hnone : (Fields.named inner').values? argumentNames = none :=
        values?_eq_none hname (once?_eq_none_of_perm hthere hinner)
      simp [buttonArgs?, fieldsOf?, hnone]
    have honce : once? "args" written ≠ none := by
      rw [hmixes.once? (by simp [Command.fieldNames])]
      cases hfills <;> simp [once?]
    have hargs : once? "args" doubled = some (some (.object inner')) := by
      rw [once?_perm "args" h', once?_of_perm_cons h honce]
    rw [once?_eq_of_perm (by decide) h, ← once?_eq_of_perm (by decide) h'] at htag
    rw [command?_of_tag htag]
    refine commandOf?_press_eq_none hrefused ?_
    rw [once?_filter_ne (by decide), hargs]

/-! ## Texts -/

/-- Every text of a layout is read as the command, whatever the order of the members, the unknown
members among them, the blanks and the escapes; and none is read as any command if a known member
stands in it twice. -/
theorem readCommand?_layout {command : Command} (hc : command.Canonical) {v : Json}
    (hv : LaysOut command v) :
    (∀ text, v.IsText text → v.depth ≤ Json.maxDepth → readCommand? text = some command) ∧
      ∀ v' text, Doubles command v v' → v'.IsText text → readCommand? text = none := by
  refine ⟨fun text htext hdepth => ?_, fun v' text hdoubles htext => ?_⟩
  · rw [readCommand?, htext.read? hdepth]
    exact command?_of_laysOut hc hv
  · rw [readCommand?]
    cases hread : Json.read? Json.maxDepth text with
    | none => rfl
    | some w =>
      obtain rfl := (Json.read?_eq_some_iff.mp hread).1.unique htext
      exact command?_of_doubles hv hdoubles

/-- A button with its tag behind other members, one argument `null`, and a member that no button
has; and the same with a second tag. -/
theorem readCommand?_layout_button :
    readCommand? "\x7b \"args\": \x7b\"text\": null, \"code\": \",\"\x7d, \"at\": [1],\t\"cmd\":
        \"\\u0062uttonPress\", \"action\": \"step\"\x7d" = some (.press .step ⟨some ",", none⟩) ∧
    readCommand? "\x7b\"cmd\":\"\", \"args\": \x7b\"text\": null, \"code\": \",\"\x7d, \"at\": [1],
        \"cmd\": \"buttonPress\", \"action\": \"step\"\x7d" = none := by
  have hargs : LaysOutArgs ⟨some ",", none⟩ (.object [("text", .null), ("code", .string ",")]) :=
    .mk (.given ",") .null ⟨[], by simp, .swap _ _ _⟩
  have hlayout : LaysOut (.press .step ⟨some ",", none⟩) (.object
      [("args", .object [("text", .null), ("code", .string ",")]), ("at", .array [.ofNat 1]),
        ("cmd", .string "buttonPress"), ("action", .string "step")]) :=
    .mk (.press .step hargs) ⟨[("at", .array [.ofNat 1])], by simp [Command.fieldNames],
      (List.perm_append_comm : ([_, _] ++ [_, _]).Perm ([_, _] ++ [_, _]))⟩
  obtain ⟨hread, hrefused⟩ := readCommand?_layout (by trivial) hlayout
  refine ⟨hread _ (Json.read?_eq_some_iff.mp (?_ : Json.read? Json.maxDepth _ = _)).1 (by decide),
    hrefused (.object (("cmd", .string "") :: _)) _
      (.member (.string "") (by decide) (by simp) (.refl _))
      (Json.read?_eq_some_iff.mp (?_ : Json.read? Json.maxDepth _ = _)).1⟩
  all_goals
    simp only [Json.read?, String.reduceToList]
    rfl

end Wire

end EsotericHost
