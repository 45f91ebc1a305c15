import EsotericHost.Proofs.Machine.Recast

/-!
# The moves of the pointer

The pointer of a playfield machine goes from place to place, and the machine counts how often it
crosses an edge. Here the moves of a call are told by their directions (`stepMoves`,
`resumeMoves`), and what comes of them is worked out from these alone: where they lead on a field
without edges, taken modulo the width and the height, and which of them cross an edge
(`crossings`).

A call moves the pointer where its moves lead and counts what they cross. It fails for the limit
with the first crossing beyond it and makes no move after that (`goes_step`, `goes_resume`).
-/

namespace EsotericHost.Befunge

/-! ## Moves -/

/-- How many columns a move goes to the right. -/
def Direction.columns : Direction → Int
  | right => 1
  | left => -1
  | up | down => 0

/-- How many rows a move goes down. -/
def Direction.rows : Direction → Int
  | down => 1
  | up => -1
  | right | left => 0

/-- How many columns moves lead to the right, taken together. -/
def netColumns : List Direction → Int
  | [] => 0
  | d :: trail => netColumns trail + d.columns

/-- How many rows moves lead down. -/
def netRows : List Direction → Int
  | [] => 0
  | d :: trail => netRows trail + d.rows

/-- The column to which moves lead from the corner, the last one first. -/
def columnOf (f : Field) (trail : List Direction) : Int := netColumns trail % f.width

/-- The row to which moves lead from the corner. -/
def rowOf (f : Field) (trail : List Direction) : Int := netRows trail % f.height

/-- Whether a move after others leaves the field by one edge and comes in at the opposite one. -/
def crosses (f : Field) (trail : List Direction) : Direction → Bool
  | .right => columnOf f trail + 1 = f.width
  | .left => columnOf f trail = 0
  | .down => rowOf f trail + 1 = f.height
  | .up => rowOf f trail = 0

/-- How many moves of a trail are crossings. -/
def crossings (f : Field) : List Direction → Nat
  | [] => 0
  | d :: trail => crossings f trail + if crosses f trail d then 1 else 0

/-- A move after others is a crossing that comes after the first `n`. -/
def Beyond (f : Field) (n : Nat) (trail : List Direction) (d : Direction) : Prop :=
  crosses f trail d = true ∧ n < crossings f (d :: trail)

variable {f : Field} {trail new : List Direction} {limit : Option Nat} {d : Direction}

/-- One more move takes the column along, around the width of the field. -/
theorem columnOf_cons : columnOf f (d :: trail) = (columnOf f trail + d.columns) % f.width := by
  rw [columnOf, columnOf, netColumns, Int.emod_add_emod]

/-- One more move takes the row along, around the height of the field. -/
theorem rowOf_cons : rowOf f (d :: trail) = (rowOf f trail + d.rows) % f.height := by
  rw [rowOf, rowOf, netRows, Int.emod_add_emod]

/-- A pointer that goes one place up in a row of places, and comes in at the start from the last. -/
theorem add_one_mod {size x : Nat} (hx : x < size) :
    (((x + 1) % size : Nat) : Int) = ((x : Int) + 1) % size ∧
      decide ((x + 1) % size = 0) = decide ((x : Int) + 1 = size) := by
  refine ⟨by push_cast; rfl, decide_eq_decide.mpr ?_⟩
  by_cases hlast : x + 1 = size
  · rw [hlast, Nat.mod_self]
    omega
  · rw [Nat.mod_eq_of_lt (by omega)]
    omega

/-- A pointer that goes one place down comes in at the last place from the first one. -/
theorem sub_one_mod {size x : Nat} (hx : x < size) :
    (if 0 < x then ((x - 1 : Nat) : Int) else ((size - 1 : Nat) : Int)) =
      ((x : Int) + -1) % size := by
  by_cases hpos : 0 < x
  · rw [if_pos hpos, Int.emod_eq_of_lt (by omega) (by omega)]
    omega
  · have hzero : (x : Int) + -1 = (size - 1 : Nat) + size * (-1) := by omega
    rw [if_neg hpos, hzero, Int.add_mul_emod_self_left, Int.emod_eq_of_lt (by omega) (by omega)]

/-- A move goes where its trail leads to, and crosses an edge just if the trail does. -/
theorem move_trail (d : Direction) {x y : Nat} (hx : (x : Int) = columnOf f trail)
    (hy : (y : Int) = rowOf f trail) (hxlt : x < f.width) (hylt : y < f.height) :
    ∃ x' y' : Nat, d.move f.width f.height x y = .ok (x', y', crosses f trail d) ∧
      (x' : Int) = columnOf f (d :: trail) ∧ (y' : Int) = rowOf f (d :: trail) := by
  unfold crosses
  rw [columnOf_cons, rowOf_cons, ← hx, ← hy]
  have hstay : (x : Int) = ((x : Int) + 0) % f.width := by
    rw [Int.add_zero, Int.emod_eq_of_lt (by omega) (by omega)]
  have hstay' : (y : Int) = ((y : Int) + 0) % f.height := by
    rw [Int.add_zero, Int.emod_eq_of_lt (by omega) (by omega)]
  unfold Direction.move
  cases d with
  | right =>
    obtain ⟨hnext, hcross⟩ := add_one_mod hxlt
    refine ⟨(x + 1) % f.width, y, ?_, hnext, hstay'⟩
    dsimp only
    rw [if_neg (by omega), hcross]
  | down =>
    obtain ⟨hnext, hcross⟩ := add_one_mod hylt
    refine ⟨x, (y + 1) % f.height, ?_, hstay, hnext⟩
    dsimp only
    rw [if_neg (by omega), hcross]
  | left =>
    have hnext := sub_one_mod hxlt
    dsimp only
    by_cases hpos : 0 < x
    · rw [if_pos hpos] at hnext ⊢
      refine ⟨x - 1, y, ?_, hnext, hstay'⟩
      rw [decide_eq_false (by omega)]
    · rw [if_neg hpos] at hnext ⊢
      refine ⟨f.width - 1, y, ?_, hnext, hstay'⟩
      rw [if_neg (by omega), decide_eq_true (by omega)]
  | up =>
    have hnext := sub_one_mod hylt
    dsimp only
    by_cases hpos : 0 < y
    · rw [if_pos hpos] at hnext ⊢
      refine ⟨x, y - 1, ?_, hstay, hnext⟩
      rw [decide_eq_false (by omega)]
    · rw [if_neg hpos] at hnext ⊢
      refine ⟨x, f.height - 1, ?_, hstay, hnext⟩
      rw [if_neg (by omega), decide_eq_true (by omega)]

/-! ## The limit -/

/-- None of the moves after a trail is a crossing beyond the limit. -/
def Within (f : Field) (limit : Option Nat) (trail new : List Direction) : Prop :=
  ∀ n d done, limit = some n → d :: done <:+ new → ¬ Beyond f n (done ++ trail) d

/-- No moves are within any limit. -/
theorem within_nil : Within f limit trail [] :=
  fun _ _ _ _ hsuffix => nomatch List.suffix_nil.mp hsuffix

/-- Moves are within a limit if all but the last are and the last is no crossing beyond it. -/
theorem within_cons : Within f limit trail (d :: new) ↔
    Within f limit trail new ∧ ∀ n, limit = some n → ¬ Beyond f n (new ++ trail) d := by
  constructor
  · intro h
    refine ⟨fun n d' done hn hsuffix => h n d' done hn (hsuffix.trans (List.suffix_cons d new)),
      fun n hn => h n d new hn List.suffix_rfl⟩
  · rintro ⟨hnew, hlast⟩ n d' done hn hsuffix
    rcases List.suffix_cons_iff.mp hsuffix with heq | hsuffix
    · obtain ⟨rfl, rfl⟩ := List.cons.inj heq
      exact hlast n hn
    · exact hnew n d' done hn hsuffix

/-- Moves within a limit may be followed by others that are, counted from where the first lead. -/
theorem Within.append {more : List Direction} (hnew : Within f limit trail new)
    (hmore : Within f limit (new ++ trail) more) : Within f limit trail (more ++ new) := by
  induction more with
  | nil => exact hnew
  | cons d more ih =>
    obtain ⟨hmore, hlast⟩ := within_cons.mp hmore
    rw [List.cons_append]
    refine within_cons.mpr ⟨ih hmore, fun n hn => ?_⟩
    rw [List.append_assoc]
    exact hlast n hn

/-- Moves within the limit do not bring the crossings beyond it. -/
theorem Within.crossings_le {n : Nat} (h : Within f (some n) trail new)
    (hle : crossings f trail ≤ n) : crossings f (new ++ trail) ≤ n := by
  induction new with
  | nil => exact hle
  | cons d new ih =>
    obtain ⟨hnew, hlast⟩ := within_cons.mp h
    have hle' := ih hnew
    rw [List.cons_append]
    by_cases hcrosses : crosses f (new ++ trail) d = true
    · exact Nat.le_of_not_lt fun hlt => hlast n rfl ⟨hcrosses, hlt⟩
    · rw [crossings, if_neg hcrosses]
      exact hle'

/-! ## The moves of a call -/

/-- The direction in which the pointer leaves after a part of a call, unless the part fails. -/
def departing (part : Step Unit) (s : State) : List Direction :=
  match part s with
  | ⟨.ok _, s', _⟩ => [s'.direction]
  | ⟨.error _, _, _⟩ => []

/-- The directions of the moves that an instruction makes, the last one first. A bridge makes one of
its own before the one that every instruction ends with. -/
def performMoves (draw : Nat → Direction) (quoting : Bool) (c : Char) (s : State) :
    List Direction :=
  if quoting then departing (quoted c) s
  else
    match Instruction.ofChar c with
    | .inputNumber | .inputCharacter | .stop => []
    | .bridge => departing advance s ++ [s.direction]
    | instruction => departing (execute draw instruction) s

/-- The directions of the moves that a step makes, the last one first. -/
def stepMoves (draw : Nat → Direction) (s : State) : List Direction :=
  match begun? s with
  | some c => performMoves draw s.quoting c s
  | none => []

/-- The directions of the moves that an input makes: one, if it is waited for and can be used. -/
def resumeMoves (input : Input) (s : State) : List Direction :=
  match s.waiting.map (inputValue · input) with
  | some (.ok _) => [s.direction]
  | _ => []

/-- A failure other than that of a crossing beyond the limit. -/
def Trouble.Other (e : Trouble) : Prop := ∀ n, e ≠ .wrapLimit n

/-- A machine with a limit, whose pointer is where a trail leads on a field and whose crossings are
counted. -/
structure State.At (f : Field) (limit : Option Nat) (trail : List Direction) (s : State) :
    Prop where
  source_eq : s.source = f
  limit_eq : s.wrapLimit = limit
  x_eq : (s.x : Int) = columnOf f trail
  y_eq : (s.y : Int) = rowOf f trail
  wraps_eq : s.wraps = crossings f trail

/-- What comes of moves after a trail. Either all are within the limit, or the last one is the first
that is not, and the call fails for it. -/
inductive Ends (f : Field) (limit : Option Nat) (trail : List Direction) {α : Type} :
    List Direction → Except Trouble α → Prop where
  | free {new : List Direction} {r : Except Trouble α} (within : Within f limit trail new)
    (other : ∀ e, r = .error e → e.Other) : Ends f limit trail new r
  | stopped {d : Direction} {done : List Direction} {n : Nat} (limit_eq : limit = some n)
    (within : Within f limit trail done) (beyond : Beyond f n (done ++ trail) d) :
    Ends f limit trail (d :: done) (.error (.wrapLimit n))

/-- A call that makes moves after a trail. -/
structure Goes (f : Field) (limit : Option Nat) (trail new : List Direction) {α : Type}
    (t : Turn Trouble State α) : Prop where
  arrives : t.state.At f limit (new ++ trail)
  ends : Ends f limit trail new t.result

open Act

/-- A part of a call that makes no move. -/
abbrev Still {α : Type} (act : Step α) : Prop :=
  ∀ f limit trail, act.Safe (State.At f limit trail) Trouble.Other

/-- A push makes no move. -/
theorem still_push (n : Int64) : Still (push n) := fun _ _ _ =>
  .bind (safe_modify fun _ hs => { hs with }) fun _ => safe_notify _

/-- A pop makes no move, whether there is a number or not. -/
theorem still_pop : Still pop := by
  refine fun _ _ _ => .bind safe_get fun s => ?_
  split
  · exact safe_pure _
  · refine .bind (safe_modify fun _ hs => { hs with }) fun _ => ?_
    exact .bind (safe_notify _) fun _ => safe_pure _

/-- A put makes no move, be its place on the field or not. -/
theorem still_put : Still put := by
  intro f limit trail
  refine .bind (still_pop _ _ _) fun y => .bind (still_pop _ _ _) fun x => ?_
  refine .bind (still_pop _ _ _) fun value => .bind safe_get fun s => ?_
  split
  · exact safe_fail fun _ => Trouble.noConfusion
  · split
    · exact safe_fail fun _ => Trouble.noConfusion
    · dsimp only
      split
      · exact safe_fail fun _ => Trouble.noConfusion
      · exact safe_modify fun _ hs => { hs with }

/-- What is assembled from the parts that do not move makes no move either. -/
theorem still_of_assembled {α : Type} {x : Step α} (hx : Assembled False x) : Still x := by
  have hother : ∀ e : Trouble, (∃ x y, e = .divisionByZero x y) → e.Other := by
    rintro _ ⟨x, y, rfl⟩
    exact fun _ => Trouble.noConfusion
  refine fun f limit trail => (hx.mono hother fun _ _ hx => hx).safe fun _ _ hx => ?_
  cases hx with
  | push n => exact still_push n _ _ _
  | pop => exact still_pop _ _ _
  | turn d => exact safe_modify fun _ hs => { hs with }
  | turnAtRandom draw => exact safe_modify fun _ hs => { hs with }
  | quoting b => exact safe_modify fun _ hs => { hs with }
  | advance allowed => exact allowed.elim
  | put => exact still_put _ _ _

/-- No instruction but a bridge makes a move of its own. -/
theorem still_execute (draw : Nat → Direction) {instruction : Instruction}
    (hi : instruction ≠ .bridge) : Still (execute draw instruction) := by
  refine still_of_assembled ((assembled_execute draw instruction).mono (fun _ he => he) ?_)
  rintro _ _ (_ | _ | _ | _ | _ | hbridge | _)
  · exact .push _
  · exact .pop
  · exact .turn _
  · exact .turnAtRandom _
  · exact .quoting _
  · exact absurd hbridge hi
  · exact .put

section

variable {α β : Type} {s : State}

/-- A part that makes no move leaves the machine where it is, on any trail. -/
theorem Still.goes {x : Step α} (hx : Still x) (hs : s.At f limit trail) :
    Goes f limit trail [] (x s) := by
  obtain ⟨harrives, hother⟩ := hx f limit trail s hs
  exact ⟨harrives, .free within_nil hother⟩

/-- A part that does not fail for the limit may be followed by another, which makes moves of its
own if the first one does not fail. -/
theorem Goes.bind {x : Step α} {k : α → Step β} {more : List Direction}
    (hx : Goes f limit trail new (x s))
    (hk : ∀ a s' effects, x s = ⟨.ok a, s', effects⟩ → Goes f limit (new ++ trail) more (k a s'))
    (hstop : ∀ e s' effects, x s = ⟨.error e, s', effects⟩ → more = []) :
    Goes f limit trail (more ++ new) ((x >>= k) s) := by
  obtain ⟨harrives, hends⟩ := hx
  obtain ⟨t, ht⟩ : ∃ t, x s = t := ⟨_, rfl⟩
  obtain ⟨result, s', effects⟩ := t
  rw [ht] at harrives hends
  cases result with
  | error e =>
    rw [bind_of_error ht, hstop e s' effects ht]
    refine ⟨harrives, ?_⟩
    cases hends with
    | free within other => exact .free within fun e' he => other e' (by cases he; rfl)
    | stopped limit_eq within beyond => exact .stopped limit_eq within beyond
  | ok a =>
    obtain ⟨harrives', hends'⟩ := hk a s' effects ht
    rw [bind_of_ok ht]
    cases hends with
    | free within _ =>
      refine ⟨by rw [List.append_assoc]; exact harrives', ?_⟩
      obtain ⟨r, hr⟩ : ∃ r, (k a s').result = r := ⟨_, rfl⟩
      rw [hr] at hends'
      dsimp only
      rw [hr]
      cases hends' with
      | free within' other' => exact .free (within.append within') other'
      | stopped limit_eq within' beyond =>
        rw [List.cons_append]
        refine .stopped limit_eq (within.append within') ?_
        rw [List.append_assoc]
        exact beyond

/-- A move is made whether it is within the limit or not. -/
theorem goes_advance (hwidth : 0 < f.width) (hheight : 0 < f.height) (hs : s.At f limit trail) :
    Goes f limit trail [s.direction] (advance s) ∧ (advance s).state.direction = s.direction := by
  have hx : s.x < f.width := by
    have hlt := Int.emod_lt_of_pos (netColumns trail) (Int.natCast_pos.mpr hwidth)
    have hx_eq : (s.x : Int) = netColumns trail % f.width := hs.x_eq
    omega
  have hy : s.y < f.height := by
    have hlt := Int.emod_lt_of_pos (netRows trail) (Int.natCast_pos.mpr hheight)
    have hy_eq : (s.y : Int) = netRows trail % f.height := hs.y_eq
    omega
  obtain ⟨x, y, hmove, hx', hy'⟩ := move_trail s.direction hs.x_eq hs.y_eq hx hy
  have hwraps : (if crosses f trail s.direction = true then s.wraps + 1 else s.wraps) =
      crossings f (s.direction :: trail) := by
    rw [crossings, ← hs.wraps_eq]
    split <;> rfl
  unfold advance
  rw [hs.source_eq, hmove]
  dsimp only
  rw [hs.limit_eq, hwraps]
  have harrives : State.At f limit ([s.direction] ++ trail)
      { s with
        source := f, wrapLimit := limit, x, y, wraps := crossings f (s.direction :: trail) } :=
    ⟨rfl, rfl, hx', hy', rfl⟩
  cases limit with
  | none => exact ⟨⟨harrives, .free (fun _ _ _ hn => nomatch hn) fun _ he => nomatch he⟩, rfl⟩
  | some n =>
    by_cases hbeyond : Beyond f n trail s.direction
    · have hfilter : (some n).filter (fun limit =>
          crosses f trail s.direction && limit < crossings f (s.direction :: trail)) = some n := by
        rw [Option.filter_some_pos]
        exact Bool.and_eq_true_iff.mpr ⟨hbeyond.1, decide_eq_true hbeyond.2⟩
      rw [hfilter]
      exact ⟨⟨harrives, .stopped rfl within_nil hbeyond⟩, rfl⟩
    · have hfilter : (some n).filter (fun limit =>
          crosses f trail s.direction && limit < crossings f (s.direction :: trail)) = none := by
        rw [Option.filter_some_neg]
        refine Bool.eq_false_iff.mpr fun h => hbeyond ?_
        exact (Bool.and_eq_true_iff.mp h).imp id of_decide_eq_true
      rw [hfilter]
      refine ⟨⟨harrives, .free ?_ fun _ he => nomatch he⟩, rfl⟩
      exact within_cons.mpr ⟨within_nil, fun m hm => Option.some.inj hm ▸ hbeyond⟩

/-- The move that a call ends with. -/
theorem goes_departing {x : Step Unit} {k : Step α} (hx : Goes f limit trail new (x s))
    (hk : ∀ {trail s}, State.At f limit trail s → Goes f limit trail [s.direction] (k s)) :
    Goes f limit trail (departing x s ++ new) ((x >>= fun _ => k) s) := by
  refine hx.bind (fun _ s' effects hs' => ?_) fun e s' effects hs' => ?_
  · have harrives := hx.arrives
    unfold departing
    rw [hs'] at harrives ⊢
    exact hk harrives
  · unfold departing
    rw [hs']

end

/-- A failure is worded as that of a crossing beyond the limit only if it is one. -/
theorem upset_ne_of_other {e : Trouble} (he : e.Other) (n : Nat) :
    e.upset ≠ (Trouble.wrapLimit n).upset := by
  intro h
  cases e with
  | wrapLimit limit => exact he limit rfl
  | divisionByZero x y | modificationDisabled x y | outside x y =>
    have htext := congrArg String.toList (Fault.runtime.inj (Upset.fault.inj h))
    simp only [String.toList_append] at htext
    cases congrArg List.head? htext
  | _ => cases h

/-- An input that cannot be used is no crossing. -/
theorem other_of_inputValue {kind : InputKind} {input : Input} {trouble : Trouble}
    (hv : inputValue kind input = .error trouble) : trouble.Other := by
  unfold inputValue at hv
  split at hv
  · cases hv
  · cases hv
  · split at hv
    · cases hv
    · cases hv
      exact fun _ => Trouble.noConfusion

/-! ## Steps and inputs -/

section

variable {s : State} (draw : Nat → Direction) (hwidth : 0 < f.width) (hheight : 0 < f.height)
include hwidth hheight

/-- The advance that ends an instruction makes one move, in the direction of the pointer. -/
theorem goes_leave (hs : s.At f limit trail) :
    Goes f limit trail [s.direction] ((advance >>= fun _ => pure Outcome.progressed) s) := by
  change Goes f limit trail ([] ++ [s.direction]) _
  refine (goes_advance hwidth hheight hs).1.bind (fun _ s' effects hs' => ?_) fun _ _ _ _ => rfl
  have harrives := (goes_advance hwidth hheight hs).1.arrives
  rw [hs'] at harrives
  exact ⟨harrives, .free within_nil fun _ he => nomatch he⟩

/-- An instruction makes the moves that are told of it. -/
theorem goes_perform (quoting : Bool) (c : Char) (hs : s.At f limit trail) :
    Goes f limit trail (performMoves draw quoting c s) (perform draw quoting c s) := by
  have hstay {t : Turn Trouble State Outcome} (harrives : t.state.At f limit trail)
      (hok : ∀ e, t.result ≠ .error e) : Goes f limit trail [] t :=
    ⟨harrives, .free within_nil fun e he => absurd he (hok e)⟩
  have hleave {x : Step Unit} (hx : Still x) : Goes f limit trail (departing x s)
      ((x >>= fun _ => advance >>= fun _ => pure Outcome.progressed) s) := by
    have hgoes := goes_departing (hx.goes hs) (goes_leave hwidth hheight)
    rwa [List.append_nil] at hgoes
  unfold performMoves perform
  cases quoting with
  | true => exact hleave (still_of_assembled (assembled_quoted c))
  | false =>
    rw [if_neg Bool.false_ne_true, if_neg Bool.false_ne_true]
    cases hi : Instruction.ofChar c with
    | inputNumber | inputCharacter => exact hstay { hs with } fun _ he => nomatch he
    | stop => exact hstay { hs with } fun _ he => nomatch he
    | bridge => exact goes_departing (goes_advance hwidth hheight hs).1 (goes_leave hwidth hheight)
    | _ => exact hleave (still_execute draw Instruction.noConfusion)

/-- A step makes the moves that are told of it, within strings as outside of them. -/
theorem goes_step (hs : s.At f limit trail) :
    Goes f limit trail (stepMoves draw s) (step draw s) := by
  rw [step_eq, stepMoves]
  cases hb : begun? s with
  | none =>
    refine ⟨hs, .free within_nil fun e he => ?_⟩
    change unbegun s = .error e at he
    unfold unbegun at he
    split at he
    · cases he
    · split at he
      · cases he
      · cases he
        exact fun _ => Trouble.noConfusion
  | some c =>
    have hperform := goes_perform draw hwidth hheight s.quoting c hs
    exact ⟨hperform.arrives, hperform.ends⟩

/-- An input makes the moves that are told of it. -/
theorem goes_resume (input : Input) (hs : s.At f limit trail) :
    Goes f limit trail (resumeMoves input s) (resume input s) := by
  have hstay {t : Turn Trouble State Unit} (harrives : t.state.At f limit trail)
      (hother : ∀ e, t.result = .error e → e.Other) : Goes f limit trail [] t :=
    ⟨harrives, .free within_nil hother⟩
  unfold resumeMoves resume
  rw [get_bind_apply]
  cases s.waiting with
  | none =>
    refine hstay hs fun e he => ?_
    cases he
    exact fun _ => Trouble.noConfusion
  | some kind =>
    rw [Option.map_some]
    dsimp only
    cases hvalue : inputValue kind input with
    | error trouble =>
      refine hstay { hs with } fun e he => ?_
      cases he
      exact other_of_inputValue hvalue
    | ok n =>
      have hleave := goes_departing (s := { s with waiting := none })
        ((still_push n).goes { hs with }) fun h => (goes_advance hwidth hheight h).1
      rw [List.append_nil] at hleave
      exact ⟨hleave.arrives, hleave.ends⟩

end

end EsotericHost.Befunge
