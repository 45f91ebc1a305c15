import EsotericHost.Proofs.Bounds.Basic
import EsotericHost.Proofs.Machine.Befunge
import EsotericHost.Proofs.Text.Lines

/-!
# What the playfield machine tells

The playfield machine tells of the place of its pointer, which stays on a field that is hardly
larger than the text of the program (`ofSource_le`), whether the machine runs on that field or not.
-/

namespace EsotericHost.Befunge

open Act

/-- The loaded field is no larger than a text in memory, and the pointer has not left it far. -/
structure State.Bounded (s : State) : Prop where
  width : s.source.width < Word.natBound
  height : s.source.height < Word.natBound
  x : s.x < Word.natBound
  y : s.y < Word.natBound

/-- The pointer moves to a place of the field, or to one before it. -/
theorem Direction.move_lt {d : Direction} {width height x y x' y' bound : Nat} {crossed : Bool}
    (h : d.move width height x y = .ok (x', y', crossed)) (hwidth : width < bound)
    (hheight : height < bound) (hx : x < bound) (hy : y < bound) : x' < bound ∧ y' < bound := by
  cases d with
  | right =>
    simp only [move] at h
    split at h <;> cases h
    exact ⟨(Nat.mod_lt _ (by omega)).trans hwidth, hy⟩
  | left =>
    simp only [move] at h
    split at h
    · cases h
      exact ⟨by omega, hy⟩
    · split at h <;> cases h
      exact ⟨by omega, hy⟩
  | down =>
    simp only [move] at h
    split at h <;> cases h
    exact ⟨hx, (Nat.mod_lt _ (by omega)).trans hheight⟩
  | up =>
    simp only [move] at h
    split at h
    · cases h
      exact ⟨hx, by omega⟩
    · split at h <;> cases h
      exact ⟨hx, by omega⟩

/-- A part of a call that keeps the bounds and tells nothing beyond them. -/
abbrev Keeps {α : Type} (act : Step α) : Prop :=
  act.Tells State.Bounded Notice.Fits

/-- The bounds are about the loaded field and the pointer only. -/
theorem State.Bounded.congr {s s' : State} (hs : s.Bounded) (hsource : s'.source = s.source)
    (hx : s'.x = s.x) (hy : s'.y = s.y) : s'.Bounded := by
  obtain ⟨hwidth, hheight, hx', hy'⟩ := hs
  exact ⟨hsource ▸ hwidth, hsource ▸ hheight, hx ▸ hx', hy ▸ hy'⟩

/-- A change that leaves the loaded field and the pointer alone keeps the bounds. -/
theorem keeps_modify {f : State → State} (hsource : ∀ s, (f s).source = s.source)
    (hx : ∀ s, (f s).x = s.x) (hy : ∀ s, (f s).y = s.y) : Keeps (Act.modify f) :=
  tells_modify fun s hs => hs.congr (hsource s) (hx s) (hy s)

/-- A push keeps the bounds, and tells of an integer of 64 bits. -/
theorem keeps_push (n : Int64) : Keeps (push n) :=
  .bind (keeps_modify (fun _ => rfl) (fun _ => rfl) fun _ => rfl) fun _ =>
    tells_notify (fits_toInt n)

/-- A pop keeps the bounds. -/
theorem keeps_pop : Keeps pop := by
  refine .bind tells_get fun s => ?_
  split
  · exact tells_pure _
  · refine .bind (keeps_modify (fun _ => rfl) (fun _ => rfl) fun _ => rfl) fun _ => ?_
    exact .bind (tells_notify (fits_toInt _)) fun _ => tells_pure _

/-- An advance keeps the bounds: it goes around the edges of the field. -/
theorem keeps_advance : Keeps advance := by
  intro s hs
  unfold advance
  split
  · exact Turn.tells_quietly hs rfl
  · rename_i x y crossed hmove
    obtain ⟨hx, hy⟩ := Direction.move_lt hmove hs.width hs.height hs.x hs.y
    dsimp only
    split
    · exact Turn.tells_quietly ⟨hs.width, hs.height, hx, hy⟩ rfl
    · refine ⟨⟨hs.width, hs.height, hx, hy⟩, fun notice hn => ?_⟩
      rcases List.mem_cons.mp hn with hn | hn
      · cases hn
        exact hx
      · cases List.mem_singleton.mp hn
        exact hy

/-- A put keeps the bounds: the loaded field stays as it was. -/
theorem keeps_put : Keeps put := by
  refine .bind keeps_pop fun y => .bind keeps_pop fun x => .bind keeps_pop fun value => ?_
  refine .bind tells_get fun s => ?_
  split
  · exact tells_fail _
  · split
    · exact tells_fail _
    · dsimp only
      split
      · exact tells_fail _
      · exact keeps_modify (fun _ => rfl) (fun _ => rfl) fun _ => rfl

/-- Every basic part of an instruction keeps the bounds. -/
theorem keeps_basic {moves : Prop} {α : Type} {x : Step α} (hx : Basic moves α x) : Keeps x := by
  cases hx with
  | push n => exact keeps_push n
  | pop => exact keeps_pop
  | turn d => exact keeps_modify (fun _ => rfl) (fun _ => rfl) fun _ => rfl
  | turnAtRandom draw => exact keeps_modify (fun _ => rfl) (fun _ => rfl) fun _ => rfl
  | quoting b => exact keeps_modify (fun _ => rfl) (fun _ => rfl) fun _ => rfl
  | advance => exact keeps_advance
  | put => exact keeps_put

/-- What is put together from the parts of an instruction. -/
theorem keeps_of_assembled {moves : Prop} {α : Type} {x : Step α} (hx : Assembled moves x) :
    Keeps x :=
  hx.tells fun _ _ hx => keeps_basic hx

/-- To look at the place of the pointer keeps the bounds. -/
theorem keeps_here : Keeps here := by
  intro s hs
  unfold here
  split <;> exact Turn.tells_quietly hs rfl

/-- To ask for input keeps the bounds. -/
theorem keeps_await (kind : InputKind) : Keeps (await kind) :=
  .bind (keeps_modify (fun _ => rfl) (fun _ => rfl) fun _ => rfl) fun _ => tells_pure _

/-- A step keeps the bounds, whatever it carries out. -/
theorem keeps_step (draw : Nat → Direction) : Keeps (step draw) := by
  refine .bind tells_get fun s => ?_
  split
  · exact tells_pure _
  split
  · exact tells_pure _
  refine .bind keeps_here fun c => .echoed _ ?_
  split
  · refine .bind (keeps_of_assembled (assembled_quoted c)) fun _ => ?_
    exact .bind keeps_advance fun _ => tells_pure _
  split
  · exact keeps_await _
  · exact keeps_await _
  · exact .bind (keeps_modify (fun _ => rfl) (fun _ => rfl) fun _ => rfl) fun _ => tells_pure _
  · refine .bind (keeps_of_assembled (assembled_execute draw _)) fun _ => ?_
    exact .bind keeps_advance fun _ => tells_pure _

/-- The longest row is no longer than a bound on all of them. -/
theorem foldl_max_le {rows : List (List Char)} {n bound : Nat} (hn : n ≤ bound)
    (hrows : ∀ row ∈ rows, row.length ≤ bound) :
    rows.foldl (fun n row => max n row.length) n ≤ bound := by
  induction rows generalizing n with
  | nil => exact hn
  | cons row rows ih =>
    exact ih (Nat.max_le.mpr ⟨hn, hrows row List.mem_cons_self⟩)
      fun r hr => hrows r (List.mem_cons_of_mem row hr)

/-- A source stands on a field that is hardly larger than the source. -/
theorem ofSource_le (source : List Char) :
    (Field.ofSource source).width ≤ source.length + 1 ∧
      (Field.ofSource source).height ≤ source.length + 1 := by
  have hpieces := Text.length_pieces '\n' source
  have hlines := (Text.lines_sublist '\n' source).length_le
  have hrows : ∀ row ∈ (Text.lines '\n' source).map Text.dropReturns,
      row.length ≤ source.length := by
    intro row hr
    obtain ⟨line, hline, rfl⟩ := List.mem_map.mp hr
    have hle := Text.length_le_of_mem_pieces ((Text.lines_sublist '\n' source).subset hline)
    refine Nat.le_trans ?_ hle
    rw [Text.dropReturns, List.length_reverse, ← line.length_reverse]
    exact (List.dropWhile_sublist _).length_le
  have hwidth := foldl_max_le (Nat.zero_le _) hrows
  unfold Field.ofSource
  dsimp only
  rw [List.length_map]
  omega

/-- A reset keeps the bounds: the pointer goes to the corner of the loaded field. -/
theorem keeps_reset : Keeps reset := by
  have hzero : 0 < Word.natBound := by decide
  refine .bind (tells_modify fun s hs => ⟨hs.width, hs.height, hzero, hzero⟩) fun _ => ?_
  refine tells_emit fun notice hn => ?_
  rcases List.mem_cons.mp hn with hn | hn
  · cases hn
    trivial
  rcases List.mem_cons.mp hn with hn | hn
  · cases hn
    exact hzero
  · cases List.mem_singleton.mp hn
    exact hzero

/-- An input keeps the bounds. -/
theorem keeps_resume (input : Input) : Keeps (resume input) := by
  refine .bind tells_get fun s => ?_
  split
  · exact tells_fail _
  · refine .bind (keeps_modify (fun _ => rfl) (fun _ => rfl) fun _ => rfl) fun _ => ?_
    split
    · exact .bind (keeps_push _) fun _ => keeps_advance
    · exact tells_fail _

/-- The field machine keeps its bounds and tells nothing that does not fit, call by call. -/
theorem tells (draw : Nat → Direction) :
    (machine draw).Tells Text.InMemory State.Bounded Notice.Fits where
  load source hsource := by
    obtain ⟨hwidth, hheight⟩ := ofSource_le source.toList
    have hlength := hsource.length_lt
    exact Tells.asCall
      (tells_modify fun s hs => ⟨hwidth.trans_lt hlength, hheight.trans_lt hlength, hs.x, hs.y⟩) _
  reset := keeps_reset.asCall _
  step := (keeps_step draw).asCall _
  resume input := (keeps_resume input).asCall _

/-- A machine that has been built is within its bounds. -/
theorem build_bounded {options : Options} {s : State} (hb : build options = .ok s) :
    s.Bounded := by
  have hzero : 0 < Word.natBound := by decide
  obtain ⟨limit, -, rfl⟩ := build_eq_ok hb
  exact ⟨hzero, hzero, hzero, hzero⟩

end EsotericHost.Befunge
