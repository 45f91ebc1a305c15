import EsotericHost.Proofs.Bounds.Basic
import EsotericHost.Proofs.Machine.Instructions

/-!
# What the token machine tells

The token machine tells of the place of the next token, and tokens stand in the text of the program
(`Scan.position_lt_of_read`). Its values are told as strings, as doubles or as `null`.
-/

namespace EsotericHost.Element

open Act

/-- The tokens that have been read, the brackets that wait and the word that is being read stand
before a place. -/
structure Scan.Before (scan : Scan) (n : Nat) : Prop where
  tokens : ∀ token ∈ scan.tokens, token.position < n
  opened : ∀ bracket ∈ scan.opened, bracket.position < n
  word : ∀ word ∈ scan.word, word.1 < n

namespace Scan

variable {scan scan' : Scan} {n : Nat}

/-- What stands before a place stands before the next one. -/
theorem Before.mono (hs : scan.Before n) : scan.Before (n + 1) :=
  ⟨fun t ht => Nat.lt_succ_of_lt (hs.tokens t ht), fun b hb => Nat.lt_succ_of_lt (hs.opened b hb),
    fun w hw => Nat.lt_succ_of_lt (hs.word w hw)⟩

/-- One more token keeps all of them before a place, if it stands there itself. -/
theorem lt_of_mem_push {tokens : Array Token} {position : Nat} {op : Op}
    (ht : ∀ token ∈ tokens, token.position < n) (hp : position < n) :
    ∀ token ∈ tokens.push ⟨position, op⟩, token.position < n := by
  intro token hm
  rcases Array.mem_push.mp hm with hm | rfl
  · exact ht token hm
  · exact hp

/-- The end of a word makes a token that stands where the word began. -/
theorem Before.endWord (hs : scan.Before n) : scan.endWord.Before n := by
  unfold Scan.endWord
  split
  · exact hs
  · rename_i position letters hword
    exact ⟨lt_of_mem_push hs.tokens (hs.word _ hword), hs.opened, by simp⟩

/-- A bracket that closes a loop keeps all that was read before the next place. -/
theorem Before.closeLoop (hs : scan.Before n) {loop : Loop}
    (h : scan.closeLoop n loop = .ok scan') : scan'.Before (n + 1) := by
  unfold Scan.closeLoop at h
  split at h
  · cases h
  · rename_i partner outer hopened
    have hpartner : partner.position < n :=
      hs.opened partner (by rw [hopened]; exact List.mem_cons_self)
    have houter : ∀ bracket ∈ outer, bracket.position < n + 1 := fun bracket hb =>
      hs.mono.opened bracket (by rw [hopened]; exact List.mem_cons_of_mem _ hb)
    split at h
    · cases h
    · cases loop <;> cases h
      · have hlt : partner.index < scan.tokens.size :=
          scan.opened_lt partner (by rw [hopened]; exact List.mem_cons_self)
        have htokens (op : Op) :
            ∀ token ∈ scan.tokens.set partner.index ⟨partner.position, op⟩ hlt,
              token.position < n + 1 := by
          intro token ht
          rcases Array.mem_or_eq_of_mem_set ht with ht | rfl
          · exact hs.mono.tokens token ht
          · exact Nat.lt_succ_of_lt hpartner
        exact ⟨lt_of_mem_push (htokens _) (Nat.lt_succ_self n), houter, hs.mono.word⟩
      · exact ⟨lt_of_mem_push hs.mono.tokens (Nat.lt_succ_self n), houter, hs.mono.word⟩

/-- Reading a character brings nothing that stands behind it. -/
theorem Before.next (hs : scan.Before n) {c : Char} (h : scan.next n c = .ok scan') :
    scan'.Before (n + 1) := by
  unfold Scan.next at h
  split at h
  · split at h <;> cases h
    · refine ⟨hs.mono.tokens, hs.mono.opened, ?_⟩
      rintro _ ⟨⟩
      exact Nat.lt_succ_self n
    · rename_i start letters hword
      refine ⟨hs.mono.tokens, hs.mono.opened, ?_⟩
      rintro _ ⟨⟩
      exact hs.mono.word (start, letters) hword
  · cases h
    exact hs.endWord.mono
  · cases h
    have hend := hs.endWord.mono
    exact ⟨lt_of_mem_push hend.tokens (Nat.lt_succ_self n), hend.opened, hend.word⟩
  · cases h
    have hend := hs.endWord.mono
    refine ⟨lt_of_mem_push hend.tokens (Nat.lt_succ_self n), fun bracket hb => ?_, hend.word⟩
    rcases List.mem_cons.mp hb with rfl | hb
    · exact Nat.lt_succ_self n
    · exact hend.opened bracket hb
  · exact hs.endWord.closeLoop h

/-- Every token of the program stands before the end of the text that it was read from. -/
theorem position_lt_of_read {cs : List Char} {program : Array Token} (hs : scan.Before n)
    (h : scan.read n cs = .ok program) : ∀ token ∈ program, token.position < n + cs.length := by
  induction cs generalizing scan n with
  | nil =>
    unfold Scan.read at h
    split at h <;> cases h
    exact hs.endWord.tokens
  | cons c cs ih =>
    unfold Scan.read at h
    split at h
    · rw [List.length_cons, ← Nat.add_assoc, Nat.add_right_comm]
      exact ih (hs.next (by assumption)) h
    · cases h

end Scan

/-- The tokens of the program stand in a text in memory. -/
def State.Bounded (s : State) : Prop :=
  ∀ token ∈ s.program, token.position + 1 < Word.natBound

/-- A value is told as a string, a finite double or `null`. -/
theorem fits_toJson (v : Value) : v.toJson.isFlat ∧ v.toJson.fits := by
  cases v with
  | text s => exact ⟨rfl, rfl⟩
  | number x =>
    unfold Value.toJson Json.ofFloat
    dsimp only
    split
    · rename_i hparts
      exact ⟨rfl, Decimal.isFinite_iff.mpr ⟨_, _, _, hparts⟩⟩
    · exact ⟨rfl, rfl⟩

/-- The place in the source that is shown is counted by a machine word. -/
theorem State.Bounded.sourcePosition_lt {s : State} (hs : s.Bounded) :
    s.sourcePosition < Word.natBound := by
  unfold State.sourcePosition
  split
  · rename_i token ht
    obtain ⟨hlt, rfl⟩ := Array.getElem?_eq_some_iff.mp ht
    exact Nat.lt_of_succ_lt (hs _ (Array.getElem_mem hlt))
  · cases hlast : s.program.back? with
    | none => exact (by decide : 0 < Word.natBound)
    | some token => exact hs token (Array.mem_of_back? hlast)

/-- A part of a call that keeps the bounds and tells nothing beyond them. -/
abbrev Keeps {α : Type} (act : Step α) : Prop :=
  act.Tells State.Bounded Notice.Fits

/-- The bounds are about the program only. -/
theorem keeps_modify {f : State → State} (hprogram : ∀ s, (f s).program = s.program) :
    Keeps (Act.modify f) :=
  tells_modify fun s hs => by rw [State.Bounded, hprogram]; exact hs

/-- What is put on a stack leaves the program alone. -/
theorem withStack_program (s : State) (stack : Stack) (values : List Value) :
    (s.withStack stack values).program = s.program := by
  cases stack <;> rfl

/-- To push a value keeps the bounds. -/
theorem keeps_pushOn (stack : Stack) (v : Value) : Keeps (pushOn stack v) :=
  .bind (keeps_modify fun _ => withStack_program _ _ _) fun _ => tells_notify (fits_toJson v)

/-- To pop a value keeps the bounds. -/
theorem keeps_popFrom (stack : Stack) : Keeps (popFrom stack) := by
  refine .bind tells_get fun s => ?_
  split
  · exact tells_fail _
  · refine .bind (keeps_modify fun _ => withStack_program _ _ _) fun _ => ?_
    exact .bind (tells_notify (fits_toJson _)) fun _ => tells_pure _

/-- To go to a token keeps the bounds. -/
theorem keeps_goTo (index : Nat) : Keeps (goTo index) :=
  .bind (keeps_modify fun _ => rfl) fun _ => .get_bind fun s hs =>
    tells_notify hs.sourcePosition_lt s hs

/-- Every basic part of a token keeps the bounds. -/
theorem keeps_basic {raises loops : Prop} {α : Type} {x : Step α} (hx : Basic raises loops α x) :
    Keeps x := by
  cases hx with
  | pushOn stack v => exact keeps_pushOn stack v
  | popFrom stack => exact keeps_popFrom stack
  | assign name v =>
    exact .bind (tells_notify (fits_toJson v)) fun _ => keeps_modify fun _ => rfl
  | raise allowed depth =>
    refine .bind tells_get fun s => ?_
    split
    · exact keeps_modify fun _ => rfl
    · exact tells_fail _
  | frames allowed f => exact keeps_modify fun _ => rfl

/-- To carry out a token keeps the bounds, whichever it is. -/
theorem keeps_execute (here : Nat) (token : Token) : Keeps (execute here token) :=
  (composed_execute here token).tells fun _ _ hx => keeps_basic hx

/-- A step keeps the bounds. -/
theorem keeps_step : Keeps step := by
  refine .bind tells_get fun s => ?_
  split
  · exact tells_pure _
  · split
    · exact tells_pure _
    · split
      · exact .bind (keeps_modify fun _ => rfl) fun _ => tells_pure _
      · exact .bind (keeps_execute _ _) fun index => .bind (keeps_goTo index) fun _ => tells_pure _

/-- A load of a text in memory keeps the bounds. -/
theorem keeps_load {source : String} (hsource : Text.InMemory source) : Keeps (load source) := by
  unfold load
  split
  · rename_i program hprogram
    refine tells_modify fun s _ token ht => ?_
    have hstart : Scan.start.Before 0 :=
      ⟨by simp [Scan.start], by simp [Scan.start], by simp [Scan.start]⟩
    have hlt := Scan.position_lt_of_read hstart hprogram token ht
    have hlength := hsource.length_lt
    omega
  · exact tells_fail _

/-- A reset keeps the bounds. -/
theorem keeps_reset : Keeps reset := by
  refine .bind tells_get fun s => .bind (keeps_modify fun _ => rfl) fun _ => ?_
  refine .bind (tells_emit fun notice hn => ?_) fun _ => ?_
  · obtain ⟨⟨name, v⟩, -, hbinding⟩ := List.mem_map.mp hn
    cases hbinding
    exact ⟨rfl, rfl⟩
  · exact .bind (tells_notify trivial) fun _ => .bind (tells_notify trivial) fun _ => keeps_goTo 0

/-- An input keeps the bounds. -/
theorem keeps_resume (input : Input) : Keeps (resume input) := by
  refine .bind tells_get fun s => ?_
  split
  · exact .bind (keeps_modify fun _ => rfl) fun _ => .bind (keeps_pushOn _ _) fun _ => keeps_goTo _
  · exact tells_fail _

/-- The token machine keeps its bounds and tells nothing that does not fit, call by call. -/
theorem tells : machine.Tells Text.InMemory State.Bounded Notice.Fits where
  load _ hsource := (keeps_load hsource).asCall _
  reset := keeps_reset.asCall _
  step := keeps_step.asCall _
  resume input := (keeps_resume input).asCall _

end EsotericHost.Element
