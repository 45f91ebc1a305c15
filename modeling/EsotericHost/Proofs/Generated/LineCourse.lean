import EsotericHost.Proofs.Generated.Lines

/-!
# The course of a generated line program

A generated program has three lines for each character, of which the second one is a number: it may
be as long as any instruction, or empty, and is never carried out. So the machine takes two steps
for each character, one that pushes its code point and one that prints it, and halts behind the last
line with an empty stack (`generated_lines`). Whatever the characters are, they come out as they
went in.
-/

namespace EsotericHost.Length

/-- **What a generated program does.** The program that the machine generates for a text is the same
in every state, and is loaded without printing anything, whether comments are heeded or not. Run
from there outside of debug mode, the machine makes progress with two steps for each character and
then halts. It prints the characters one by one, never stands at a line that is a number, and leaves
its stack empty. A run without a limit comes to this end, with every bound that is large enough. -/
theorem generated_lines (s : Session State) (hdebug : s.state.debug = false) (text : String) :
    ∃ code, (∀ maker, machine.fromText maker text = .ok (some code)) ∧
      (Session.load machine code s.state).result = .ok () ∧
      Event.prints (s.told machine (Session.load machine code)) = [] ∧
      ∃ x n, x = s.left (Session.load machine code) ∧ n = 2 * text.length ∧
        x.RestsAfter machine n ∧ x.answerAt machine n = .ok .halted ∧
        Event.prints (x.tale machine (n + 1)) = text.toList.map Text.single ∧
        (x.ahead machine (n + 1)).state.stack = [] ∧
        (∀ k ≤ n + 1, (x.ahead machine k).state.line % 3 ≠ 1) ∧
        ∀ bound used out, n < bound → x.run machine bound ⟨none, used⟩ out =
          some (.ok .halted, ⟨none, used + n⟩, x.ahead machine (n + 1),
            out ++ x.tale machine (n + 1)) := by
  obtain ⟨x', hgoes, hline, hstack, hend⟩ := goes_ofText s hdebug text
  obtain ⟨hrests, hanswer, hprints, hstates⟩ := hgoes.halts hline hend
  have hlast : ((s.left (Session.load machine (ofText text))).ahead machine
      (2 * text.length + 1)).state.stack = [] := by
    rw [hgoes.ahead_eq hend]
    exact hstack
  refine ⟨ofText text, fun _ => rfl, rfl, ?_, _, _, rfl, rfl, hrests, hanswer, hprints, hlast,
    hstates, fun bound used out hbound => ?_⟩
  · rw [Session.told, Session.prints_events]
    rfl
  · have hfree (most : Nat) (h : most ∈ (none : Option Nat)) : used + 2 * text.length ≤ most := by
      cases h
    rw [Session.run_of_rests hrests hfree hbound out, hanswer]

/-- With comments, the program for a line feed and a NUL, whose numbers are as long as an addition
and empty, prints these two characters by four steps. -/
theorem generated_lines_feed :
    let s : Session State :=
      ⟨name, .empty, ⟨true, true, false, true⟩, false, { build .empty with comments := true }⟩
    s.state.debug = false ∧
      ∃ code x, machine.fromText s.state "\n\x00" = .ok (some code) ∧
        x = s.left (Session.load machine code) ∧ x.RestsAfter machine 4 ∧
        x.answerAt machine 4 = .ok .halted ∧
        Event.prints (x.tale machine 5) = ["\n", "\x00"] := by
  intro s
  have hdebug : s.state.debug = false := rfl
  obtain ⟨code, hcode, -, -, x, n, hx, hn, hrests, hanswer, hprints, -, -, -⟩ :=
    generated_lines s hdebug "\n\x00"
  obtain rfl : n = 4 := hn
  exact ⟨hdebug, code, x, hcode s.state, hx, hrests, hanswer, hprints⟩

end EsotericHost.Length
