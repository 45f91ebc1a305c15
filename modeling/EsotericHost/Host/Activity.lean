import EsotericHost.Event

/-!
# Activities

The host tells its client what it is doing by a stack of labels. Every change of the stack is
reported as the label that is on top afterwards; an empty stack shows a dash.
-/

namespace EsotericHost

/-- The labels of what the host is doing, innermost first. -/
structure Activity where
  labels : List String
  deriving Repr, DecidableEq, Inhabited

namespace Activity

/-- The label of a host that does nothing. -/
def idleLabel : String := "-"

/-- Nothing going on. -/
def idle : Activity := ⟨[]⟩

/-- The number of labels. -/
def depth (a : Activity) : Nat := a.labels.length

/-- The label on top. -/
def top (a : Activity) : String := a.labels.head?.getD idleLabel

/-- The report of the label on top. -/
def report (a : Activity) : Event := .status a.top

/-- One more label on top. -/
def push (a : Activity) (label : String) : Activity := ⟨label :: a.labels⟩

/-- The label on top taken away, if there is one. -/
def pop (a : Activity) : Activity := ⟨a.labels.tail⟩

/-- The stack cut down to a depth. -/
def unwind (a : Activity) (depth : Nat) : Activity := ⟨a.labels.drop (a.depth - depth)⟩

/-- The reports of a stack that is cut down to a depth label by label. -/
def unwindReports (a : Activity) (depth : Nat) : List Event :=
  (List.range (a.depth - depth)).map fun n => (a.unwind (a.depth - (n + 1))).report

end Activity

end EsotericHost
