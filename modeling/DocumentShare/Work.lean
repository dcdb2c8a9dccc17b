/-!
# Work

A computation over a state that may fail. What was done before a failure stays done: a backend that
fails between two writes keeps the first.
-/

namespace DocumentShare

abbrev Work (State Error Answer : Type) := ExceptT Error (StateM State) Answer

namespace Work

variable {State Part Error Fault Answer : Type}

/-- An operation given as a function to its answer and the next state. -/
def ofStep (f : State → Except Error Answer × State) : Work State Error Answer := ExceptT.mk f

def runOn (w : Work State Error Answer) (s : State) : Except Error Answer × State := w.run s

def onPart (part : State → Part) (replace : Part → State → State) (w : Work Part Error Answer) :
    Work State Error Answer :=
  ofStep fun s =>
    let (answer, p) := w.runOn (part s)
    (answer, replace p s)

/-- Work with a further state. Answers what the work came to and that state. -/
def carrying {Extra : Type} (x : Extra) (w : Work (Extra × State) Error Answer) :
    Work State Fault (Except Error Answer × Extra) :=
  ofStep fun s =>
    let (answer, x, s) := w.runOn (x, s)
    (.ok (answer, x), s)

/-- The same work with its failures told in other terms. -/
def reporting (report : Fault → Error) (w : Work State Fault Answer) : Work State Error Answer :=
  w.adapt report

/-- A validation whose failure fails the work. -/
def check (report : Fault → Error) : Except Fault Answer → Work State Error Answer
  | .ok a => return a
  | .error e => throw (report e)

end Work

end DocumentShare
