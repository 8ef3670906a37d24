/-!
Jobs in three phases. A job is taken from the earliest phase that has one, so what a job of a late
phase queues for an early one runs before the next job of the late phase.
-/

namespace FineGrain.Hook

/-- The phase of an effect hook, the most urgent first. -/
inductive Phase where
  | insertion | layout | passive
deriving DecidableEq, Repr, Inhabited

/-- The jobs of each phase in order of arrival, and whether a flush of them is queued or running. -/
structure PhaseQueue (α : Type) where
  insertion : List α
  layout : List α
  passive : List α
  flushQueued : Bool
deriving DecidableEq, Repr, Inhabited

namespace PhaseQueue

def empty : PhaseQueue α := ⟨[], [], [], false⟩

/-- Queue a job. Answers whether a flush has to be queued for it. -/
def push (q : PhaseQueue α) (phase : Phase) (job : α) : Bool × PhaseQueue α :=
  let q' := match phase with
    | .insertion => { q with insertion := q.insertion ++ [job] }
    | .layout => { q with layout := q.layout ++ [job] }
    | .passive => { q with passive := q.passive ++ [job] }
  (!q.flushQueued, { q' with flushQueued := true })

/-- Take the most urgent job; when there is none, the flush is over. -/
def pop (q : PhaseQueue α) : Option α × PhaseQueue α :=
  match q.insertion, q.layout, q.passive with
  | job :: rest, _, _ => (some job, { q with insertion := rest })
  | [], job :: rest, _ => (some job, { q with layout := rest })
  | [], [], job :: rest => (some job, { q with passive := rest })
  | [], [], [] => (none, { q with flushQueued := false })

end PhaseQueue

end FineGrain.Hook
