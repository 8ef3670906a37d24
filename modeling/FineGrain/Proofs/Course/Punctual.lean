import FineGrain.Proofs.Course.Basic
/-!
Punctual courses. Most steps may be made at any time; but a flush empties the list of those that wait as
soon as it begins, the jobs of the phases follow one another without a gap, and the body of a hook
begins once the job has found the hook alive and has run its cleanup.
-/

namespace FineGrain

namespace Event

/-- A step that prescribes what comes next. -/
def Urgent : Event → Prop
  | taskBegun .flush | taskBegun .phases | jobBegun _ | jobDone _ | phasesOver | bodyEnded _ _ _
  | bodySkipped _ => True
  | _ => False

end Event

namespace History

/-- The last step leaves open what comes next. -/
def Settled (h : History) : Prop := ∀ ev, h.head? = some ev → ¬ ev.Urgent

/-- A deferred effect starts in a flush or in the task of its first run. -/
def MayStart (h : History) (e : NodeId) : Prop :=
  h.world.timing? e = some .deferred →
    ∃ start, h.frames.head? = some (.task .flush start) ∨
      h.frames.head? = some (.task (.firstRun e) start)

/-- A step that may be made whenever nothing else is prescribed. -/
def Ordinary (h : History) : Event → Prop
  | .started e _ _ _ => h.MayStart e
  | .taskBegun _ | .taskDone .phases | .flushed | .jobBegun _ | .jobDone _ | .phasesOver
  | .bodyBegun _ _ _ | .bodyEnded _ _ _ | .bodySkipped _ => False
  | _ => True

/-- The next job of the phases is to be taken. -/
def AtJobs (h : History) : Prop :=
  h.head? = some (.taskBegun .phases) ∨ ∃ k, h.head? = some (.jobDone k)

/-- The job of a hook has found the hook alive and has no cleanup left to run. -/
def Ready (h : History) (k : Nat) : Prop :=
  (h.head? = some (.jobBegun k) ∧
      ∃ x, h.world.hooks.get? k = some x ∧ x.disposed = false ∧ x.cleanup = none) ∨
    (h.head? = some (.cleanupEnded k) ∧ ∃ start, h.frames.head? = some (.job k start))

/-- A step is made in its time.

* `idle`: a job whose hook is gone or disposed is done at once
* `cleaning`: a job begins with the cleanup -/
inductive Due (h : History) : Event → Prop
  | ordinary {ev : Event} (settled : h.Settled) (ordinary : h.Ordinary ev) : Due h ev
  | begun {t : Task} (settled : h.Settled) : Due h (.taskBegun t)
  | flushed (head : h.head? = some (.taskBegun .flush)) : Due h .flushed
  | jobBegun {k : Nat} (ready : h.AtJobs) : Due h (.jobBegun k)
  | phasesOver (ready : h.AtJobs) : Due h .phasesOver
  | phasesDone (head : h.head? = some .phasesOver) : Due h (.taskDone .phases)
  | idle {k : Nat} (head : h.head? = some (.jobBegun k))
      (gone : ∀ x, h.world.hooks.get? k = some x → x.disposed = true) : Due h (.jobDone k)
  | cleaning {k : Nat} {c : Cleanup} {x : HookSlot} (head : h.head? = some (.jobBegun k))
      (present : h.world.hooks.get? k = some x) (alive : x.disposed = false) :
      Due h (.cleanupBegun k c)
  | bodyBegun {k : Nat} {providers before : List Provider} (ready : h.Ready k) :
      Due h (.bodyBegun k providers before)
  | bodySkipped {k : Nat} (ready : h.Ready k) : Due h (.bodySkipped k)
  | bodyEnded {k : Nat} {providers : List Provider} {c : Option Cleanup} (settled : h.Settled) :
      Due h (.bodyEnded k providers c)
  | jobDone {k : Nat} (head : (∃ providers c, h.head? = some (.bodyEnded k providers c)) ∨
      h.head? = some (.bodySkipped k)) : Due h (.jobDone k)

/-- Every step was made in its time. -/
def Punctual : History → Prop
  | [] => True
  | ev :: h => Punctual h ∧ Due h ev

variable {h : History} {ev : Event}

theorem settled_cons (hev : ¬ ev.Urgent) : Settled (ev :: h) := by
  rintro _ ⟨⟩
  exact hev

theorem Ordinary.settled (ho : h.Ordinary ev) : Settled (ev :: h) := by
  refine settled_cons ?_
  cases ev with
  | taskBegun t => exact absurd ho id
  | _ => first | exact id | exact absurd ho id

end History

namespace Course

variable {c d : Course} {ev : Event}

/-- Every step was made in its time. -/
def Punctual (c : Course) : Prop := c.history.Punctual

/-- The last step leaves open what comes next. -/
def Settled (c : Course) : Prop := c.history.Settled

theorem punctual_start : start.Punctual := trivial

theorem settled_start : start.Settled := fun _ h => by cases h

theorem Punctual.push {h : c.history.Allows ev} (hc : c.Punctual) (hdue : c.history.Due ev) :
    (c.push ev h).Punctual := ⟨hc, hdue⟩

theorem Punctual.of_le (hd : d.Punctual) (hle : c ≤ d) : c.Punctual := by
  induction d using Course.induction with
  | start =>
    rw [Punctual, List.suffix_nil.1 (show c.history <:+ [] from hle)]
    trivial
  | push d ev h ih =>
    rcases List.suffix_cons_iff.1 (show c.history <:+ ev :: d.history from hle) with heq | hle
    · rw [Punctual, heq]
      exact hd
    · exact ih hd.1 hle

theorem punctual_induction {motive : Course → Prop} (start : motive start)
    (push : ∀ c ev (h : c.history.Allows ev), c.Punctual → c.history.Due ev → motive c →
      motive (c.push ev h)) (hc : c.Punctual) : motive c := by
  induction c using Course.induction with
  | start => exact start
  | push c ev h ih => exact push c ev h hc.1 hc.2 (ih hc.1)

end Course

end FineGrain
