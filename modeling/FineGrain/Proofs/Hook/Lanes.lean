import FineGrain.Hook.PhaseQueue
/-!
The lanes of a phase queue. A job joins the lane of its phase, and the first job of the first lane
that has one is taken.
-/

namespace FineGrain.Hook

/-- How urgent a phase is: those of smaller rank come first. -/
def Phase.rank : Phase → Nat
  | .insertion => 0
  | .layout => 1
  | .passive => 2

theorem Phase.rank_inj {phase phase' : Phase} (h : phase.rank = phase'.rank) : phase = phase' := by
  cases phase <;> cases phase' <;> simp_all [Phase.rank]

namespace PhaseQueue

variable {α : Type}

def lane (q : PhaseQueue α) : Phase → List α
  | .insertion => q.insertion
  | .layout => q.layout
  | .passive => q.passive

/-- All jobs, in the order in which they will be taken. -/
def jobs (q : PhaseQueue α) : List α := q.insertion ++ (q.layout ++ q.passive)

variable {q : PhaseQueue α} {phase : Phase} {job : α} {rest : List α}

theorem mem_jobs : job ∈ q.jobs ↔ ∃ phase, job ∈ q.lane phase := by
  simp only [jobs, List.mem_append]
  constructor
  · rintro (h | h | h)
    · exact ⟨.insertion, h⟩
    · exact ⟨.layout, h⟩
    · exact ⟨.passive, h⟩
  · rintro ⟨_ | _ | _, h⟩
    · exact .inl h
    · exact .inr (.inl h)
    · exact .inr (.inr h)

theorem lane_of_no_jobs (h : q.jobs = []) (phase : Phase) : q.lane phase = [] := by
  refine List.eq_nil_iff_forall_not_mem.2 fun job hjob => ?_
  have hmem := mem_jobs.2 ⟨phase, hjob⟩
  rw [h] at hmem
  cases hmem

theorem push_fst : (q.push phase job).1 = !q.flushQueued := rfl

theorem flushQueued_push : (q.push phase job).2.flushQueued = true := rfl

theorem lane_push (phase' : Phase) : (q.push phase job).2.lane phase' =
    q.lane phase' ++ if phase' = phase then [job] else [] := by
  cases phase <;> cases phase' <;> simp [push, lane]

theorem pop_nil (h : q.jobs = []) : q.pop = (none, { q with flushQueued := false }) := by
  obtain ⟨insertion, layout, passive, flushQueued⟩ := q
  simp only [jobs, List.append_eq_nil_iff] at h
  obtain ⟨rfl, rfl, rfl⟩ := h
  rfl

theorem pop_cons (h : q.jobs = job :: rest) : ∃ q' phase, q.pop = (some job, q') ∧
    q'.jobs = rest ∧ q'.flushQueued = q.flushQueued ∧ q.lane phase = job :: q'.lane phase ∧
    ∀ phase', phase' ≠ phase → q'.lane phase' = q.lane phase' := by
  obtain ⟨insertion, layout, passive, flushQueued⟩ := q
  simp only [jobs] at h
  cases insertion with
  | cons a insertion =>
    obtain ⟨rfl, rfl⟩ := List.cons.inj h
    exact ⟨_, .insertion, rfl, rfl, rfl, rfl, fun phase' hne => by cases phase' <;> simp_all [lane]⟩
  | nil =>
    cases layout with
    | cons a layout =>
      obtain ⟨rfl, rfl⟩ := List.cons.inj h
      exact ⟨_, .layout, rfl, rfl, rfl, rfl, fun phase' hne => by cases phase' <;> simp_all [lane]⟩
    | nil =>
      cases passive with
      | cons a passive =>
        obtain ⟨rfl, rfl⟩ := List.cons.inj h
        exact ⟨_, .passive, rfl, rfl, rfl, rfl,
          fun phase' hne => by cases phase' <;> simp_all [lane]⟩
      | nil => simp at h

theorem jobs_of_pop_none (hpop : q.pop.1 = none) : q.jobs = [] ∧ q.pop.2.jobs = [] := by
  cases hjobs : q.jobs with
  | nil => exact ⟨rfl, by rw [pop_nil hjobs]; exact hjobs⟩
  | cons a rest =>
    obtain ⟨q', _, htaken, -⟩ := pop_cons hjobs
    rw [htaken] at hpop
    cases hpop

theorem jobs_of_pop {q' : PhaseQueue α} (h : q.pop = (some job, q')) :
    q.jobs = job :: q'.jobs := by
  cases hj : q.jobs with
  | nil =>
    rw [pop_nil hj] at h
    cases h
  | cons a rest =>
    obtain ⟨q'', _, hpop, hrest, _⟩ := pop_cons hj
    rw [hpop] at h
    cases h
    rw [hrest]

end PhaseQueue

end FineGrain.Hook
