import FineGrain.Proofs.Course.Programs
/-!
Wake-ups. Whoever waits has something queued that will see to it: the pending effects a flush, the jobs
of hooks a flush of the phases, and a hook that is marked its job. Each of these is queued once, so a
drain outside of all tasks leaves nothing behind.
-/

namespace FineGrain

open Act

namespace History

/-- How many flushes the last step has taken out of the queue; they have not begun to work yet. -/
def flushBegun : History → Nat
  | [] => 0
  | ev :: _ => ev.taken.countP Task.isFlush

/-- One, if in the last step a flush of the phases has found no job any more. -/
def phasesOver : History → Nat
  | .phasesOver :: _ => 1
  | _ => 0

variable {h : History} {ev : Event}

theorem flushBegun_of_head (hh : h.head? = some (.taskBegun .flush)) : h.flushBegun = 1 := by
  obtain ⟨g, rfl⟩ := List.head?_eq_some_iff.1 hh
  rfl

theorem phasesOver_of_head (hh : h.head? = some .phasesOver) : h.phasesOver = 1 := by
  obtain ⟨g, rfl⟩ := List.head?_eq_some_iff.1 hh
  rfl

theorem flushBegun_of_ne (hh : h.head? ≠ some (.taskBegun .flush)) : h.flushBegun = 0 := by
  cases h with
  | nil => rfl
  | cons ev g =>
    cases ev with
    | taskBegun t =>
      cases t with
      | flush => exact absurd rfl hh
      | _ => rfl
    | _ => rfl

theorem phasesOver_of_ne (hh : h.head? ≠ some .phasesOver) : h.phasesOver = 0 := by
  unfold History.phasesOver
  split
  · exact absurd rfl hh
  · rfl

theorem flushBegun_settled (hs : h.Settled) : h.flushBegun = 0 :=
  flushBegun_of_ne fun hh => hs _ hh trivial

theorem phasesOver_settled (hs : h.Settled) : h.phasesOver = 0 :=
  phasesOver_of_ne fun hh => hs _ hh trivial

theorem Due.eq_flushed (hdue : h.Due ev) (hh : h.head? = some (.taskBegun .flush)) :
    ev = .flushed := by
  cases hdue with
  | ordinary settled | begun settled | bodyEnded settled => exact absurd trivial (settled _ hh)
  | flushed => rfl
  | phasesDone head | idle head | cleaning head | jobDone head => simp [hh] at head
  | jobBegun ready | phasesOver ready => simp [AtJobs, hh] at ready
  | bodyBegun ready | bodySkipped ready => simp [Ready, hh] at ready

theorem Due.eq_phasesDone (hdue : h.Due ev) (hh : h.head? = some .phasesOver) :
    ev = .taskDone .phases := by
  cases hdue with
  | ordinary settled | begun settled | bodyEnded settled => exact absurd trivial (settled _ hh)
  | phasesDone => rfl
  | flushed head | idle head | cleaning head | jobDone head => simp [hh] at head
  | jobBegun ready | phasesOver ready => simp [AtJobs, hh] at ready
  | bodyBegun ready | bodySkipped ready => simp [Ready, hh] at ready

theorem Due.not_flushBegun (hdue : h.Due ev) (hev : ev ≠ .flushed) : h.flushBegun = 0 :=
  flushBegun_of_ne fun hh => hev (hdue.eq_flushed hh)

theorem Due.not_phasesOver (hdue : h.Due ev) (hev : ev ≠ .taskDone .phases) : h.phasesOver = 0 :=
  phasesOver_of_ne fun hh => hev (hdue.eq_phasesDone hh)

end History

namespace Course

variable {c d : Course} {ev : Event} {k : Nat}

theorem countP_tasks_step (p : Task → Bool) (h : c.history.Allows ev) :
    c.world.tasks.countP p + (ev.added c.world).countP p =
      ev.taken.countP p + (c.push ev h).world.tasks.countP p := by
  simpa using congrArg (List.countP p) (tasks_step h)

/-! ### Pending effects -/

theorem flushQueued_step (h : c.history.Allows ev) (hev : ev ≠ .flushed) :
    (if c.world.graph.flushQueued then 1 else 0) + (ev.added c.world).countP Task.isFlush =
      if (c.push ev h).world.graph.flushQueued then 1 else 0 := by
  rw [world_push]
  cases ev with
  | flushed => exact absurd rfl hev
  | aside w =>
    rw [Event.world, World.Aside.graph h]
    rfl
  | tracked | started | effectGone | signalGone =>
    simp [Event.added, Event.world, World.starting, Graph.pushObserver]
  | scheduled e =>
    by_cases hq : c.world.graph.flushQueued = true <;>
      simp [Event.added, Event.world, World.awaiting_one, hq, Task.isFlush]
  | composing s =>
    simp [Event.added, Event.world, World.opened_eq, apply_ite (List.countP Task.isFlush),
      Task.isFlush]
  | jobQueued k =>
    simp only [Event.added, apply_ite (List.countP Task.isFlush), List.countP_singleton,
      List.countP_nil, Task.isFlush, Bool.false_eq_true, if_false, ite_self]
    rfl
  | _ => rfl

theorem pending_step (h : c.history.Allows ev) (hev : ev ≠ .flushed)
    (hc : c.world.graph.pending ≠ [] → c.world.graph.flushQueued = true)
    (hne : (c.push ev h).world.graph.pending ≠ []) :
    (c.push ev h).world.graph.flushQueued = true := by
  rw [world_push] at hne ⊢
  cases ev with
  | flushed => exact absurd rfl hev
  | aside w =>
    have hgraph : w.graph = c.world.graph := World.Aside.graph h
    rw [Event.world, hgraph] at hne ⊢
    exact hc hne
  | tracked | started | effectGone | signalGone =>
    simpa [Event.world, World.starting, Graph.pushObserver] using
      hc (by simpa [Event.world, World.starting, Graph.pushObserver] using hne)
  | scheduled e => rfl
  | composing s =>
    rw [Event.world, World.opened_eq] at hne ⊢
    exact hc hne
  | _ => exact hc hne

/-- The pending effects wait for a flush, which is queued once. -/
structure Flushes (c : Course) : Prop where
  queued : c.world.tasks.countP Task.isFlush + c.history.flushBegun =
    if c.world.graph.flushQueued then 1 else 0
  pending : c.world.graph.pending ≠ [] → c.world.graph.flushQueued = true

theorem flushes (hc : c.Punctual) : c.Flushes := by
  refine punctual_induction (motive := Flushes) ⟨rfl, fun hne => absurd rfl hne⟩ ?_ hc
  intro c ev h _ hdue ih
  have hcount := countP_tasks_step Task.isFlush h
  have hqueued := ih.queued
  -- The mark and the queued task come and go together, but for a flush that has been taken and not
  -- cleared the mark yet.
  by_cases hev : ev = .flushed
  · subst hev
    have hbegun : c.history.flushBegun = 1 := by
      cases hdue with
      | ordinary _ hord => cases hord
      | flushed head => exact History.flushBegun_of_head head
    refine ⟨?_, fun hne => absurd rfl hne⟩
    change (c.push .flushed h).world.tasks.countP Task.isFlush = 0
    simp only [Event.taken, Event.added, List.countP_nil] at hcount
    split at hqueued <;> omega
  · rw [hdue.not_flushBegun hev, Nat.add_zero] at hqueued
    rw [hqueued, flushQueued_step h hev] at hcount
    refine ⟨?_, pending_step h hev ih.pending⟩
    rw [hcount, Nat.add_comm]
    rfl

/-! ### Jobs -/

theorem first_job (h : c.world.phases.pop.1 = some k) : ∃ q phase, c.world.phases.pop = (some k, q) ∧
    c.world.phases.jobs = k :: q.jobs ∧ q.flushQueued = c.world.phases.flushQueued ∧
    c.world.phases.lane phase = k :: q.lane phase ∧
    ∀ phase', phase' ≠ phase → q.lane phase' = c.world.phases.lane phase' := by
  have htaken : c.world.phases.pop = (some k, c.world.phases.pop.2) := Prod.ext h rfl
  have hjobs := Hook.PhaseQueue.jobs_of_pop htaken
  obtain ⟨q, phase, hpop, hrest, hq, hlane, hother⟩ := Hook.PhaseQueue.pop_cons hjobs
  exact ⟨q, phase, hpop, by rw [hjobs, hrest], hq, hlane, hother⟩

theorem phasesQueued_step (h : c.history.Allows ev) (hev : ev ≠ .phasesOver) :
    (if c.world.phases.flushQueued then 1 else 0) + (ev.added c.world).countP Task.isPhases =
      if (c.push ev h).world.phases.flushQueued then 1 else 0 := by
  rw [world_push]
  cases ev with
  | phasesOver => exact absurd rfl hev
  | aside w =>
    rw [Event.world, World.Aside.phases h]
    rfl
  | jobQueued k =>
    by_cases hq : c.world.phases.flushQueued = true <;>
      simp [Event.added, Event.world, Hook.PhaseQueue.flushQueued_push, hq, Task.isPhases]
  | jobBegun k =>
    obtain ⟨q, phase, hpop, -, hq, -⟩ := first_job h.2
    simp [Event.added, Event.world, hpop, hq]
  | composing s =>
    simp [Event.added, Event.world, World.opened_eq, apply_ite (List.countP Task.isPhases),
      Task.isPhases]
  | scheduled e =>
    simp only [Event.added, apply_ite (List.countP Task.isPhases), List.countP_singleton,
      List.countP_nil, Task.isPhases, Bool.false_eq_true, if_false, ite_self]
    rfl
  | _ => rfl

theorem jobs_step (h : c.history.Allows ev)
    (hc : c.world.phases.jobs ≠ [] → c.world.phases.flushQueued = true)
    (hne : (c.push ev h).world.phases.jobs ≠ []) :
    (c.push ev h).world.phases.flushQueued = true := by
  rw [world_push] at hne ⊢
  cases ev with
  | aside w =>
    have hphases : w.phases = c.world.phases := World.Aside.phases h
    rw [Event.world, hphases] at hne ⊢
    exact hc hne
  | jobQueued k => exact Hook.PhaseQueue.flushQueued_push
  | jobBegun k =>
    obtain ⟨q, phase, hpop, hjobs, hq, -⟩ := first_job h.2
    rw [Event.world, hpop]
    exact hq.trans (hc (by simp [hjobs]))
  | phasesOver =>
    have hnil : c.world.phases.jobs = [] := (Hook.PhaseQueue.jobs_of_pop_none h.2).1
    rw [Event.world, Hook.PhaseQueue.pop_nil hnil] at hne
    exact absurd hnil hne
  | composing s =>
    rw [Event.world, World.opened_eq] at hne ⊢
    exact hc hne
  | _ => exact hc hne

/-- The jobs wait for a flush of the phases, which is queued or under way, and only once. -/
structure PhaseFlushes (c : Course) : Prop where
  queued : c.world.tasks.countP Task.isPhases + c.frames.countP Frame.isPhases =
    (if c.world.phases.flushQueued then 1 else 0) + c.history.phasesOver
  jobs : c.world.phases.jobs ≠ [] → c.world.phases.flushQueued = true

theorem phaseFlushes (hc : c.Punctual) : c.PhaseFlushes := by
  refine punctual_induction (motive := PhaseFlushes) ⟨rfl, fun hne => absurd rfl hne⟩ ?_ hc
  intro c ev h _ hdue ih
  refine ⟨?_, jobs_step h ih.jobs⟩
  have hcount := countP_tasks_step Task.isPhases h
  have hqueued := ih.queued
  -- A flush counts while it is queued, then while it is under way, until its jobs are over.
  by_cases hdone : ev = .taskDone .phases
  · subst hdone
    obtain ⟨start, rest, hrest, hcounted⟩ := frames_taskDone h
    have hover : c.history.phasesOver = 1 := by
      cases hdue with
      | ordinary _ hord => cases hord
      | phasesDone head => exact History.phasesOver_of_head head
    have hframes : (c.push _ h).frames.countP Frame.isPhases + 1 = c.frames.countP Frame.isPhases := by
      rw [hrest, hcounted, Frame.countP_count]
      exact (List.countP_cons_of_pos rfl).symm
    change _ = (if c.world.phases.flushQueued then 1 else 0) + 0
    simp only [Event.taken, Event.added, List.countP_nil] at hcount
    omega
  have hover := hdue.not_phasesOver hdone
  by_cases hbegun : ev = .taskBegun .phases
  · subst hbegun
    have hframes : (c.push _ h).frames.countP Frame.isPhases = c.frames.countP Frame.isPhases + 1 :=
      List.countP_cons_of_pos rfl
    change _ = (if c.world.phases.flushQueued then 1 else 0) + 0
    have htaken : (Event.taskBegun .phases).taken.countP Task.isPhases = 1 := rfl
    simp only [htaken, Event.added, List.countP_nil] at hcount
    omega
  have hframes := phases_frames h hbegun hdone
  have htaken : ev.taken.countP Task.isPhases = 0 := by
    cases ev with
    | taskBegun t => cases t <;> first | rfl | exact absurd rfl hbegun
    | _ => rfl
  by_cases hev : ev = .phasesOver
  · subst hev
    obtain ⟨start, hflush⟩ := h.1
    obtain ⟨rest, hrest⟩ := frames_cons hflush
    have hopen : 1 ≤ c.frames.countP Frame.isPhases := by
      rw [hrest]
      exact List.countP_pos_iff.2 ⟨_, List.mem_cons_self, rfl⟩
    have hflag : (c.push .phasesOver h).world.phases.flushQueued = false := by
      have hnil : c.world.phases.jobs = [] := (Hook.PhaseQueue.jobs_of_pop_none h.2).1
      rw [world_push, Event.world, Hook.PhaseQueue.pop_nil hnil]
    rw [hflag]
    change _ = 0 + 1
    simp only [Event.added, List.countP_nil] at hcount
    split at hqueued <;> omega
  · have hstep := phasesQueued_step h hev
    have hlast : (c.push ev h).history.phasesOver = 0 := by
      cases ev <;> first | rfl | exact absurd rfl hev
    omega

/-! ### Hooks -/

/-- A hook is marked as queued exactly as long as one job for it is in the queue of its phase. -/
structure Marked (c : Course) : Prop where
  count : ∀ k x, c.world.hooks.get? k = some x → ∀ phase,
    (c.world.phases.lane phase).count k = if x.queued = true ∧ phase = x.phase then 1 else 0
  present : ∀ k ∈ c.world.phases.jobs, ∃ x, c.world.hooks.get? k = some x

theorem Marked.congr (hc : c.Marked)
    (hlanes : ∀ phase, d.world.phases.lane phase = c.world.phases.lane phase)
    (hhooks : ∀ k, (d.world.hooks.get? k).map (fun x => (x.phase, x.queued)) =
      (c.world.hooks.get? k).map fun x => (x.phase, x.queued)) : d.Marked := by
  refine ⟨fun k y hy phase => ?_, fun k hk => ?_⟩
  · have hsame := hhooks k
    rw [hy] at hsame
    obtain ⟨x, hx, hxy⟩ := Option.map_eq_some_iff.1 hsame.symm
    obtain ⟨hp, hq⟩ := Prod.mk.inj hxy
    rw [hlanes, hc.count k x hx, hp, hq]
  · obtain ⟨phase, hk⟩ := Hook.PhaseQueue.mem_jobs.1 hk
    rw [hlanes] at hk
    obtain ⟨x, hx⟩ := hc.present k (Hook.PhaseQueue.mem_jobs.2 ⟨phase, hk⟩)
    have hsame := hhooks k
    rw [hx] at hsame
    obtain ⟨y, hy, -⟩ := Option.map_eq_some_iff.1 hsame
    exact ⟨y, hy⟩

theorem Marked.hookMade {phase : Hook.Phase} {body : Body} {onCleanup : Option Body}
    {dependencies : Option (List Dependency)} (hc : c.Marked)
    (h : c.history.Allows (.hookMade k phase body onCleanup dependencies)) : (c.push _ h).Marked := by
  have hk : k = c.world.next := h
  have hnew : ∀ j ∈ c.world.phases.jobs, j ≠ k := fun j hj => by
    obtain ⟨x, hx⟩ := hc.present j hj
    exact hk ▸ Nat.ne_of_lt (hook_lt hx)
  refine ⟨fun j y hy phase => ?_, fun j hj => ?_⟩
  · simp only [world_push, Event.world, Store.get?_put] at hy
    rw [world_push, Event.world]
    split at hy
    · rename_i hj
      cases hy
      rw [List.count_eq_zero.2 fun hmem =>
        hnew j (Hook.PhaseQueue.mem_jobs.2 ⟨phase, hmem⟩) hj]
      rfl
    · exact hc.count j y hy phase
  · obtain ⟨x, hx⟩ := hc.present j hj
    exact ⟨x, by simpa only [world_push, Event.world, Store.get?_put, if_neg (hnew j hj)] using hx⟩

theorem Marked.jobQueued {phase : Hook.Phase} (hc : c.Marked)
    (h : c.history.Allows (.jobQueued k phase)) : (c.push _ h).Marked := by
  obtain ⟨x, hx, hqueued, rfl⟩ := id h
  have hx : c.world.hooks.get? k = some x := hx
  refine ⟨fun j y hy phase => ?_, fun j hj => ?_⟩
  · simp only [world_push, Event.world, Store.get?_modify] at hy
    rw [world_push, Event.world, Hook.PhaseQueue.lane_push, List.count_append]
    -- The hook that is queued was not marked before, so it stood in no lane and stands in one of
    -- them now.
    split at hy
    · rename_i hj
      subst hj
      rw [hx] at hy
      obtain rfl : { x with queued := true } = y := Option.some.inj hy
      rw [hc.count j x hx phase]
      by_cases hp : phase = x.phase <;> simp [hp, hqueued]
    · rename_i hj
      have hnone : List.count j (if phase = x.phase then [k] else []) = 0 := by
        rw [List.count_eq_zero]
        split
        · exact fun hmem => hj (List.mem_singleton.1 hmem)
        · exact List.not_mem_nil
      rw [hc.count j y hy phase, hnone]
      rfl
  · have hmem : j ∈ c.world.phases.jobs ∨ j = k := by
      obtain ⟨phase, hj⟩ := Hook.PhaseQueue.mem_jobs.1 hj
      rw [world_push, Event.world, Hook.PhaseQueue.lane_push, List.mem_append] at hj
      rcases hj with hj | hj
      · exact .inl (Hook.PhaseQueue.mem_jobs.2 ⟨phase, hj⟩)
      · split at hj
        · exact .inr (List.mem_singleton.1 hj)
        · cases hj
    obtain ⟨y, hy⟩ : ∃ y, c.world.hooks.get? j = some y :=
      hmem.elim (hc.present j) fun hj => ⟨x, hj ▸ hx⟩
    rw [world_push, Event.world, Store.get?_modify, hy]
    split <;> exact ⟨_, rfl⟩

theorem Marked.jobBegun (hc : c.Marked) (h : c.history.Allows (.jobBegun k)) :
    (c.push _ h).Marked := by
  obtain ⟨q, taken, hpop, hjobs, -, hlane, hother⟩ := first_job h.2
  obtain ⟨x, hx⟩ := hc.present k (by rw [hjobs]; exact List.mem_cons_self)
  have hphases : (c.push _ h).world.phases = q := by
    rw [world_push, Event.world, hpop]
  -- Only the lane of the hook's phase holds a job of the hook, and only one.
  have hcount := hc.count k x hx taken
  rw [hlane, List.count_cons_self] at hcount
  have htaken : x.queued = true ∧ taken = x.phase := Decidable.byContradiction fun hne => by
    rw [if_neg hne] at hcount
    omega
  refine ⟨fun j y hy phase => ?_, fun j hj => ?_⟩
  · rw [hphases]
    simp only [world_push, Event.world, Store.get?_modify] at hy
    split at hy
    · rename_i hj
      subst hj
      rw [hx] at hy
      obtain rfl : { x with queued := false } = y := Option.some.inj hy
      by_cases hp : phase = taken
      · subst hp
        rw [if_pos htaken] at hcount
        simp
        omega
      · rw [hother phase hp, hc.count j x hx phase, if_neg fun hq => hp (hq.2.trans htaken.2.symm)]
        rfl
    · rename_i hj
      rw [← hc.count j y hy phase]
      by_cases hp : phase = taken
      · subst hp
        rw [hlane, List.count_cons_of_ne fun hkj => hj hkj.symm]
      · rw [hother phase hp]
  · rw [hphases] at hj
    obtain ⟨y, hy⟩ := hc.present j (by rw [hjobs]; exact List.mem_cons_of_mem _ hj)
    rw [world_push, Event.world, Store.get?_modify, hy]
    split <;> exact ⟨_, rfl⟩

theorem marked (c : Course) : c.Marked := by
  induction c using Course.induction with
  | start => exact ⟨fun _ _ h => (by cases h), fun _ h => (by cases h)⟩
  | push c ev h ih =>
    cases ev with
    | aside w =>
      have hphases : w.phases = c.world.phases := World.Aside.phases h
      have hhooks : w.hooks = c.world.hooks := World.Aside.hooks h
      exact ih.congr (fun _ => by rw [world_push, Event.world, hphases])
        fun k => by rw [world_push, Event.world, hhooks]
    | hookMade => exact ih.hookMade h
    | jobQueued => exact ih.jobQueued h
    | jobBegun => exact ih.jobBegun h
    | phasesOver =>
      refine ih.congr (fun phase => ?_) fun _ => rfl
      have hnil : c.world.phases.jobs = [] := (Hook.PhaseQueue.jobs_of_pop_none h.2).1
      rw [world_push, Event.world, Hook.PhaseQueue.pop_nil hnil]
      cases phase <;> rfl
    | cleanupBegun k | bodyBegun k | bodyEnded k | hookDisposed k =>
      exact ih.congr (fun _ => rfl) fun _ => Store.map_get?_modify fun _ => rfl
    | composing s =>
      exact ih.congr (fun _ => by rw [world_push, Event.world, World.opened_eq])
        fun k => by rw [world_push, Event.world, World.opened_eq]
    | _ => exact ih.congr (fun _ => rfl) fun _ => rfl

end Course

/-! ### Wake-ups -/

namespace World

/-- Nothing is queued and nothing waits. -/
structure CaughtUp (w : World) : Prop where
  tasks : w.tasks = []
  pending : w.graph.pending = []
  flush : w.graph.flushQueued = false
  lanes : ∀ phase, w.phases.lane phase = []
  phases : w.phases.flushQueued = false
  hooks : ∀ k x, w.hooks.get? k = some x → x.queued = false

end World

namespace Course

variable {c d : Course} {k : Nat}

/-- Nobody is left behind. A flush that has just been taken out of the queue counts as queued until it
begins to work, and a flush of the phases that finds no job any more is over.

* `pending`, `flush`: pending effects wait for a flush, which is queued once
* `jobs`, `phases`: jobs of hooks wait for a flush of the phases, which is queued or under way, once
* `hooks`: a hook is marked as long as one job for it is in the queue of its phase
* `drained`: a drain outside of all tasks leaves nothing behind -/
structure Awake (c : Course) : Prop where
  pending : c.world.graph.pending ≠ [] → c.world.graph.flushQueued = true
  flush : c.world.tasks.countP Task.isFlush + c.history.flushBegun =
    if c.world.graph.flushQueued then 1 else 0
  jobs : ∀ phase, c.world.phases.lane phase ≠ [] → c.world.phases.flushQueued = true
  phases : c.world.tasks.countP Task.isPhases + c.frames.countP Frame.isPhases =
    (if c.world.phases.flushQueued then 1 else 0) + c.history.phasesOver
  hooks : ∀ k x, c.world.hooks.get? k = some x → ∀ phase,
    (c.world.phases.lane phase).count k = if x.queued = true ∧ phase = x.phase then 1 else 0
  hooked : ∀ phase, ∀ k ∈ c.world.phases.lane phase, ∃ x, c.world.hooks.get? k = some x
  drained : (∀ t start, .task t start ∉ c.frames) → ∀ n count w,
    c.world.run (drain (.ofDepth n)) = (.ok count, w) → w.CaughtUp

/-- When the queue is empty outside of all tasks, nothing waits. -/
theorem caughtUp (hc : c.Punctual) (hout : ∀ t start, .task t start ∉ c.frames)
    (htasks : c.world.tasks = []) : c.world.CaughtUp := by
  have hflushes := flushes hc
  have hphases := phaseFlushes hc
  have hmarked := marked c
  have hframes : c.frames.countP Frame.isPhases = 0 := by
    refine List.countP_eq_zero.2 fun f hf hp => ?_
    obtain ⟨start, rfl⟩ := Frame.eq_of_isPhases hp
    exact hout .phases start hf
  have hbegun := History.flushBegun_settled (settled_outside hc hout)
  have hover := History.phasesOver_settled (settled_outside hc hout)
  -- With no task in the queue and none under way, a flush that is marked as queued would have to be
  -- in one of the two.
  have hflush : c.world.graph.flushQueued = false := by
    have hqueued := hflushes.queued
    rw [htasks, hbegun] at hqueued
    split at hqueued
    · cases hqueued
    · simp_all
  have hphase : c.world.phases.flushQueued = false := by
    have hqueued := hphases.queued
    rw [htasks, hframes, hover] at hqueued
    split at hqueued
    · cases hqueued
    · simp_all
  have hjobs : c.world.phases.jobs = [] := Decidable.byContradiction fun hne => by
    have := hphases.jobs hne
    simp_all
  have hlanes := Hook.PhaseQueue.lane_of_no_jobs hjobs
  refine ⟨htasks, Decidable.byContradiction fun hne => ?_, hflush, hlanes, hphase, fun k x hx => ?_⟩
  · have := hflushes.pending hne
    simp_all
  · have hcount := hmarked.count k x hx x.phase
    rw [hlanes] at hcount
    cases hq : x.queued with
    | false => rfl
    | true => simp [hq] at hcount

theorem awake (hc : c.Punctual) : c.Awake where
  pending := (flushes hc).pending
  flush := (flushes hc).queued
  jobs phase hne := by
    obtain ⟨k, hk⟩ := List.exists_mem_of_ne_nil _ hne
    exact (phaseFlushes hc).jobs (List.ne_nil_of_mem (Hook.PhaseQueue.mem_jobs.2 ⟨phase, hk⟩))
  phases := (phaseFlushes hc).queued
  hooks := (marked c).count
  hooked phase k hk := (marked c).present k (Hook.PhaseQueue.mem_jobs.2 ⟨phase, hk⟩)
  drained hout n count w hrun := by
    obtain ⟨d, -, hd, hw, hans⟩ := Follows.drain (c := c) (lawful_ofDepth n)
    rw [hrun] at hw hans
    obtain rfl : w = d.world := hw
    obtain ⟨-, hframes, htasks⟩ := hans count rfl
    exact caughtUp ((hd (settled_outside hc hout)).punctual hc) (by rw [hframes]; exact hout) htasks

end Course

/-- At every point of every run of a program nobody is left behind. -/
theorem nobody_left_behind (n : Nat) (program : List Expr) :
    (∃ d : Course, d.Of (.ofDepth n) program ∧ d.Punctual) ∧
      ∀ d : Course, d.Of (.ofDepth n) program → d.Punctual → ∀ c ≤ d, c.Awake :=
  ⟨Course.exists_punctual n program, fun _ _ hd _ hle => Course.awake (hd.of_le hle)⟩

/-- A deferred effect that a write has woken waits for one flush. -/
theorem nobody_left_behind_pending :
    let program : List Expr := [
      .create "a" (.signal (.value (.integer 1))),
      .create "e" (.effect .deferred (.on "a" "get" .get)),
      .drain,
      .on "a" "set" (.set (.value (.integer 2)))]
    ∃ d : Course, d.Of (.ofDepth 9) program ∧ d.Punctual ∧ d.world.graph.pending = [2] ∧
      d.world.tasks.countP Task.isFlush + d.history.flushBegun = 1 ∧ ∀ c ≤ d, c.Awake := by
  intro program
  obtain ⟨⟨d, hd, hpunctual⟩, hall⟩ := nobody_left_behind 9 program
  have hawake := hall d hd hpunctual
  have hqueued : d.world.graph.flushQueued = true := by
    rw [← hd.world]
    decide +kernel
  refine ⟨d, hd, hpunctual, ?_, ?_, hawake⟩
  · rw [← hd.world]
    decide +kernel
  · rw [(hawake d (le_refl d)).flush, hqueued]
    rfl

end FineGrain
