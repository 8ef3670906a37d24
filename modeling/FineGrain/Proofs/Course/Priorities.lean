import FineGrain.Proofs.Course.Turns
import FineGrain.Proofs.Course.Wakeups
import FineGrain.Proofs.Hook.Arrivals
/-!
The order of jobs. A history tells which jobs of hooks have arrived, which were taken and which still
wait. The job that is taken is the most urgent one of those that wait, and of these the one that arrived
first; no job is taken twice, and a flush of the phases does not return as long as one waits.
-/

namespace FineGrain

open Act Hook

namespace World

theorem jobs_of_runJobs {host : Host} {n : Nat} {w w' : World}
    (h : w.run (runJobs host n) = (.ok ⟨⟩, w')) : w'.phases.jobs = [] := by
  induction n generalizing w with
  | zero => cases h
  | succ n ih =>
    simp only [runJobs, run_bind, run_get, run_modify] at h
    cases hpop : w.phases.pop.1 with
    | none =>
      rw [hpop] at h
      obtain rfl : _ = w' := congrArg Prod.snd h
      exact (PhaseQueue.jobs_of_pop_none hpop).2
    | some k =>
      simp only [hpop, run_bind] at h
      rcases hrun : { w with phases := w.phases.pop.2 }.run (runHook host k) with ⟨_ | _, w₁⟩
      · rw [hrun] at h
        cases h
      · rw [hrun] at h
        exact ih h

end World

namespace History

def jobsArrived : History → List (Arrival Nat)
  | [] => []
  | .jobQueued k phase :: h => jobsArrived h ++ [⟨(jobsArrived h).length, phase, k⟩]
  | _ :: h => jobsArrived h

/-- The jobs that were queued and that no step has taken since, in order of arrival. -/
def jobsWaiting : History → List (Arrival Nat)
  | [] => []
  | .jobQueued k phase :: h => jobsWaiting h ++ [⟨(jobsArrived h).length, phase, k⟩]
  | .jobBegun k :: h => (jobsWaiting h).filter (·.job ≠ k)
  | _ :: h => jobsWaiting h

def jobsTaken : History → List (Arrival Nat)
  | [] => []
  | .jobBegun k :: h => jobsTaken h ++ (jobsWaiting h).filter (·.job = k)
  | _ :: h => jobsTaken h

/-- The hooks whose jobs have begun, in the order in which they did. -/
def jobsBegun : History → List Nat
  | [] => []
  | .jobBegun k :: h => jobsBegun h ++ [k]
  | _ :: h => jobsBegun h

variable {h : History} {ev : Event}

theorem jobs_perm (h : History) : (h.jobsTaken ++ h.jobsWaiting).Perm h.jobsArrived := by
  induction h with
  | nil => exact .nil
  | cons ev h ih =>
    cases ev with
    | jobQueued k phase =>
      rw [jobsWaiting, jobsArrived, ← List.append_assoc]
      exact ih.append_right _
    | jobBegun k =>
      rw [jobsTaken, jobsWaiting, List.append_assoc]
      refine (List.Perm.append_left _ ?_).trans ih
      simpa using List.filter_append_perm (fun a : Arrival Nat => a.job = k) (jobsWaiting h)
    | _ => exact ih

theorem numbers_jobsArrived (h : History) :
    h.jobsArrived.map (·.number) = List.range h.jobsArrived.length := by
  induction h with
  | nil => rfl
  | cons ev h ih =>
    cases ev with
    | jobQueued k phase => simp [jobsArrived, ih, List.range_succ]
    | _ => exact ih

theorem nodup_jobsArrived (h : History) : h.jobsArrived.Nodup := by
  refine List.Nodup.of_map (·.number) ?_
  rw [numbers_jobsArrived]
  exact List.nodup_range

theorem number_lt {a : Arrival Nat} (ha : a ∈ h.jobsWaiting) : a.number < h.jobsArrived.length := by
  have ha : a ∈ h.jobsArrived := (jobs_perm h).mem_iff.1 (List.mem_append_right _ ha)
  exact List.mem_range.1 (numbers_jobsArrived h ▸ List.mem_map_of_mem ha)

theorem jobsArrived_step (h : History) (ev : Event) : h.jobsArrived <+: jobsArrived (ev :: h) := by
  cases ev with
  | jobQueued k phase => exact List.prefix_append _ _
  | _ => exact List.prefix_refl _

end History

namespace Course

variable {c d : Course} {ev : Event} {k : Nat}

/-- The lanes stand for the jobs that wait, of which there is one for a hook at most. -/
structure Holding (c : Course) : Prop where
  holds : c.world.phases.Holds c.history.jobsWaiting
  hooks : (c.history.jobsWaiting.map (·.job)).Nodup

theorem Holding.first (hc : c.Holding) (hpop : c.world.phases.pop.1 = some k) :
    ∃ a ∈ c.history.jobsWaiting, a.job = k ∧ (∀ b ∈ c.history.jobsWaiting, b ≠ a → a.Before b) ∧
      History.jobsWaiting (.jobBegun k :: c.history) = c.history.jobsWaiting.erase a ∧
      History.jobsTaken (.jobBegun k :: c.history) = c.history.jobsTaken ++ [a] ∧
      c.world.phases.pop.2.Holds (c.history.jobsWaiting.erase a) := by
  obtain ⟨a, ha, rfl, hfirst, hholds⟩ := hc.holds.pop hpop
  obtain ⟨hone, hothers⟩ := Arrival.filter_job hc.hooks ha
  exact ⟨a, ha, rfl, hfirst, hothers, by rw [History.jobsTaken, hone], hholds⟩

theorem holding (c : Course) : c.Holding := by
  induction c using Course.induction with
  | start => exact ⟨PhaseQueue.holds_empty, .nil⟩
  | push c ev h ih =>
    cases ev with
    | aside w =>
      have hphases : w.phases = c.world.phases := World.Aside.phases h
      exact ⟨ih.holds.congr fun _ => by rw [world_push, Event.world, hphases], ih.hooks⟩
    | jobQueued k phase =>
      -- A job that is queued was not waiting, since its hook was not marked.
      have hnew : ∀ a ∈ c.history.jobsWaiting, a.job ≠ k := by
        rintro a ha rfl
        obtain ⟨x, hx, hqueued, -⟩ := id h
        have hlane : a.job ∈ c.world.phases.lane a.phase := by
          rw [ih.holds.lanes]
          exact List.mem_map_of_mem (List.mem_filter.2 ⟨ha, by simp⟩)
        have hcount := (marked c).count _ x hx a.phase
        rw [if_neg fun hx => by rw [hqueued] at hx; cases hx.1] at hcount
        exact List.count_eq_zero.1 hcount hlane
      refine ⟨ih.holds.push fun a => History.number_lt, ?_⟩
      rw [history_push, History.jobsWaiting, List.map_append]
      refine ih.hooks.append (List.nodup_singleton _) fun j hj hk => ?_
      obtain ⟨a, ha, rfl⟩ := List.mem_map.1 hj
      exact hnew a ha (List.mem_singleton.1 hk)
    | jobBegun k =>
      obtain ⟨a, ha, -, -, hrest, -, hholds⟩ := ih.first h.2
      refine ⟨?_, ?_⟩
      · rw [history_push, hrest]
        exact hholds
      · exact ih.hooks.sublist (List.filter_sublist.map _)
    | phasesOver =>
      obtain ⟨hnone, hleft⟩ := PhaseQueue.jobs_of_pop_none h.2
      exact ⟨ih.holds.congr fun phase => (PhaseQueue.lane_of_no_jobs hleft phase).trans
        (PhaseQueue.lane_of_no_jobs hnone phase).symm, ih.hooks⟩
    | composing s =>
      exact ⟨ih.holds.congr fun _ => by rw [world_push, Event.world, World.opened_eq], ih.hooks⟩
    | _ => exact ⟨ih.holds, ih.hooks⟩

theorem taken_jobs (c : Course) : c.history.jobsTaken.map (·.job) = c.history.jobsBegun := by
  induction c using Course.induction with
  | start => rfl
  | push c ev h ih =>
    cases ev with
    | jobBegun k =>
      obtain ⟨a, -, rfl, -, -, htaken, -⟩ := (holding c).first h.2
      rw [history_push, htaken, List.map_append, ih]
      rfl
    | _ => exact ih

theorem jobsArrived_mono (hle : c ≤ d) : c.history.jobsArrived <+: d.history.jobsArrived := by
  induction hle using Course.le_induction with
  | start => exact List.prefix_refl _
  | push e ev h _ ih => exact ih.trans (History.jobsArrived_step _ ev)

theorem taken_sorted (hle : c ≤ d) (hnone : d.history.jobsArrived = c.history.jobsArrived) :
    d.history.jobsTaken ++ Arrival.byPhase d.history.jobsWaiting =
      c.history.jobsTaken ++ Arrival.byPhase c.history.jobsWaiting := by
  induction hle using Course.le_induction with
  | start => rfl
  | push e ev h hle ih =>
    have hbefore : e.history.jobsArrived = c.history.jobsArrived :=
      ((hnone ▸ History.jobsArrived_step e.history ev).eq_of_length_le
        (jobsArrived_mono hle).length_le)
    rw [← ih hbefore]
    cases ev with
    | jobQueued k phase =>
      have hlength := congrArg List.length (hnone.trans hbefore.symm)
      simp [History.jobsArrived] at hlength
    | jobBegun k =>
      obtain ⟨a, ha, -, hfirst, hrest, htaken, -⟩ := (holding e).first h.2
      rw [history_push, hrest, htaken, Arrival.byPhase_of_first (holding e).holds.numbers ha hfirst,
        List.append_assoc]
      rfl
    | _ => rfl

theorem exists_flushed (hc : c.Punctual) (n fuel : Nat) {start : World} (hready : c.history.AtJobs)
    (hframe : c.frames.head? = some (.task .phases start)) :
    ∃ d, c ≤ d ∧ d.Punctual ∧ (c.world.run (runJobs (.ofDepth n) fuel)).2 = d.world ∧
      ((c.world.run (runJobs (.ofDepth n) fuel)).1 = .ok ⟨⟩ → d.history.jobsWaiting = []) := by
  obtain ⟨d, hle, hd, hw, -⟩ := Leads.runJobs (lawful_ofDepth n) fuel c ⟨start, hframe⟩
    fun _ : True => hready
  refine ⟨d, hle, (hd trivial).punctual hc, hw, fun hok => (holding d).holds.nil ?_⟩
  rw [← hw]
  exact PhaseQueue.lane_of_no_jobs (World.jobs_of_runJobs (Prod.ext hok rfl))

theorem Holding.pop_eq {a : Arrival Nat} (hc : c.Holding) (ha : a ∈ c.history.jobsWaiting)
    (hfirst : ∀ b ∈ c.history.jobsWaiting, b ≠ a → a.Before b) :
    c.world.phases.pop.1 = some a.job ∧
      c.world.phases.pop.2.Holds (c.history.jobsWaiting.erase a) := by
  cases hpop : c.world.phases.pop.1 with
  | none =>
    have hnone := PhaseQueue.lane_of_no_jobs (PhaseQueue.jobs_of_pop_none hpop).1
    rw [hc.holds.nil hnone] at ha
    cases ha
  | some k =>
    obtain ⟨a', ha', rfl, hfirst', -, -, hholds⟩ := hc.first hpop
    obtain rfl : a = a' := by_contra fun hne =>
      (hfirst a' ha' (Ne.symm hne)).asymm (hfirst' a ha hne)
    exact ⟨rfl, hholds⟩

/-- The jobs of hooks are taken by urgency.

* `lanes`: the lanes stand for the jobs that wait
* `queued`, `next`: a job that is queued joins them as the last one to have arrived; what a flush runs
  next is the job that is before all others, and the others go on waiting
* `taken`: so at every step that takes a job
* `once`: no job arrives twice, what has arrived was taken or waits, and what was taken is what has
  begun
* `sorted`: while no job arrives, those that wait are taken in the stable sort by phase
* `flush`: what a flush does is a sequence of steps made in their time, and it returns only when no job
  waits
* `drained`: a drain outside of all tasks returns only when all jobs that have arrived were taken -/
structure ByUrgency (c : Course) : Prop where
  lanes : c.world.phases.Holds c.history.jobsWaiting
  queued : ∀ phase k, (c.world.run (scheduleJob phase k)).2.phases.Holds
    (c.history.jobsWaiting ++ [⟨c.history.jobsArrived.length, phase, k⟩])
  next : ∀ a ∈ c.history.jobsWaiting, (∀ b ∈ c.history.jobsWaiting, b ≠ a → a.Before b) →
    ∀ host fuel, c.world.run (runJobs host (fuel + 1)) =
        { c.world with phases := c.world.phases.pop.2 }.run (do
          runHook host a.job
          runJobs host fuel) ∧
      c.world.phases.pop.2.Holds (c.history.jobsWaiting.erase a)
  taken : ∀ k (later earlier : History), c.history = later ++ .jobBegun k :: earlier →
    ∃ a ∈ earlier.jobsWaiting, a.job = k ∧ (∀ b ∈ earlier.jobsWaiting, b ≠ a → a.Before b) ∧
      History.jobsWaiting (.jobBegun k :: earlier) = earlier.jobsWaiting.erase a ∧
      History.jobsTaken (.jobBegun k :: earlier) = earlier.jobsTaken ++ [a]
  once : c.history.jobsArrived.Nodup ∧
    (c.history.jobsTaken ++ c.history.jobsWaiting).Perm c.history.jobsArrived ∧
    c.history.jobsTaken.map (·.job) = c.history.jobsBegun
  sorted : ∀ b ≤ c, c.history.jobsArrived = b.history.jobsArrived →
    c.history.jobsTaken ++ Arrival.byPhase c.history.jobsWaiting =
      b.history.jobsTaken ++ Arrival.byPhase b.history.jobsWaiting
  flush : ∀ n fuel start, c.history.AtJobs → c.frames.head? = some (.task .phases start) →
    ∃ d, c ≤ d ∧ d.Punctual ∧ (c.world.run (runJobs (.ofDepth n) fuel)).2 = d.world ∧
      ((c.world.run (runJobs (.ofDepth n) fuel)).1 = .ok ⟨⟩ → d.history.jobsWaiting = [] ∧
        (d.history.jobsArrived = c.history.jobsArrived → d.history.jobsTaken =
          c.history.jobsTaken ++ Arrival.byPhase c.history.jobsWaiting))
  drained : (∀ t start, .task t start ∉ c.frames) → ∀ n count w,
    c.world.run (drain (.ofDepth n)) = (.ok count, w) →
      ∃ d, c ≤ d ∧ d.Punctual ∧ w = d.world ∧ d.history.jobsTaken.Perm d.history.jobsArrived

theorem byUrgency (hc : c.Punctual) : c.ByUrgency where
  lanes := (holding c).holds
  queued phase k := by
    have hphases : (c.world.run (scheduleJob phase k)).2.phases = (c.world.phases.push phase k).2 := by
      simp only [scheduleJob, World.run_bind, World.run_get, World.run_modify]
      split <;> rfl
    rw [hphases]
    exact (holding c).holds.push fun a => History.number_lt
  next a ha hfirst host fuel := by
    obtain ⟨hpop, hholds⟩ := (holding c).pop_eq ha hfirst
    refine ⟨?_, hholds⟩
    simp only [runJobs, World.run_bind, World.run_get, hpop, World.run_modify]
  taken k later earlier hh := by
    obtain ⟨b, -, hb⟩ := exists_le hh
    obtain ⟨e, h, rfl⟩ := exists_push hb
    obtain rfl : e.history = earlier := List.tail_eq_of_cons_eq hb
    obtain ⟨a, ha, hjob, hfirst, hrest, htaken, -⟩ := (holding e).first h.2
    exact ⟨a, ha, hjob, hfirst, hrest, htaken⟩
  once := ⟨History.nodup_jobsArrived _, History.jobs_perm _, taken_jobs c⟩
  sorted b hle hnone := taken_sorted hle hnone
  flush n fuel start hready hframe := by
    obtain ⟨d, hle, hd, hw, hans⟩ := exists_flushed hc n fuel hready hframe
    refine ⟨d, hle, hd, hw, fun hok => ⟨hans hok, fun hnone => ?_⟩⟩
    rw [← taken_sorted hle hnone, hans hok]
    simp [Arrival.byPhase]
  drained hout n count w hrun := by
    obtain ⟨d, hle, hd, hw, hans⟩ := Follows.drain (c := c) (lawful_ofDepth n)
    rw [hrun] at hw hans
    obtain rfl : w = d.world := hw
    obtain ⟨-, hframes, htasks⟩ := hans count rfl
    have hpunctual := (hd (settled_outside hc hout)).punctual hc
    have hup := caughtUp hpunctual (by rw [hframes]; exact hout) htasks
    have hnone := (holding d).holds.nil hup.lanes
    refine ⟨d, hle, hpunctual, rfl, ?_⟩
    simpa [hnone] using d.history.jobs_perm

end Course

/-- At every point of every run of a program the jobs of hooks are taken by urgency. -/
theorem jobs_by_urgency (n : Nat) (program : List Expr) :
    (∃ d : Course, d.Of (.ofDepth n) program ∧ d.Punctual) ∧
      ∀ d : Course, d.Of (.ofDepth n) program → d.Punctual → ∀ c ≤ d, c.ByUrgency :=
  ⟨Course.exists_punctual n program, fun _ _ hd _ hle => Course.byUrgency (hd.of_le hle)⟩

/-- A passive job queues an urgent one, which comes before the passive job that has been waiting. -/
theorem jobs_by_urgency_overtaking :
    let program : List Expr := [
      .create "s" (.state (.value (.integer 0))),
      .create "t" (.state (.value (.integer 0))),
      .create "p" (.hook .passive (some [.named "s"])
        (.sequence [.log [.value (.string "passive")], .on "t" "set" (.set (.value (.integer 1))),
          .drain]) none),
      .create "q" (.hook .passive (some [.named "s"]) (.log [.value (.string "also passive")]) none),
      .create "i" (.hook .insertion (some [.named "t"]) (.log [.value (.string "insertion")]) none),
      .drain]
    ∃ d : Course, d.Of (.ofDepth 20) program ∧ d.Punctual ∧
      d.world.log = ["insertion", "passive", "insertion", "also passive"] ∧
      d.history.jobsWaiting = [] ∧ ∀ c ≤ d, c.ByUrgency := by
  intro program
  obtain ⟨⟨d, hd, hpunctual⟩, hall⟩ := jobs_by_urgency 20 program
  have hurgent := hall d hd hpunctual
  refine ⟨d, hd, hpunctual, ?_, (hurgent d (le_refl d)).lanes.nil fun phase => ?_, hurgent⟩
  · rw [← hd.world]
    decide +kernel
  · rw [← hd.world]
    cases phase <;> decide +kernel

end FineGrain
