import FineGrain.Proofs.Hook.Calls
/-!
Batches of writes. After the calls of one task, a drain commits every written state, and then each
live hook whose dependency list reaches a written state runs once: its cleanup and its body, in the
order of the phases, on the final values.
-/

namespace FineGrain

open Act Hook

namespace World

variable {host : Host} {w w₁ u r : World} {h : Nat} {y : HookSlot} {l states : List Nat}

/-- A world in which the effects that waited have queued the jobs of their hooks. -/
structure Unloaded (u r : World) : Prop where
  signals : r.signals = u.signals
  agree : ∀ host host', u.Agree host host' → r.Agree host host'
  hooks : ∀ h, ∃ queued, r.hooks.get? h =
    (u.hooks.get? h).map fun y => { y with queued := queued }
  jobs : ∀ p h, h ∈ r.phases.lane p ↔ h ∈ u.phases.lane p ∨
    ∃ y, u.hooks.get? h = some y ∧ y.disposed = false ∧ y.effect ∈ u.graph.pending ∧ y.phase = p

theorem Orderly.unload (ho : u.Orderly host) (ht : u.tasks = [] ∨ u.tasks = [.flush]) :
    ∃ r k, r.Orderly host ∧ u.Unloaded r ∧ k ≤ 1 ∧ (r.tasks = [] ∨ r.tasks = [.phases]) ∧
      ∀ host' n c, u.run (drainSteps host' (n + k) c) = r.run (drainSteps host' n (c + k)) := by
  rcases ht with ht | ht
  · have hpending : u.graph.pending = [] := by
      have htask := ho.awaited.task
      have hbusy := ho.awaited.busy
      rw [ht] at htask
      cases hf : u.graph.flushQueued <;> simp_all
    exact ⟨u, 0, ho, ⟨rfl, fun _ _ => id, (Heard.refl u).hooks, fun p h => by simp [hpending]⟩,
      by omega, .inl ht, fun _ _ _ => rfl⟩
  · obtain ⟨r, hrun, hh, hor⟩ := ho.flush ht
    refine ⟨r, 1, hor, ⟨?_, fun host host' ha k x body hx => ?_, hh.hooks, hh.jobs⟩,
      by omega, hh.tasks, fun host' n c => ?_⟩
    · rw [hh.rest]
      rfl
    · rw [hh.rest] at hx
      exact ha k x body hx
    · have hrun' := hrun host'
      simp only [beginning] at hrun'
      simp only [drainSteps, run_bind, run_get, ht, run_modify, runTask, hrun']

theorem Orderly.jobs_eq_nil (ho : r.Orderly host) (ht : r.tasks = []) :
    r.phases.flushQueued = false ∧ r.phases.jobs = [] := by
  have htask := ho.staffed.task
  have hbusy := ho.staffed.busy
  rw [ht] at htask
  cases hf : r.phases.flushQueued <;> simp_all

theorem Orderly.finish (ho : r.Orderly host) (ht : r.tasks = [] ∨ r.tasks = [.phases]) :
    ∃ runs final k, JobRuns host (r.beginning []) runs final ∧ final.Orderly host ∧
      final.tasks = [] ∧ (r.beginning []).Ran final r.phases.jobs ∧
      runs.map (·.hook) = r.phases.jobs.filter r.live ∧
      (∀ run ∈ runs, (r.beginning []).Begun run) ∧ k ≤ 1 ∧
      ∀ host', 0 < host'.bound → ∀ n c, r.run (drainSteps host' (n + k) c) =
        (r.beginning []).run (do runJobs host' host'.bound; drainSteps host' n (c + k)) := by
  rcases ht with ht | ht
  · obtain ⟨hflush, hjobs⟩ := ho.jobs_eq_nil ht
    have hbegin : r.beginning [] = r := by
      rw [beginning, ← ht]
    have hflushed : r.flushed = r := by
      rw [flushed, ← hflush]
    rw [hbegin, hjobs]
    have hdone (host' : Host) : JobRuns host' r [] r := by
      have h : JobRuns host' r [] r.flushed := .done hjobs
      rwa [hflushed] at h
    refine ⟨[], r, 0, hdone host, ho, ht, .refl r, by simp, by simp, by omega,
      fun host' hb n c => ?_⟩
    rw [run_bind, run_runJobs (hdone host') (by simpa [hjobs] using hb)]
    rfl
  · obtain ⟨runs, final, hruns, hran, hof, hhooks, _, hbegun⟩ := ho.phases ht
    refine ⟨runs, final, 1, hruns, hof, ?_, hran, hhooks, hbegun, by omega, fun host' _ n c => ?_⟩
    · rw [hran.rest]
      rfl
    · simp only [drainSteps, run_bind, run_get, ht, run_modify, runTask, beginning]

/-- The states that were written have the values that were pending in `w₁`, and nothing is pending
any more. -/
structure Settled (w₁ : World) (written : List Nat) (u : World) : Prop where
  final : ∀ s ∈ written, ∃ x v, w₁.signals.get? s = some x ∧ x.cache = some v ∧ u.committed s = v
  done : ∀ s x, u.signals.get? s = some x → x.dirty = false ∧ x.cache = none

end World

/-- What a drain does after a task that has led from the orderly world `w` to `w₁`. In `ready` the
commits are over and the jobs begin. -/
structure BatchRuns (host : Host) (w w₁ : World) (written : List Nat) (ready : World)
    (runs : List HookRun) (final : World) : Prop where
  /-- Up to `ready`, everything is as under any host that has the same factories. -/
  begun : ∃ n, ∀ host', w.Agree host host' → host'.bound = host.bound →
    w₁.run (drain host') =
      ready.run (do runJobs host' host'.bound; drainSteps host' (host'.bound - n) n)
  drained : ∃ n, w₁.run (drain host) = (.ok n, final)
  jobs : JobRuns host ready runs final
  once : (runs.map (·.hook)).Nodup
  reruns : ∀ h, h ∈ runs.map (·.hook) ↔ ∃ y, w.hooks.get? h = some y ∧ y.disposed = false ∧
    ∃ s ∈ written, w.Reaches y.list s
  cleanups : ∀ run ∈ runs, run.start.cleanup? run.hook = w.cleanup? run.hook
  ordered : runs.Pairwise fun run later => ∀ y y', w.hooks.get? run.hook = some y →
    w.hooks.get? later.hook = some y' → y.phase.rank ≤ y'.phase.rank
  sees : ∀ run ∈ runs, w₁.Settled written run.start ∧ w₁.Settled written run.middle
  quiescent : w₁.Settled written final ∧ final.Orderly host ∧ final.tasks = []

namespace World

variable {host : Host} {w w₁ u r ready final : World} {h : Nat} {y : HookSlot}
  {l states written : List Nat} {runs : List HookRun}

theorem AllCommitted.settled (ha : w₁.AllCommitted u written) (hq : w₁.Queued written) :
    w₁.Settled written u := by
  refine ⟨fun s hs => ?_, fun s x hx => ?_⟩
  · obtain ⟨x, hx, hd⟩ := (hq.dirty s).1 hs
    obtain ⟨v, hv⟩ := Option.isSome_iff_exists.1 ((hq.steady s x hx).pending hd).1
    refine ⟨x, v, hx, hv, ?_⟩
    simp [committed, ha.signals, hs, hx, settledSignal, hv, Signal.released]
  · rw [ha.signals] at hx
    split at hx
    · obtain ⟨z, _, rfl⟩ := Option.map_eq_some_iff.1 hx
      exact ⟨rfl, rfl⟩
    · rename_i hs
      cases hd : x.dirty with
      | false => exact ⟨rfl, (hq.steady s x hx).clean hd⟩
      | true => exact absurd ((hq.dirty s).2 ⟨x, hx, hd⟩) hs

theorem Settled.congr (hs : w₁.Settled written u) (h : r.signals = u.signals) :
    w₁.Settled written r := by
  refine ⟨fun s hm => ?_, fun s x hx => hs.done s x (h ▸ hx)⟩
  obtain ⟨x, v, hx, hv, hc⟩ := hs.final s hm
  exact ⟨x, v, hx, hv, by rw [← hc, committed, committed, h]⟩

theorem Ran.signals (hr : w.Ran r l) : r.signals = w.signals := by
  rw [hr.rest]

theorem Staffed.ordered (hs : r.Staffed) : r.phases.jobs.Pairwise fun h later =>
    ∀ y y', r.hooks.get? h = some y → r.hooks.get? later = some y' →
      y.phase.rank ≤ y'.phase.rank := by
  have hphase {p h y} (hm : h ∈ r.phases.lane p) (hy : r.hooks.get? h = some y) :
      y.phase = p := by
    obtain ⟨y', hy', hp, _⟩ := hs.lanes p h hm
    obtain rfl : y = y' := by simpa [hy] using hy'
    exact hp
  have hlanes {p q : Phase} (hle : p.rank ≤ q.rank) {h later : Nat}
      (hm : h ∈ r.phases.lane p) (hm' : later ∈ r.phases.lane q) :
      ∀ y y', r.hooks.get? h = some y → r.hooks.get? later = some y' →
        y.phase.rank ≤ y'.phase.rank := by
    intro y y' hy hy'
    rw [hphase hm hy, hphase hm' hy']
    exact hle
  have hlane (p : Phase) : (r.phases.lane p).Pairwise fun h later =>
      ∀ y y', r.hooks.get? h = some y → r.hooks.get? later = some y' →
        y.phase.rank ≤ y'.phase.rank :=
    List.Pairwise.imp_of_mem (fun hm hm' _ => hlanes (Nat.le_refl _) hm hm') (hs.nodup p)
  refine List.pairwise_append.2 ⟨hlane .insertion, List.pairwise_append.2 ⟨hlane .layout,
    hlane .passive, fun h hm later hm' => ?_⟩, fun h hm later hm' => ?_⟩
  · exact hlanes (p := .layout) (q := .passive) (by decide) hm hm'
  · rcases List.mem_append.1 hm' with hm' | hm'
    · exact hlanes (p := .insertion) (q := .layout) (by decide) hm hm'
    · exact hlanes (p := .insertion) (q := .passive) (by decide) hm hm'

/-- Only the marks of the hooks have changed. -/
def Marked (w r : World) : Prop := ∀ h, ∃ queued, r.hooks.get? h =
  (w.hooks.get? h).map fun y => { y with queued := queued }

theorem Marked.hook (hm : w.Marked r) (hy : w.hooks.get? h = some y) :
    ∃ queued, r.hooks.get? h = some { y with queued := queued } := by
  obtain ⟨b, hb⟩ := hm h
  exact ⟨b, by rw [hb, hy]; rfl⟩

theorem Marked.cleanup? (hm : w.Marked r) (h : Nat) : r.cleanup? h = w.cleanup? h := by
  obtain ⟨b, hb⟩ := hm h
  rw [World.cleanup?, hb, World.cleanup?]
  cases w.hooks.get? h <;> rfl

theorem Orderly.mem_jobs (ho : w.Orderly host) (ht : w.tasks = []) (hd : w.Drafted w₁ written)
    (ha : w₁.AllCommitted u written) (hun : u.Unloaded r) : h ∈ r.phases.jobs ↔
      ∃ y, w.hooks.get? h = some y ∧ y.disposed = false ∧ ∃ s ∈ written, w.Reaches y.list s := by
  have hhooks : u.hooks = w.hooks := by rw [ha.rest, hd.rest]
  have hphases : u.phases = w.phases := by rw [ha.rest, hd.rest]
  have hgraph : w₁.graph = w.graph := by rw [hd.rest]
  have htiming : w₁.timing? = w.timing? := by
    rw [hd.rest]
    rfl
  have hpending : w.graph.pending = [] := by
    have htask := ho.awaited.task
    have hbusy := ho.awaited.busy
    rw [ht] at htask
    cases hf : w.graph.flushQueued <;> simp_all
  have hempty (p : Phase) : h ∉ u.phases.lane p := by
    intro hm
    have hjobs := PhaseQueue.mem_jobs.2 ⟨p, hm⟩
    rw [hphases, (ho.jobs_eq_nil ht).2] at hjobs
    simp at hjobs
  have hlistens {y : HookSlot} (hy : w.hooks.get? h = some y) (hlive : y.disposed = false) :
      y.effect ∈ u.graph.pending ↔ ∃ s ∈ written, w.Reaches y.list s := by
    have hl : w.Listening y := (ho.listening h y hy hlive).resolve_left (by simp [ht])
    rw [ha.pending, hgraph, hpending, htiming]
    simp [ho.wired.timing hy hlive, hl _]
  rw [PhaseQueue.mem_jobs]
  constructor
  · rintro ⟨p, hm⟩
    rcases (hun.jobs p h).1 hm with hm | ⟨y, hy, hlive, he, _⟩
    · exact absurd hm (hempty p)
    · rw [hhooks] at hy
      exact ⟨y, hy, hlive, (hlistens hy hlive).1 he⟩
  · rintro ⟨y, hy, hlive, hs⟩
    exact ⟨y.phase, (hun.jobs y.phase h).2
      (.inr ⟨y, hhooks ▸ hy, hlive, (hlistens hy hlive).2 hs, rfl⟩)⟩

theorem Orderly.queued_written (ho : w₁.Orderly host) (ht : w₁.tasks = written.map .commit) :
    w₁.Queued written := by
  have hq := ho.queued
  rw [ht, List.filterMap_map] at hq
  have hsome : written.filterMap (Task.commit? ∘ .commit) = written := List.filterMap_some
  rwa [hsome] at hq

theorem Staffed.length_jobs_le (hs : r.Staffed) (hm : w.Marked r) :
    r.phases.jobs.length ≤ w.hooks.entries.length := by
  have hkeys : (w.hooks.entries.map (·.1)).length = w.hooks.entries.length := List.length_map _
  rw [← hkeys]
  refine hs.nodup_jobs.length_le_of_subset fun h hjob => ?_
  obtain ⟨p, hlane⟩ := PhaseQueue.mem_jobs.1 hjob
  obtain ⟨z, hz, -⟩ := hs.lanes p h hlane
  obtain ⟨b, hb⟩ := hm h
  obtain ⟨y, hy, -⟩ := Option.map_eq_some_iff.1 (hb.symm.trans hz)
  exact List.mem_map.2 ⟨_, Store.mem_of_get? hy, rfl⟩

theorem Marked.ordered (hm : w.Marked r) (hs : r.Staffed)
    (hruns : runs.map (·.hook) = r.phases.jobs) : runs.Pairwise fun run later =>
      ∀ y y', w.hooks.get? run.hook = some y → w.hooks.get? later.hook = some y' →
        y.phase.rank ≤ y'.phase.rank := by
  have hpairwise := hs.ordered
  rw [← hruns, List.pairwise_map] at hpairwise
  refine hpairwise.imp fun hle y y' hy hy' => ?_
  obtain ⟨b, hb⟩ := hm.hook hy
  obtain ⟨b', hb'⟩ := hm.hook hy'
  have hranks := hle _ _ hb hb'
  exact hranks

/-- The three stages of a drain are put together: the commits, the flush and the jobs. -/
theorem run_drain_stages {host' : Host} {n k k' : Nat} (hbound : n + k + k' < host'.bound)
    (hcommits : ∀ m c, w₁.run (drainSteps host' (m + n) c) = u.run (drainSteps host' m (c + n)))
    (hunload : ∀ m c, u.run (drainSteps host' (m + k) c) = r.run (drainSteps host' m (c + k)))
    (hfinish : ∀ m c, r.run (drainSteps host' (m + k') c) =
      (r.beginning []).run (do runJobs host' host'.bound; drainSteps host' m (c + k'))) :
    w₁.run (drain host') = (r.beginning []).run (do
      runJobs host' host'.bound
      drainSteps host' (host'.bound - (n + k + k')) (n + k + k')) := by
  obtain ⟨m, hm⟩ : ∃ m, host'.bound = m + k' + k + n := ⟨host'.bound - (n + k + k'), by omega⟩
  have hsub : host'.bound - (n + k + k') = m := by omega
  have hstart : w₁.run (drain host') = w₁.run (drainSteps host' (m + k' + k + n) 0) := by
    rw [drain, hm]
  rw [hstart, hcommits, hunload, hfinish, hsub, Nat.zero_add]

theorem run_jobs_last {n c : Nat} (hruns : JobRuns host ready runs final) (htasks : final.tasks = [])
    (hjobs : ready.phases.jobs.length < host.bound) (hn : 0 < n) :
    ready.run (do runJobs host host.bound; drainSteps host n c) = (.ok c, final) := by
  obtain ⟨m, rfl⟩ := Nat.exists_eq_add_of_lt hn
  rw [run_bind, run_runJobs hruns hjobs]
  simp [drainSteps, run_bind, htasks]

theorem Orderly.batch (ho : w.Orderly host) (ht : w.tasks = []) (hd : w.Drafted w₁ written)
    (hbound : written.length + w.hooks.entries.length + 3 ≤ host.bound) :
    ∃ ready runs final, BatchRuns host w w₁ written ready runs final := by
  have ho₁ := ho.drafted hd
  have ht₁ : w₁.tasks = written.map .commit := by
    rw [hd.rest, ht]
    rfl
  -- The commits run first and in order, then the flush that they have asked for, and then the jobs
  -- by phase.
  obtain ⟨u, hou, ha, htu, hdrain⟩ := ho₁.commits (ht₁.trans (List.append_nil _).symm)
  obtain ⟨r, k, hor, hun, hk, htr, hdrain'⟩ := hou.unload (by simpa using htu)
  obtain ⟨runs, final, k', hruns, hof, htf, hran, hhooks, hbegun, hk', hdrain''⟩ :=
    hor.finish htr
  have hmem {h : Nat} := ho.mem_jobs (h := h) ht hd ha hun
  have hmarked : w.Marked r := by
    have h : u.hooks = w.hooks := by rw [ha.rest, hd.rest]
    exact fun k => h ▸ hun.hooks k
  have hlive : r.phases.jobs.filter r.live = r.phases.jobs := by
    rw [List.filter_eq_self]
    intro h hm
    obtain ⟨y, hy, hl, _⟩ := hmem.1 hm
    obtain ⟨b, hb⟩ := hmarked.hook hy
    exact live_iff.2 ⟨_, hb, hl⟩
  rw [hlive] at hhooks
  have hlength := hor.staffed.length_jobs_le hmarked
  have hsettled := (ha.settled (ho₁.queued_written ht₁)).congr hun.signals
  have hsteps (host' : Host) (hagree : w.Agree host host') (hb : host'.bound = host.bound) :
      w₁.run (drain host') = (r.beginning []).run (do
        runJobs host' host'.bound
        drainSteps host' (host'.bound - (written.length + k + k')) (written.length + k + k')) := by
    have hagree₁ : w₁.Agree host host' := by
      rw [hd.rest]
      exact hagree
    exact run_drain_stages (by omega) (hdrain host' hagree₁) (hdrain' host')
      (hdrain'' host' (by omega))
  refine ⟨r.beginning [], runs, final,
    { begun := ⟨_, hsteps⟩
      drained := ⟨written.length + k + k', ?_⟩
      jobs := hruns
      once := hhooks ▸ hor.staffed.nodup_jobs
      reruns := fun h => hhooks ▸ hmem
      cleanups := fun run hm => (hbegun run hm).cleanup.trans (hmarked.cleanup? run.hook)
      ordered := hmarked.ordered hor.staffed hhooks
      sees := fun run hm => ?_
      quiescent := ⟨hsettled.congr hran.signals, hof, htf⟩ }⟩
  · have hjobs : r.phases.jobs.length < host.bound := by omega
    rw [hsteps host (fun _ _ _ _ _ => rfl) rfl]
    exact run_jobs_last hruns htf hjobs (by omega)
  · obtain ⟨⟨l₁, h₁⟩, ⟨l₂, h₂⟩, _⟩ := hbegun run hm
    exact ⟨hsettled.congr h₁.signals, hsettled.congr h₂.signals⟩

end World

end FineGrain
