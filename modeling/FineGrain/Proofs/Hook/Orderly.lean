import FineGrain.Proofs.Hook.Committing
import FineGrain.Proofs.Hook.Jobs
/-!
Between tasks a system of states, memos and hooks is orderly: every live hook is subscribed to what
its dependency list reaches, or its first run is queued, and the queues agree with their flags. Each
task ends and keeps the system orderly.
-/

namespace FineGrain

open Act Hook

namespace World

def Queues (w : World) : Task → Prop
  | .firstRun e => ∀ x, w.effects.get? e = some x → x.timing = .deferred
  | .body _ => False
  | _ => True

/-- A hook is subscribed to the states that its dependency list reaches. -/
def Listening (w : World) (y : HookSlot) : Prop :=
  ∀ s, y.effect ∈ w.graph.subscribers s ↔ w.Reaches y.list s

/-- The invariant of a system of states, memos and hooks. -/
structure Orderly (host : Host) (w : World) : Prop where
  idle : w.Idle
  quiet : w.Quiet host
  wired : w.Wired
  staffed : w.Staffed
  awaited : w.Awaited
  queued : w.Queued (w.tasks.filterMap Task.commit?)
  tasks : ∀ t ∈ w.tasks, w.Queues t
  listening : ∀ h y, w.hooks.get? h = some y → y.disposed = false →
    .firstRun y.effect ∈ w.tasks ∨ w.Listening y

variable {host : Host} {w w' : World} {s h : Nat} {v : Value} {x : Signal} {y : HookSlot}
  {l : List Nat} {e : NodeId} {rest : List Task}

theorem Queues.congr {t : Task} (h : w.Queues t) (he : w'.effects = w.effects) :
    w'.Queues t := by
  cases t with
  | firstRun e => exact fun x hx => h x (he ▸ hx)
  | body c => exact h
  | _ => trivial

theorem Listening.congr {y' : HookSlot} (hl : w.Listening y) (hd : w'.declared = w.declared)
    (heffect : y'.effect = y.effect) (hlist : y'.list = y.list)
    (hg : ∀ s, y.effect ∈ w'.graph.subscribers s ↔ y.effect ∈ w.graph.subscribers s) :
    w'.Listening y' := by
  intro s
  rw [heffect, hlist, hg, hl]
  exact ⟨.congr hd, .congr hd.symm⟩

/-- The world in which the first task has been taken from the queue. -/
def beginning (w : World) (rest : List Task) : World := { w with tasks := rest }

theorem Orderly.idle_rest (ho : w.Orderly host) (rest : List Task) : (w.beginning rest).Idle :=
  ⟨ho.idle.calm, ho.idle.probes, ho.idle.sound, ho.idle.rest, ho.idle.observers⟩

theorem Orderly.quiet_rest (ho : w.Orderly host) (rest : List Task) :
    (w.beginning rest).Quiet host :=
  ⟨ho.quiet.factories, ho.quiet.bodies, ho.quiet.cleanups⟩

theorem Orderly.wired_rest (ho : w.Orderly host) (rest : List Task) :
    (w.beginning rest).Wired :=
  ⟨ho.wired.readers, ho.wired.running, ho.wired.cleanup, ho.wired.effects, ho.wired.hooks⟩

variable {t : Task}

theorem Orderly.staffed_rest (ho : w.Orderly host) (ht : w.tasks = t :: rest)
    (hp : t.isPhases = false) : (w.beginning rest).Staffed := by
  refine ⟨ho.staffed.lanes, ho.staffed.queued, ho.staffed.nodup, ho.staffed.busy, ?_⟩
  have htask := ho.staffed.task
  rw [ht, List.countP_cons_of_neg (by simp [hp])] at htask
  exact htask

theorem Orderly.awaited_rest (ho : w.Orderly host) (ht : w.tasks = t :: rest)
    (hf : t.isFlush = false) : (w.beginning rest).Awaited := by
  refine ⟨ho.awaited.busy, ?_, ho.awaited.deferred⟩
  have htask := ho.awaited.task
  rw [ht, List.countP_cons_of_neg (by simp [hf])] at htask
  exact htask

theorem Orderly.queued_rest (ho : w.Orderly host) (ht : w.tasks = t :: rest)
    (hc : t.commit? = none) : (w.beginning rest).Queued (rest.filterMap Task.commit?) := by
  have hq := ho.queued
  rw [ht, List.filterMap_cons_none hc] at hq
  exact ⟨hq.nodup, hq.dirty, hq.steady⟩

theorem Orderly.listening_rest (ho : w.Orderly host) (ht : w.tasks = t :: rest)
    (hy : w.hooks.get? h = some y) (hlive : y.disposed = false) :
    t = .firstRun y.effect ∨ .firstRun y.effect ∈ rest ∨ w.Listening y := by
  rcases ho.listening h y hy hlive with hm | hl
  · rw [ht] at hm
    rcases List.mem_cons.1 hm with rfl | hm
    · exact .inl rfl
    · exact .inr (.inl hm)
  · exact .inr (.inr hl)

theorem Orderly.commit (ho : w.Orderly host) (ht : w.tasks = .commit s :: rest) :
    ∃ x v w', w.signals.get? s = some x ∧ x.cache = some v ∧
      (∀ host', w.Agree host host' →
        (w.beginning rest).run (commit host' s) = (.ok ⟨⟩, w')) ∧
      (w.beginning rest).Committed w' s x v ∧ w'.Orderly host := by
  have hqueued : (w.beginning rest).Queued (s :: rest.filterMap Task.commit?) := by
    have hqueued := ho.queued
    rw [ht] at hqueued
    exact ⟨hqueued.nodup, hqueued.dirty, hqueued.steady⟩
  obtain ⟨x, v, w', hx, hv, hrun, hc⟩ :=
    hqueued.run_committed (ho.idle_rest rest) (ho.quiet_rest rest) (ho.wired_rest rest)
  have hqueued' := hc.queued hx hqueued
  have heffects : w'.effects = w.effects := by
    rw [hc.rest]
    rfl
  -- The commit takes its own task away and queues at most a flush, so that the commits still queued
  -- are those of the rest.
  have hcommits : w'.tasks.filterMap Task.commit? = rest.filterMap Task.commit? := by
    rcases hc.tasks with h | h <;> simp [h, Task.commit?, beginning]
  have hmem : ∀ t ∈ rest, t ∈ w'.tasks := by
    intro t hm
    rcases hc.tasks with h | h <;> simp [h, beginning, hm]
  refine ⟨x, v, w', hx, hv, hrun, hc, hc.idle (ho.idle_rest rest) hqueued'.calm,
    hc.quiet (ho.quiet_rest rest), hc.wired (ho.wired_rest rest),
    hc.staffed (ho.staffed_rest ht rfl), hc.awaited (ho.awaited_rest ht rfl),
    hcommits ▸ hqueued', fun t hm => ?_, fun h y hy hlive => ?_⟩
  · have hm' : t ∈ rest ∨ t = .flush := by
      rcases hc.tasks with h | h <;> simp_all [beginning]
    rcases hm' with hm | rfl
    · exact (ho.tasks t (by simp [ht, hm])).congr heffects
    · trivial
  · have hy' : w.hooks.get? h = some y := by
      rw [hc.rest] at hy
      exact hy
    rcases ho.listening_rest ht hy' hlive with hfirst | hm | hl
    · cases hfirst
    · exact .inl (hmem _ hm)
    · have hl' : (w.beginning rest).Listening y := hl.congr rfl rfl rfl fun _ => Iff.rfl
      have hdeferred : (w.beginning rest).timing? y.effect = some .deferred :=
        ho.wired.timing hy' hlive
      exact .inr (hl'.congr hc.declared rfl rfl fun t => hc.edges hdeferred t)

section Hearing

variable {u : World}

theorem Heard.commits (hh : u.Heard w' l) :
    w'.tasks.filterMap Task.commit? = u.tasks.filterMap Task.commit? := by
  rcases hh.tasks with h | h <;> simp [h, Task.commit?]

theorem Heard.mem_tasks (hh : u.Heard w' l) (ht : t ∈ u.tasks) : t ∈ w'.tasks := by
  rcases hh.tasks with h | h <;> simp [h, ht]

theorem Heard.of_mem_tasks (hh : u.Heard w' l) (ht : t ∈ w'.tasks) : t ∈ u.tasks ∨ t = .phases := by
  rcases hh.tasks with h | h <;> rw [h] at ht
  · exact .inl ht
  · simpa using ht

theorem Heard.awaited (hh : u.Heard w' l) (ha : u.Awaited) : w'.Awaited := by
  refine ⟨?_, ?_, fun e he x hx => ?_⟩
  · rw [hh.pending, hh.flushQueued]
    exact ha.busy
  · have htask := ha.task
    rw [hh.flushQueued]
    rcases hh.tasks with h | h
    · rw [h, htask]
    · rw [h, List.countP_append, htask]
      rfl
  · rw [hh.pending] at he
    rw [hh.rest] at hx
    exact ha.deferred e he x hx

theorem Heard.queued (hh : u.Heard w' l) (hq : u.Queued (u.tasks.filterMap Task.commit?)) :
    w'.Queued (w'.tasks.filterMap Task.commit?) := by
  have hsignals : w'.signals = u.signals := by rw [hh.rest]
  rw [hh.commits]
  exact ⟨hq.nodup, hsignals ▸ hq.dirty, hsignals ▸ hq.steady⟩

theorem Heard.queues (hh : u.Heard w' l) (hq : ∀ t ∈ u.tasks, u.Queues t) :
    ∀ t ∈ w'.tasks, w'.Queues t := by
  intro t ht
  rcases hh.of_mem_tasks ht with ht | rfl
  · exact (hq t ht).congr (by rw [hh.rest])
  · trivial

theorem Heard.listening (hh : u.Heard w' l) {z : HookSlot} (hz : w'.hooks.get? h = some z)
    (hlive : z.disposed = false) (hl : ∀ y, u.hooks.get? h = some y → y.disposed = false →
      y.effect ∉ l → .firstRun y.effect ∈ u.tasks ∨ u.Listening y) :
    .firstRun z.effect ∈ w'.tasks ∨ w'.Listening z := by
  obtain ⟨y, hy, b, rfl⟩ := hh.hook_of hz
  by_cases hm : y.effect ∈ l
  · refine .inr fun s => ?_
    rw [hh.heard h y hy hlive hm]
    exact ⟨.congr hh.declared, .congr hh.declared.symm⟩
  · exact (hl y hy hlive hm).imp hh.mem_tasks fun hl => hl.congr hh.declared rfl rfl (hh.others _ hm)

theorem Orderly.hear (ho : w.Orderly host) (ht : w.tasks = t :: rest)
    (hu : u = { w.beginning rest with graph := u.graph }) (hi : u.Idle) (hs : u.Staffed)
    (ha : u.Awaited) (hnodes : u.graph.nodes = w.graph.nodes) (hc : t.commit? = none)
    (hfirst : ∀ e, t = .firstRun e → e ∈ l)
    (hl : ∀ e ∈ l, ∀ x, w.effects.get? e = some x → x.timing = .deferred) :
    ∃ w', (∀ host, u.run (runEffects host l) = (.ok ⟨⟩, w')) ∧ u.Heard w' l ∧
      w'.Orderly host := by
  have hq : u.Quiet host := by
    obtain ⟨hfactories, hbodies, hcleanups⟩ := ho.quiet_rest rest
    rw [hu]
    exact ⟨hfactories, hbodies, hcleanups⟩
  have hw : u.Wired := by
    obtain ⟨hreaders, hrunning, hcleanup, heffects, hhooks⟩ := ho.wired_rest rest
    rw [hu]
    exact ⟨hreaders, hrunning, hcleanup, heffects, hhooks⟩
  have hqueued : u.Queued (u.tasks.filterMap Task.commit?) := by
    obtain ⟨hnodup, hdirty, hsteady⟩ := ho.queued_rest ht hc
    rw [hu]
    exact ⟨hnodup, hdirty, hsteady⟩
  have heffects : u.effects = w.effects := by
    rw [hu]
    rfl
  have htasks : u.tasks = rest := by
    rw [hu]
    rfl
  have hqueues : ∀ t ∈ u.tasks, u.Queues t := by
    intro t hm
    have hm' : t ∈ w.tasks := by
      rw [ht]
      exact List.mem_cons_of_mem _ (htasks ▸ hm)
    exact (ho.tasks t hm').congr heffects
  obtain ⟨w', hrun, hh, hs'⟩ := run_hears hi hw hs (l := l) (heffects ▸ hl)
  refine ⟨w', hrun, hh, hh.idle hi, hh.quiet hq, hh.wired hw, hs', hh.awaited ha, hh.queued hqueued,
    hh.queues hqueues, fun h z hz hlive => hh.listening hz hlive fun y hy hylive hm => ?_⟩
  have hy' : w.hooks.get? h = some y := by
    rw [hu] at hy
    exact hy
  -- A hook outside of `l` keeps waiting for its first run, or keeps its edges.
  rcases ho.listening_rest ht hy' hylive with hf | hf | hlisten
  · exact absurd (hfirst _ hf) hm
  · exact .inl (htasks ▸ hf)
  · refine .inr (hlisten.congr ?_ rfl rfl fun s => ?_)
    · rw [hu]
      funext d
      cases d <;> rfl
    · rw [Graph.subscribers, hnodes, ← Graph.subscribers]

end Hearing

/-- The world in which a flush has taken the effects that wait. -/
def unloading (w : World) : World := { w with graph := w.graph.takePending.2 }

theorem run_flush : w.run (flush host) = w.unloading.run (runEffects host w.graph.pending) := by
  simp [flush, run_bind, unloading, Graph.takePending]

theorem Orderly.flush (ho : w.Orderly host) (ht : w.tasks = .flush :: rest) :
    ∃ w', (∀ host, (w.beginning rest).run (Act.flush host) = (.ok ⟨⟩, w')) ∧
      (w.beginning rest).unloading.Heard w' w.graph.pending ∧ w'.Orderly host := by
  have hi := ho.idle_rest rest
  have hs := ho.staffed_rest ht rfl
  have hcount : rest.countP Task.isFlush = 0 := by
    have htask := ho.awaited.task
    rw [ht, List.countP_cons_of_pos rfl] at htask
    split at htask <;> omega
  obtain ⟨w', hrun, hh, ho'⟩ := ho.hear (u := (w.beginning rest).unloading)
    (l := w.graph.pending) ht rfl
    ⟨hi.calm, hi.probes, hi.sound.congr rfl, hi.rest, hi.observers⟩
    ⟨hs.lanes, hs.queued, hs.nodup, hs.busy, hs.task⟩
    ⟨fun h => absurd rfl h, hcount, fun e he => by simp [unloading, Graph.takePending] at he⟩
    rfl rfl (fun e he => by cases he) ho.awaited.deferred
  exact ⟨w', fun host => run_flush.trans (hrun host), hh, ho'⟩

theorem Orderly.firstRun (ho : w.Orderly host) (ht : w.tasks = .firstRun e :: rest) :
    ∃ w', (∀ host, (w.beginning rest).run (runEffect host e) = (.ok ⟨⟩, w')) ∧
      (w.beginning rest).Heard w' [e] ∧ w'.Orderly host := by
  have hq := ho.tasks (.firstRun e) (by simp [ht])
  obtain ⟨w', hrun, hh, ho'⟩ := ho.hear (u := w.beginning rest) (l := [e]) ht rfl
    (ho.idle_rest rest) (ho.staffed_rest ht rfl) (ho.awaited_rest ht rfl) rfl rfl
    (fun e' he => by cases he; simp) (fun e' he => by
      obtain rfl : e' = e := by simpa using he
      exact hq)
  have hsingle (host : Host) : runEffects host [e] = runEffect host e := by simp [runEffects]
  exact ⟨w', fun host => hsingle host ▸ hrun host, hh, ho'⟩

theorem Staffed.nodup_jobs (hs : w.Staffed) : w.phases.jobs.Nodup := by
  have hdisjoint {p q : Phase} {k : Nat} (hk : k ∈ w.phases.lane p)
      (hk' : k ∈ w.phases.lane q) : p = q := by
    obtain ⟨y, hy, hp, _⟩ := hs.lanes p k hk
    obtain ⟨y', hy', hp', _⟩ := hs.lanes q k hk'
    obtain rfl : y = y' := by simpa [hy] using hy'
    exact hp.symm.trans hp'
  refine List.nodup_append.2 ⟨hs.nodup .insertion, List.nodup_append.2 ⟨hs.nodup .layout,
    hs.nodup .passive, ?_⟩, ?_⟩
  · rintro a ha _ hb rfl
    exact Phase.noConfusion (hdisjoint (p := .layout) (q := .passive) ha hb)
  · rintro a ha _ hb rfl
    rcases List.mem_append.1 hb with hb | hb
    · exact Phase.noConfusion (hdisjoint (p := .insertion) (q := .layout) ha hb)
    · exact Phase.noConfusion (hdisjoint (p := .insertion) (q := .passive) ha hb)

theorem Ran.unqueued {z : HookSlot} (hr : w.Ran w' w.phases.jobs)
    (hqueued : ∀ h y, w.hooks.get? h = some y → y.queued = true → h ∈ w.phases.lane y.phase)
    (hz : w'.hooks.get? h = some z) : z.queued = false := by
  obtain ⟨y, b, c, hy, -⟩ := hr.hook_of hz
  by_cases hm : h ∈ w.phases.jobs
  · obtain ⟨c', hc', -⟩ := hr.ran h y hm hy
    obtain rfl := Option.some.inj (hc'.symm.trans hz)
    rfl
  · obtain rfl := Option.some.inj (hy.symm.trans ((hr.others h hm).symm.trans hz))
    cases hq : y.queued with
    | false => rfl
    | true => exact absurd (PhaseQueue.mem_jobs.2 ⟨_, hqueued h y hy hq⟩) hm

theorem Staffed.of_unqueued (hmarks : ∀ h y, w.hooks.get? h = some y → y.queued = false)
    (hdone : w.phases.jobs = []) (hflush : w.phases.flushQueued = false)
    (htask : w.tasks.countP Task.isPhases = 0) : w.Staffed := by
  have hlane (p : Phase) : w.phases.lane p = [] := by
    refine List.eq_nil_iff_forall_not_mem.2 fun k hk => ?_
    have hm := PhaseQueue.mem_jobs.2 ⟨p, hk⟩
    simp [hdone] at hm
  refine ⟨fun p k hk => ?_, fun k z hz hq => ?_, fun p => ?_, fun hne => absurd hdone hne, ?_⟩
  · simp [hlane] at hk
  · simp [hmarks k z hz] at hq
  · simp [hlane]
  · simp [hflush, htask]

theorem Orderly.phases (ho : w.Orderly host) (ht : w.tasks = .phases :: rest) :
    ∃ runs w', JobRuns host (w.beginning rest) runs w' ∧
      (w.beginning rest).Ran w' w.phases.jobs ∧ w'.Orderly host ∧
      runs.map (·.hook) = w.phases.jobs.filter w.live ∧ w'.phases.jobs = [] ∧
      ∀ r ∈ runs, (w.beginning rest).Begun r := by
  obtain ⟨runs, w', hruns, hran, hdone, hflush, hhooks, hbegun⟩ :=
    run_jobs (ho.idle_rest rest) (ho.quiet_rest rest) (ho.wired_rest rest) ho.staffed.nodup_jobs
  have htasks : w'.tasks = rest := by
    rw [hran.rest]
    rfl
  have heffects : w'.effects = w.effects := by
    rw [hran.rest]
    rfl
  -- There was one flush of the phases in the queue, and it has just been taken.
  have hcount : rest.countP Task.isPhases = 0 := by
    have htask := ho.staffed.task
    rw [ht, List.countP_cons_of_pos rfl] at htask
    split at htask <;> omega
  have hstaffed : w'.Staffed := .of_unqueued (fun k z hz => hran.unqueued ho.staffed.queued hz) hdone
    hflush (htasks ▸ hcount)
  have hawaited : w'.Awaited := by
    have ha := ho.awaited_rest ht rfl
    rw [hran.rest]
    exact ⟨ha.busy, ha.task, ha.deferred⟩
  have hqueued : w'.Queued (w'.tasks.filterMap Task.commit?) := by
    have hq := ho.queued_rest ht rfl
    rw [hran.rest]
    exact ⟨hq.nodup, hq.dirty, hq.steady⟩
  refine ⟨runs, w', hruns, hran, ⟨hran.idle (ho.idle_rest rest), hran.quiet (ho.quiet_rest rest),
    hran.wired (ho.wired_rest rest), hstaffed, hawaited, hqueued, fun t hm => ?_,
    fun h y' hy' hlive => ?_⟩, hhooks, hdone, hbegun⟩
  · rw [htasks] at hm
    exact (ho.tasks t (by simp [ht, hm])).congr heffects
  · obtain ⟨y, b, c, hy, rfl, _⟩ := hran.hook_of hy'
    have hy₀ : w.hooks.get? h = some y := hy
    rcases ho.listening_rest ht hy₀ hlive with hf | hf | hl
    · cases hf
    · exact .inl (htasks ▸ hf)
    · have hdeclared : w'.declared = w.declared := by
        rw [hran.rest]
        funext d
        cases d <;> rfl
      refine .inr (hl.congr hdeclared rfl rfl fun s => ?_)
      rw [hran.rest]
      rfl

end World

end FineGrain
