import FineGrain.Proofs.Hook.Orderly
import FineGrain.Proofs.Memo.Upkeep
/-!
What a system has: numbers are taken in order, and every dependency list names what is there. A change
that leaves hooks, effects and queues alone keeps a system orderly.
-/

namespace FineGrain

open Act Hook

namespace World

/-- A wrapper that is there, or a plain value. -/
def There (w : World) : Dependency → Prop
  | .plain _ => True
  | .state s => (w.signals.get? s).isSome
  | .memo k => (w.memos.get? k).isSome
  | .probe _ => False

structure Stocked (w : World) : Prop where
  unused : ∀ k, w.next ≤ k → w.signals.get? k = none ∧ w.memos.get? k = none ∧
    w.effects.get? k = none ∧ w.hooks.get? k = none
  memos : ∀ k x, w.memos.get? k = some x → ∀ d ∈ x.dependencies, w.There d
  hooks : ∀ h y, w.hooks.get? h = some y → ∀ d ∈ y.list, w.There d
  pending : ∀ e ∈ w.graph.pending, e < w.next
  firstRuns : ∀ e, .firstRun e ∈ w.tasks → e < w.next
  apart : ∀ e, (w.effects.get? e).isSome → w.signals.get? e = none

variable {host : Host} {w w' : World} {s h : Nat} {v : Value} {x : Signal} {y : HookSlot}
  {l : List Nat} {e : NodeId} {rest : List Task}

theorem Stocked.lt_next (hs : w.Stocked) (he : (w.effects.get? e).isSome) : e < w.next := by
  refine Nat.lt_of_not_le fun hle => ?_
  simp [(hs.unused e hle).2.2.1] at he

theorem Stocked.empty : Stocked .empty where
  unused := fun _ _ => ⟨rfl, rfl, rfl, rfl⟩
  memos := fun _ _ h => by simp [World.empty, Store.get?, Store.empty, Store.lookup] at h
  hooks := fun _ _ h => by simp [World.empty, Store.get?, Store.empty, Store.lookup] at h
  pending := fun _ h => by simp [World.empty, Graph.empty] at h
  firstRuns := fun _ h => by simp [World.empty] at h
  apart := fun _ _ => rfl

theorem There.mono {d : Dependency} (hd : w.There d)
    (hs : ∀ s, (w.signals.get? s).isSome → (w'.signals.get? s).isSome)
    (hm : ∀ k, (w.memos.get? k).isSome → (w'.memos.get? k).isSome) : w'.There d := by
  cases d with
  | plain v => trivial
  | state s => exact hs s hd
  | memo k => exact hm k hd
  | probe p => exact hd

theorem Stocked.declared {k : Nat} (hs : w.Stocked) : ∀ d ∈ w.declared (.memo k), w.There d := by
  cases hk : w.memos.get? k with
  | none => simp [World.declared, hk]
  | some z => simpa [World.declared, hk] using hs.memos k z hk

theorem Stocked.isSome_of_reaches {ds : List Dependency} (hs : w.Stocked)
    (hds : ∀ d ∈ ds, w.There d) (hr : w.Reaches ds s) : (w.signals.get? s).isSome := by
  induction hr with
  | state hm => exact hds _ hm
  | memo _ _ ih => exact ih hs.declared

/-- A world that has what `w` has, and perhaps more states. -/
structure Retained (w w' : World) : Prop where
  next : w.next ≤ w'.next
  present : ∀ s, (w.signals.get? s).isSome → (w'.signals.get? s).isSome
  absent : ∀ s, s < w.next ∨ w'.next ≤ s → w.signals.get? s = none → w'.signals.get? s = none
  memos : ∀ k, ∃ cache bound owners, w'.memos.get? k =
    (w.memos.get? k).map fun x => { x with cache := cache, bound := bound, owners := owners }
  effects : ∀ e, w.effects.get? e = none → w'.effects.get? e = none
  hooks : ∀ h y', w'.hooks.get? h = some y' →
    ∃ y, w.hooks.get? h = some y ∧ y'.dependencies = y.dependencies

theorem Retained.memo {k : Nat} {z' : Memo} (hr : w.Retained w')
    (hz' : w'.memos.get? k = some z') :
    ∃ z, w.memos.get? k = some z ∧ z'.factory = z.factory ∧ z'.readers = z.readers ∧
      z'.dependencies = z.dependencies := by
  obtain ⟨cache, bound, owners, hk⟩ := hr.memos k
  rw [hz'] at hk
  obtain ⟨z, hz, rfl⟩ := Option.map_eq_some_iff.1 hk.symm
  exact ⟨z, hz, rfl, rfl, rfl⟩

theorem Retained.there {d : Dependency} (hr : w.Retained w') (hd : w.There d) : w'.There d := by
  refine hd.mono hr.present fun k hk => ?_
  obtain ⟨_, _, _, hk'⟩ := hr.memos k
  rw [hk', Option.isSome_map]
  exact hk

theorem Retained.declared (hr : w.Retained w') (hp : w'.probes = w.probes) :
    w'.declared = w.declared := by
  funext d
  cases d with
  | memo k =>
    obtain ⟨_, _, _, hk⟩ := hr.memos k
    simp only [World.declared, hk]
    cases w.memos.get? k <;> rfl
  | probe p => simp only [World.declared, hp]
  | _ => rfl

theorem Stocked.retained (hs : w.Stocked) (hr : w.Retained w')
    (hpending : ∀ e ∈ w'.graph.pending, e < w'.next)
    (hfirst : ∀ e, .firstRun e ∈ w'.tasks → e < w'.next) : w'.Stocked where
  unused := fun k hk => by
    obtain ⟨hsignal, hmemo, heffect, hhook⟩ := hs.unused k (Nat.le_trans hr.next hk)
    refine ⟨hr.absent k (.inr hk) hsignal, ?_, hr.effects k heffect, ?_⟩
    · obtain ⟨_, _, _, hk'⟩ := hr.memos k
      rw [hk', hmemo]
      rfl
    · refine Option.eq_none_iff_forall_ne_some.2 fun y' hy' => ?_
      obtain ⟨y, hy, _⟩ := hr.hooks k y' hy'
      simp [hhook] at hy
  memos := fun k z' hz' d hd => by
    obtain ⟨z, hz, _, _, hdependencies⟩ := hr.memo hz'
    exact hr.there (hs.memos k z hz d (hdependencies ▸ hd))
  hooks := fun h y' hy' d hd => by
    obtain ⟨y, hy, hdependencies⟩ := hr.hooks h y' hy'
    rw [HookSlot.list, hdependencies] at hd
    exact hr.there (hs.hooks h y hy d hd)
  pending := hpending
  firstRuns := hfirst
  apart := fun e he => by
    have he' : (w.effects.get? e).isSome := by
      rw [Option.isSome_iff_ne_none] at he ⊢
      exact mt (hr.effects e) he
    exact hr.absent e (.inl (hs.lt_next he')) (hs.apart e he')

/-- A world with other states, memos, names and records, in which hooks, effects and queues are what
they were. -/
structure Upheld (w w' : World) : Prop extends Retained w w' where
  rest : w' = { w with
    log := w'.log
    refs := w'.refs
    graph := w'.graph
    memos := w'.memos
    signals := w'.signals
    dispatchers := w'.dispatchers
    providers := w'.providers
    names := w'.names
    handles := w'.handles
    next := w'.next }
  queued : ∀ l, w.Queued l → w'.Queued l
  observers : w'.graph.observers = w.graph.observers
  pending : w'.graph.pending = w.graph.pending
  flushQueued : w'.graph.flushQueued = w.graph.flushQueued
  sound : w.graph.Sound → w'.graph.Sound
  edges : ∀ e, w.timing? e = some .deferred → ∀ s, e ∈ w'.graph.subscribers s ↔
    e ∈ w.graph.subscribers s

section Upholding

variable (hu : w.Upheld w')

include hu

theorem Upheld.hooks_eq : w'.hooks = w.hooks := by rw [hu.rest]

theorem Upheld.effects_eq : w'.effects = w.effects := by rw [hu.rest]

theorem Upheld.tasks_eq : w'.tasks = w.tasks := by rw [hu.rest]

theorem Upheld.phases_eq : w'.phases = w.phases := by rw [hu.rest]

theorem Upheld.probes_eq : w'.probes = w.probes := by rw [hu.rest]

theorem Upheld.idle (hi : w.Idle) (hcalm : w'.Calm) : w'.Idle := by
  refine ⟨hcalm, hu.probes_eq.trans hi.probes, hu.sound hi.sound, ?_,
    hu.observers.trans hi.observers⟩
  rw [AtRest, hu.effects_eq]
  exact hi.rest

theorem Upheld.wired (hw : w.Wired) : w'.Wired := by
  refine ⟨fun k z' hz' => ?_, ?_, ?_, ?_, ?_⟩
  · obtain ⟨z, hz, _, hreaders, _⟩ := hu.memo hz'
    exact hreaders.trans (hw.readers k z hz)
  · rw [hu.hooks_eq]
    exact hw.running
  · rw [hu.hooks_eq]
    exact hw.cleanup
  · rw [hu.hooks_eq, hu.effects_eq]
    exact hw.effects
  · rw [hu.hooks_eq, hu.effects_eq]
    exact hw.hooks

theorem Upheld.staffed (hs : w.Staffed) : w'.Staffed := by
  refine ⟨?_, ?_, ?_, ?_, ?_⟩
  · rw [hu.phases_eq, hu.hooks_eq]
    exact hs.lanes
  · rw [hu.phases_eq, hu.hooks_eq]
    exact hs.queued
  · rw [hu.phases_eq]
    exact hs.nodup
  · rw [hu.phases_eq]
    exact hs.busy
  · rw [hu.phases_eq, hu.tasks_eq]
    exact hs.task

theorem Upheld.awaited (ha : w.Awaited) : w'.Awaited := by
  refine ⟨?_, ?_, fun e he x hx => ?_⟩
  · rw [hu.pending, hu.flushQueued]
    exact ha.busy
  · rw [hu.tasks_eq, hu.flushQueued]
    exact ha.task
  · rw [hu.pending] at he
    rw [hu.effects_eq] at hx
    exact ha.deferred e he x hx

end Upholding

theorem Orderly.upheld (ho : w.Orderly host) (hu : w.Upheld w') (hq : w'.Quiet host) :
    w'.Orderly host := by
  have hqueued : w'.Queued (w'.tasks.filterMap Task.commit?) :=
    hu.queued _ (hu.tasks_eq ▸ ho.queued)
  refine ⟨hu.idle ho.idle hqueued.calm, hq, hu.wired ho.wired, hu.staffed ho.staffed,
    hu.awaited ho.awaited, hqueued, fun t ht => ?_, fun h y hy hlive => ?_⟩
  · rw [hu.tasks_eq] at ht
    exact (ho.tasks t ht).congr hu.effects_eq
  · rw [hu.hooks_eq] at hy
    rw [hu.tasks_eq]
    exact (ho.listening h y hy hlive).imp_right fun hl =>
      hl.congr (hu.declared hu.probes_eq) rfl rfl (hu.edges _ (ho.wired.timing hy hlive))

theorem Stocked.upheld (hs : w.Stocked) (hu : w.Upheld w') : w'.Stocked := by
  have htasks : w'.tasks = w.tasks := by rw [hu.rest]
  refine hs.retained hu.toRetained (fun e he => ?_) fun e he => ?_
  · rw [hu.pending] at he
    exact Nat.lt_of_lt_of_le (hs.pending e he) hu.next
  · rw [htasks] at he
    exact Nat.lt_of_lt_of_le (hs.firstRuns e he) hu.next

end World

end FineGrain
