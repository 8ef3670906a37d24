import FineGrain.Proofs.Hook.Listening
import FineGrain.Proofs.World.Pending
/-!
The commit of a state among memos and hooks: the memos that are subscribed are computed anew, and the
effects of the hooks that are subscribed come to wait for one flush.
-/

namespace FineGrain

open Act Hook

namespace World

variable {host : Host} {w w' : World} {s h : Nat} {v : Value} {x : Signal} {y : HookSlot}
  {l : List Nat} {e : NodeId}

/-- The effects that a change of a state has wait for a flush. -/
def waiting (w : World) (s : Nat) : List NodeId :=
  (w.graph.subscribers s).filter fun e => w.timing? e == some .deferred

/-- A flush is queued as long as effects wait for one, and they are deferred. -/
structure Awaited (w : World) : Prop where
  busy : w.graph.pending ≠ [] → w.graph.flushQueued = true
  task : w.tasks.countP Task.isFlush = if w.graph.flushQueued then 1 else 0
  deferred : ∀ e ∈ w.graph.pending, ∀ x, w.effects.get? e = some x → x.timing = .deferred

/-- A world in which the pending value of a state is committed. -/
structure Committed (w w' : World) (s : Nat) (x : Signal) (v : Value) : Prop where
  spread : ((w.committing s v).awaiting (w.waiting s)).Recomputed
    { w' with signals := (w.committing s v).signals }
  signals : w'.signals = (w.committing s v).signals.put s (x.released v)

theorem awaiting_rest (waiting : List NodeId) : w.awaiting waiting =
    { w with
      graph := { w.graph with
        pending := (w.awaiting waiting).graph.pending
        flushQueued := (w.awaiting waiting).graph.flushQueued }
      tasks := (w.awaiting waiting).tasks } := by
  unfold awaiting
  split <;> rfl

theorem mem_pending_awaiting (waiting : List NodeId) :
    e ∈ (w.awaiting waiting).graph.pending ↔ e ∈ w.graph.pending ∨ e ∈ waiting := by
  have hfold (l : List NodeId) : e ∈ waiting.foldl (fun l e => Graph.addOnce e l) l ↔
      e ∈ l ∨ e ∈ waiting := by
    induction waiting generalizing l with
    | nil => simp
    | cons a rest ih =>
      rw [List.foldl_cons, ih, Graph.mem_addOnce, List.mem_cons]
      grind
  unfold awaiting
  split
  · rename_i hempty
    simp [List.isEmpty_iff.1 hempty]
  · exact hfold _

theorem tasks_awaiting (waiting : List NodeId) :
    (w.awaiting waiting).tasks = w.tasks ∨ (w.awaiting waiting).tasks = w.tasks ++ [.flush] := by
  unfold awaiting
  split
  · exact .inl rfl
  · cases w.graph.flushQueued
    · exact .inr rfl
    · exact .inl (by simp)

theorem Awaited.awaiting (ha : w.Awaited) {waiting : List NodeId}
    (hw : ∀ e ∈ waiting, w.timing? e = some .deferred) : (w.awaiting waiting).Awaited := by
  refine ⟨?_, ?_, fun e he x hx => ?_⟩
  · unfold World.awaiting
    split
    · exact ha.busy
    · exact fun _ => rfl
  · have htask := ha.task
    unfold World.awaiting
    split
    · exact htask
    · cases hf : w.graph.flushQueued <;> simp [htask, hf, Task.isFlush]
  · rw [effects_awaiting] at hx
    rcases (mem_pending_awaiting waiting).1 he with he | he
    · exact ha.deferred e he x hx
    · simpa [timing?, hx] using hw e he

theorem Committed.rest (hc : w.Committed w' s x v) : w' =
    { w with
      log := w'.log
      refs := w'.refs
      graph := w'.graph
      memos := w'.memos
      signals := w'.signals
      tasks := w'.tasks } := by
  have h := hc.spread.rest
  rw [awaiting_rest] at h
  obtain ⟨graph, tasks, phases, providers, signals, effects, memos, hooks, refs, dispatchers,
    probes, handles, names, next, log⟩ := w'
  simp only [committing, mk.injEq] at h ⊢
  simp [h]

theorem Committed.tasks_eq (hc : w.Committed w' s x v) :
    w'.tasks = ((w.committing s v).awaiting (w.waiting s)).tasks := by
  have h : ({ w' with signals := (w.committing s v).signals } : World).tasks =
      ((w.committing s v).awaiting (w.waiting s)).tasks := by
    rw [hc.spread.rest]
  exact h

theorem Committed.tasks (hc : w.Committed w' s x v) :
    w'.tasks = w.tasks ∨ w'.tasks = w.tasks ++ [.flush] := by
  rw [hc.tasks_eq]
  exact tasks_awaiting _

theorem Committed.log (hc : w.Committed w' s x v) : w.log <+: w'.log := by
  have h := hc.spread.log
  rw [awaiting_rest] at h
  exact h

theorem Committed.timing (hc : w.Committed w' s x v) : w'.timing? = w.timing? := by
  funext e
  rw [timing?, hc.rest, timing?]

theorem Committed.pending (hc : w.Committed w' s x v) :
    e ∈ w'.graph.pending ↔ e ∈ w.graph.pending ∨ e ∈ w.waiting s := by
  have h := hc.spread.pending
  simp only at h
  rw [h]
  exact mem_pending_awaiting _

theorem Committed.awaited (hc : w.Committed w' s x v) (ha : w.Awaited) : w'.Awaited := by
  have hu : (w.committing s v).Awaited := ⟨ha.busy, ha.task, ha.deferred⟩
  have hu' : ((w.committing s v).awaiting (w.waiting s)).Awaited := hu.awaiting fun e he => by
    have hm : w.timing? e = some .deferred := by simpa using (List.mem_filter.1 he).2
    exact hm
  have htasks := hc.tasks_eq
  have hpending := hc.spread.pending
  have hflush := hc.spread.flushQueued
  have heffects : w'.effects = w.effects := by rw [hc.rest]
  simp only at hpending hflush
  refine ⟨?_, ?_, ?_⟩
  · rw [hpending, hflush]
    exact hu'.busy
  · rw [htasks, hflush]
    exact hu'.task
  · intro e he z hz
    rw [hpending] at he
    rw [heffects] at hz
    exact hu'.deferred e he z (by rw [effects_awaiting]; exact hz)

theorem Committed.edges (hc : w.Committed w' s x v) (he : w.timing? e = some .deferred)
    (t : Nat) : e ∈ w'.graph.subscribers t ↔ e ∈ w.graph.subscribers t := by
  have h := hc.spread.edges e (by rw [timing?, effects_awaiting]; exact he) t
  rw [awaiting_rest] at h
  exact h

theorem Committed.memo {k : Nat} {z' : Memo} (hc : w.Committed w' s x v)
    (hz : w'.memos.get? k = some z') :
    ∃ z, w.memos.get? k = some z ∧ z'.factory = z.factory ∧ z'.readers = z.readers := by
  obtain ⟨z, hz', hfactory, hreaders, _⟩ := hc.spread.memo hz
  rw [awaiting_rest] at hz'
  exact ⟨z, hz', hfactory, hreaders⟩

theorem Committed.agree {host' : Host} (hc : w.Committed w' s x v) (ha : w.Agree host host') :
    w'.Agree host host' := by
  intro k z' body hz' hbody
  obtain ⟨z, hz, hfactory, _⟩ := hc.memo hz'
  exact ha k z body hz (hfactory ▸ hbody)

theorem Committed.declared (hc : w.Committed w' s x v) : w'.declared = w.declared := by
  have h := hc.spread.declared
  rw [awaiting_rest] at h
  exact h

theorem Committed.scope (hc : w.Committed w' s x v) : w'.scope = w.scope := by
  rw [hc.rest]
  rfl

theorem Committed.quiet (hc : w.Committed w' s x v) (hq : w.Quiet host) : w'.Quiet host where
  factories := fun k z' body hz' hbody => by
    obtain ⟨z, hz, hfactory, _⟩ := hc.memo hz'
    exact hc.scope ▸ hq.factories k z body hz (hfactory ▸ hbody)
  bodies := by
    rw [hc.rest]
    exact hq.bodies
  cleanups := by
    rw [hc.rest]
    exact hq.cleanups

theorem Committed.wired (hc : w.Committed w' s x v) (hw : w.Wired) : w'.Wired where
  readers := fun k z' hz' => by
    obtain ⟨z, hz, _, hreaders⟩ := hc.memo hz'
    exact hreaders.trans (hw.readers k z hz)
  running := by
    rw [hc.rest]
    exact hw.running
  cleanup := by
    rw [hc.rest]
    exact hw.cleanup
  effects := by
    rw [hc.rest]
    exact hw.effects
  hooks := by
    rw [hc.rest]
    exact hw.hooks

theorem Committed.get? (hc : w.Committed w' s x v) (t : Nat) : w'.signals.get? t =
    if t = s then some (x.released v) else w.signals.get? t := by
  rw [hc.signals]
  exact get?_committed (w := w) rfl t

theorem Committed.queued (hc : w.Committed w' s x v) (hx : w.signals.get? s = some x)
    (h : w.Queued (s :: l)) : w'.Queued l :=
  h.tail hx hc.get?

theorem Committed.idle (hc : w.Committed w' s x v) (hi : w.Idle) (hcalm : w'.Calm) :
    w'.Idle where
  calm := hcalm
  probes := by
    rw [hc.rest]
    exact hi.probes
  sound := by
    refine hc.spread.sound ?_
    rw [awaiting_rest]
    exact hi.sound.congr rfl
  rest := by
    rw [hc.rest]
    exact hi.rest
  observers := by
    have h := hc.spread.observers
    rw [awaiting_rest] at h
    exact h.trans hi.observers

theorem Committed.staffed (hc : w.Committed w' s x v) (hs : w.Staffed) : w'.Staffed where
  lanes := by
    rw [hc.rest]
    exact hs.lanes
  queued := by
    rw [hc.rest]
    exact hs.queued
  nodup := by
    rw [hc.rest]
    exact hs.nodup
  busy := by
    rw [hc.rest]
    exact hs.busy
  task := by
    have hphases : w'.phases = w.phases := by rw [hc.rest]
    have htask := hs.task
    rcases hc.tasks with h | h <;> rw [h, hphases]
    · exact htask
    · simp [htask, Task.isPhases]

theorem Queued.run_committed (h : w.Queued (s :: l)) (hi : w.Idle) (hq : w.Quiet host)
    (hw : w.Wired) : ∃ x v w', w.signals.get? s = some x ∧ x.cache = some v ∧
      (∀ host', w.Agree host host' → w.run (commit host' s) = (.ok ⟨⟩, w')) ∧
      w.Committed w' s x v := by
  obtain ⟨x, v, hx, hv, hd, hsteady⟩ := h.head
  -- The new value is written first, then the deferred readers are queued, and only then do the
  -- render effects run; they find a world that is as idle as before.
  let u := w.committing s v
  let u₁ := u.awaiting (w.waiting s)
  have hi₁ : u₁.Idle := by
    rw [show u₁ = _ from awaiting_rest (w := u) (w.waiting s)]
    exact ⟨hi.calm.committing s v, hi.probes, hi.sound.congr rfl, hi.rest, hi.observers⟩
  have hq₁ : u₁.Quiet host := by
    rw [show u₁ = _ from awaiting_rest (w := u) (w.waiting s)]
    exact ⟨hq.factories, hq.bodies, hq.cleanups⟩
  have hw₁ : u₁.Wired := by
    rw [show u₁ = _ from awaiting_rest (w := u) (w.waiting s)]
    exact ⟨hw.readers, hw.running, hw.cleanup, hw.effects, hw.hooks⟩
  have hrender : ∀ e ∈ (((u.graph.subscribers s).filter fun e =>
      u.timing? e == some .render).mergeSort (· ≤ ·)), u₁.timing? e = some .render := by
    intro e he
    have hm := (List.mem_filter.1 (List.mem_mergeSort.1 he)).2
    have ht : u.timing? e = some .render := by simpa using hm
    rw [timing?, effects_awaiting]
    exact ht
  obtain ⟨w₂, hrun, hr⟩ := run_recomputes hi₁ hq₁ hw₁ hrender
  have hnotify (host' : Host) (ha : w.Agree host host') :
      u.run (notify host' s) = (.ok ⟨⟩, w₂) := by
    refine (run_notify s).trans (hrun host' ?_)
    rw [show u₁ = _ from awaiting_rest (w := u) (w.waiting s)]
    exact ha
  have hsame : w₂.signals = u.signals := by
    rw [hr.rest, show u₁ = _ from awaiting_rest (w := u) (w.waiting s)]
  refine ⟨x, v, _, hx, hv, fun host' ha => h.run_commit hx hv (hnotify host' ha) hsame, ?_, ?_⟩
  · have heq : { w₂ with signals := (w.committing s v).signals } = w₂ := by
      rw [show (w.committing s v).signals = w₂.signals from hsame.symm]
    exact heq ▸ hr
  · rw [← hsame]

end World

end FineGrain
