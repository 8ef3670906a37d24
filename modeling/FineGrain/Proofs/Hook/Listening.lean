import FineGrain.Proofs.Hook.Lanes
import FineGrain.Proofs.Hook.Wiring
/-!
What the effects of hooks do when they run: they subscribe anew to what the dependency lists reach,
and each hook has one job queued in the lane of its phase.
-/

namespace FineGrain

open Act Hook

namespace World

/-- The jobs in the phase queue are those of the hooks marked as queued, and a flush of the phases is
queued as long as there are jobs. -/
structure Staffed (w : World) : Prop where
  lanes : ∀ p h, h ∈ w.phases.lane p →
    ∃ y, w.hooks.get? h = some y ∧ y.phase = p ∧ y.queued = true
  queued : ∀ h y, w.hooks.get? h = some y → y.queued = true → h ∈ w.phases.lane y.phase
  nodup : ∀ p, (w.phases.lane p).Nodup
  busy : w.phases.jobs ≠ [] → w.phases.flushQueued = true
  task : w.tasks.countP Task.isPhases = if w.phases.flushQueued then 1 else 0

/-- The world after the effect of a hook has run. -/
def listened (w : World) (h : Nat) (y : HookSlot) : World :=
  { w with
    graph := ((w.sources y.list).foldl Graph.track
      ((w.graph.clearDependencies y.effect).pushObserver y.effect)).popObserver
    hooks := if y.queued then w.hooks else w.hooks.modify h fun y => { y with queued := true }
    phases := if y.queued then w.phases else (w.phases.push y.phase h).2
    tasks := w.tasks ++ if y.queued || w.phases.flushQueued then [] else [.phases] }

variable {host : Host} {w w' w'' : World} {e : NodeId} {s h : Nat} {x : Effect} {y : HookSlot}
  {l l' : List NodeId}

theorem run_listen (hi : w.Idle) (hx : w.effects.get? y.effect = some x)
    (hcomp : x.computation = .hook h) (hy : w.hooks.get? h = some y) :
    w.run (runEffect host y.effect) = (.ok ⟨⟩, w.listened h y) := by
  let u := w.starting y.effect x.providers
  have hy' : u.hooks.get? h = some y := hy
  have hsources : u.sources (y.dependencies.getD []) = w.sources y.list :=
    sources_congr (w := w) (u := u) rfl rfl _
  have htrack := run_trackAll (w := u) hi.calm hi.probes (y.dependencies.getD [])
  rw [hsources] at htrack
  have hrun : u.run (compute host x.computation) = (.ok ⟨⟩, { u with
      graph := (w.sources y.list).foldl Graph.track u.graph
      hooks := (w.listened h y).hooks
      phases := (w.listened h y).phases
      tasks := (w.listened h y).tasks }) := by
    rw [hcomp]
    simp only [compute, trackHook, run_bind, run_get, hy', htrack]
    cases hq : y.queued with
    | true => simp [listened, hq, u, starting]
    | false =>
      cases hf : w.phases.flushQueued <;>
        simp [listened, hq, hf, u, starting, modifyHook, scheduleJob, run_bind,
          PhaseQueue.push_fst]
  have h := run_runEffect hi.rest hx hrun rfl
  exact h

/-- A world in which the effects in `l` have run, as far as they are those of live hooks. -/
structure Heard (w w' : World) (l : List NodeId) : Prop where
  rest : w' = { w with
    graph := w'.graph
    hooks := w'.hooks
    phases := w'.phases
    tasks := w'.tasks }
  observers : w'.graph.observers = w.graph.observers
  pending : w'.graph.pending = w.graph.pending
  flushQueued : w'.graph.flushQueued = w.graph.flushQueued
  sound : w.graph.Sound → w'.graph.Sound
  others : ∀ e, e ∉ l → ∀ s, e ∈ w'.graph.subscribers s ↔ e ∈ w.graph.subscribers s
  heard : ∀ h y, w.hooks.get? h = some y → y.disposed = false → y.effect ∈ l → ∀ s,
    y.effect ∈ w'.graph.subscribers s ↔ w.Reaches y.list s
  hooks : ∀ h, ∃ queued, w'.hooks.get? h =
    (w.hooks.get? h).map fun y => { y with queued := queued }
  jobs : ∀ p h, h ∈ w'.phases.lane p ↔ h ∈ w.phases.lane p ∨
    ∃ y, w.hooks.get? h = some y ∧ y.disposed = false ∧ y.effect ∈ l ∧ y.phase = p
  tasks : w'.tasks = w.tasks ∨ w'.tasks = w.tasks ++ [.phases]

theorem Heard.refl (w : World) : w.Heard w [] where
  rest := rfl
  observers := rfl
  pending := rfl
  flushQueued := rfl
  sound := id
  others := fun _ _ _ => Iff.rfl
  heard := fun _ _ _ _ hl => by simp at hl
  hooks := fun h => by
    cases hy : w.hooks.get? h with
    | none => exact ⟨false, rfl⟩
    | some y => exact ⟨y.queued, rfl⟩
  jobs := fun p h => by simp
  tasks := .inl rfl

theorem Heard.hook (hh : w.Heard w' l) (hy : w.hooks.get? h = some y) :
    ∃ queued, w'.hooks.get? h = some { y with queued := queued } := by
  obtain ⟨b, hb⟩ := hh.hooks h
  exact ⟨b, by rw [hb, hy]; rfl⟩

theorem Heard.hook_of (hh : w.Heard w' l) {y' : HookSlot} (hy' : w'.hooks.get? h = some y') :
    ∃ y, w.hooks.get? h = some y ∧ ∃ queued, y' = { y with queued := queued } := by
  obtain ⟨b, hb⟩ := hh.hooks h
  rw [hy'] at hb
  obtain ⟨y, hy, rfl⟩ := Option.map_eq_some_iff.1 hb.symm
  exact ⟨y, hy, b, rfl⟩

theorem Heard.idle (hh : w.Heard w' l) (hi : w.Idle) : w'.Idle where
  calm := by
    rw [hh.rest]
    exact hi.calm
  probes := by
    rw [hh.rest]
    exact hi.probes
  sound := hh.sound hi.sound
  rest := by
    rw [hh.rest]
    exact hi.rest
  observers := hh.observers.trans hi.observers

theorem Heard.declared (hh : w.Heard w' l) : w'.declared = w.declared := by
  rw [hh.rest]
  funext d
  cases d <;> rfl

theorem Heard.wired (hh : w.Heard w' l) (hw : w.Wired) : w'.Wired where
  readers := by
    rw [hh.rest]
    exact hw.readers
  running := fun h y' hy' => by
    obtain ⟨y, hy, b, rfl⟩ := hh.hook_of hy'
    exact hw.running h y hy
  cleanup := fun h y' c hy' => by
    obtain ⟨y, hy, b, rfl⟩ := hh.hook_of hy'
    exact hw.cleanup h y c hy
  effects := fun e x hx => by
    have hx' : w.effects.get? e = some x := by
      rw [hh.rest] at hx
      exact hx
    refine (hw.effects e x hx').imp_right ?_
    rintro ⟨h, y, hcomp, ht, hy, he, hlive⟩
    obtain ⟨b, hb⟩ := hh.hook hy
    exact ⟨h, _, hcomp, ht, hb, he, hlive⟩
  hooks := fun h y' hy' hlive => by
    obtain ⟨y, hy, b, rfl⟩ := hh.hook_of hy'
    rw [hh.rest]
    exact hw.hooks h y hy hlive

theorem Heard.quiet (hh : w.Heard w' l) (hq : w.Quiet host) : w'.Quiet host where
  factories := by
    rw [hh.rest]
    exact hq.factories
  bodies := fun h y' hy' => by
    obtain ⟨y, hy, b, rfl⟩ := hh.hook_of hy'
    rw [hh.rest]
    exact hq.bodies h y hy
  cleanups := fun h y' body hy' => by
    obtain ⟨y, hy, b, rfl⟩ := hh.hook_of hy'
    rw [hh.rest]
    exact hq.cleanups h y body hy

theorem Heard.trans (hh : w.Heard w' l) (hh' : w'.Heard w'' l')
    (ht : w''.tasks = w.tasks ∨ w''.tasks = w.tasks ++ [.phases]) : w.Heard w'' (l ++ l') where
  rest := by
    rw [hh'.rest, hh.rest]
  observers := hh'.observers.trans hh.observers
  pending := hh'.pending.trans hh.pending
  flushQueued := hh'.flushQueued.trans hh.flushQueued
  sound := hh'.sound ∘ hh.sound
  others := fun e he s => by
    simp only [List.mem_append, not_or] at he
    exact (hh'.others e he.2 s).trans (hh.others e he.1 s)
  heard := fun h y hy hlive hl s => by
    obtain ⟨b, hb⟩ := hh.hook hy
    have hreach : w'.Reaches y.list s ↔ w.Reaches y.list s :=
      ⟨.congr hh.declared.symm, .congr hh.declared⟩
    -- Whoever has run in both stretches reads what the second run has read, and a list reaches the
    -- same all along.
    by_cases hl' : y.effect ∈ l'
    · exact (hh'.heard h _ hb hlive hl' s).trans hreach
    · have hl : y.effect ∈ l := (List.mem_append.1 hl).resolve_right hl'
      exact (hh'.others _ hl' s).trans (hh.heard h y hy hlive hl s)
  hooks := fun h => by
    obtain ⟨b, hb⟩ := hh.hooks h
    obtain ⟨b', hb'⟩ := hh'.hooks h
    exact ⟨b', by rw [hb', hb]; cases w.hooks.get? h <;> rfl⟩
  jobs := fun p h => by
    rw [hh'.jobs, hh.jobs]
    constructor
    · rintro ((hm | ⟨y, hy, hlive, hl, hp⟩) | ⟨y', hy', hlive, hl, hp⟩)
      · exact .inl hm
      · exact .inr ⟨y, hy, hlive, by simp [hl], hp⟩
      · obtain ⟨y, hy, b, rfl⟩ := hh.hook_of hy'
        exact .inr ⟨y, hy, hlive, by simpa using .inr hl, hp⟩
    · rintro (hm | ⟨y, hy, hlive, hl, hp⟩)
      · exact .inl (.inl hm)
      · rcases List.mem_append.1 hl with hl | hl
        · exact .inl (.inr ⟨y, hy, hlive, hl, hp⟩)
        · obtain ⟨b, hb⟩ := hh.hook hy
          exact .inr ⟨_, hb, hlive, hl, hp⟩
  tasks := ht

/-! ### One effect -/

theorem get?_listened (k : Nat) : (w.listened h y).hooks.get? k =
    if k = h ∧ y.queued = false then
      (w.hooks.get? k).map fun y => { y with queued := true }
    else w.hooks.get? k := by
  cases hq : y.queued <;> simp [listened, hq, Store.get?_modify]

theorem lane_listened (p : Phase) : (w.listened h y).phases.lane p =
    w.phases.lane p ++ if p = y.phase ∧ y.queued = false then [h] else [] := by
  cases hq : y.queued <;> simp [listened, hq, PhaseQueue.lane_push]

theorem mem_subscribers_listened (hi : w.Idle) (e : NodeId) (s : Nat) :
    e ∈ (w.listened h y).graph.subscribers s ↔
      e ≠ y.effect ∧ e ∈ w.graph.subscribers s ∨ e = y.effect ∧ w.Reaches y.list s := by
  simp only [listened, subscribers_popObserver]
  rw [hi.sound.mem_subscribers_afresh, mem_sources hi.probes]

theorem Heard.listened (hi : w.Idle) (hw : w.Wired) (hs : w.Staffed)
    (hy : w.hooks.get? h = some y) (hlive : y.disposed = false) :
    w.Heard (w.listened h y) [y.effect] := by
  have hunique : ∀ h' y', w.hooks.get? h' = some y' → y'.disposed = false →
      y'.effect = y.effect → h' = h ∧ y' = y := by
    intro h' y' hy' hlive' he
    obtain rfl := hw.hook_unique hy' hlive' hy hlive he
    exact ⟨rfl, by simpa [hy] using hy'.symm⟩
  have hobs := Graph.observers_trackAll (w.sources y.list)
    (g := (w.graph.clearDependencies y.effect).pushObserver y.effect)
  refine ⟨rfl, ?_, ?_, ?_, fun hsound => ?_, fun e he t => ?_, fun h' y' hy' hlive' he t => ?_,
    fun k => ?_, fun p k => ?_, ?_⟩
  · simp only [World.listened, Graph.popObserver, hobs]
    simp [Graph.pushObserver]
  · simp [World.listened, Graph.popObserver, Graph.pending_trackAll, Graph.pushObserver]
  · simp [World.listened, Graph.popObserver, Graph.flushQueued_trackAll, Graph.pushObserver]
  · have hsound' := ((hsound.clear y.effect).congr
      (k := (w.graph.clearDependencies y.effect).pushObserver y.effect) rfl).trackAll
        (w.sources y.list)
    exact hsound'.congr rfl
  · have hne : e ≠ y.effect := by simpa using he
    simp [mem_subscribers_listened hi, hne]
  · obtain ⟨rfl, rfl⟩ := hunique h' y' hy' hlive' (by simpa using he)
    simp [mem_subscribers_listened hi]
  · rw [get?_listened]
    split
    · exact ⟨true, rfl⟩
    · exact (Heard.refl w).hooks k
  · rw [lane_listened, List.mem_append]
    constructor
    · refine Or.imp_right fun hk => ?_
      split at hk
      · rename_i hp
        obtain rfl : k = h := by simpa using hk
        exact ⟨y, hy, hlive, by simp, hp.1.symm⟩
      · simp at hk
    · rintro (hk | ⟨y', hy', hlive', he, rfl⟩)
      · exact .inl hk
      · obtain ⟨rfl, rfl⟩ := hunique k y' hy' hlive' (by simpa using he)
        cases hq : y'.queued with
        | true => exact .inl (hs.queued k y' hy hq)
        | false => exact .inr (by simp)
  · simp only [World.listened]
    split
    · exact .inl (by simp)
    · exact .inr rfl

theorem get?_listened_self (hy : w.hooks.get? h = some y) :
    (w.listened h y).hooks.get? h = some { y with queued := true } := by
  cases hq : y.queued with
  | true =>
    obtain ⟨phase, body, onCleanup, dependencies, effect, cleanup, providers, queued, disposed,
      running⟩ := y
    simp_all [get?_listened]
  | false => simp [get?_listened, hq, hy]

theorem get?_listened_of_ne {k : Nat} (hk : k ≠ h) :
    (w.listened h y).hooks.get? k = w.hooks.get? k := by
  simp [get?_listened, hk]

theorem Staffed.lanes_listened (hs : w.Staffed) (hy : w.hooks.get? h = some y) {p : Phase} {k : Nat}
    (hk : k ∈ (w.listened h y).phases.lane p) :
    ∃ z, (w.listened h y).hooks.get? k = some z ∧ z.phase = p ∧ z.queued = true := by
  rw [lane_listened, List.mem_append] at hk
  by_cases hkh : k = h
  · subst hkh
    refine ⟨_, get?_listened_self hy, ?_, rfl⟩
    rcases hk with hk | hk
    · obtain ⟨y', hy', hp, _⟩ := hs.lanes p k hk
      obtain rfl : y = y' := by simpa [hy] using hy'
      exact hp
    · split at hk
      · rename_i hp
        exact hp.1.symm
      · simp at hk
  · have hk : k ∈ w.phases.lane p := hk.resolve_right (by split <;> simp [hkh])
    rw [get?_listened_of_ne hkh]
    exact hs.lanes p k hk

theorem Staffed.queued_listened (hs : w.Staffed) (hy : w.hooks.get? h = some y) {z : HookSlot}
    {k : Nat} (hz : (w.listened h y).hooks.get? k = some z) (hqueued : z.queued = true) :
    k ∈ (w.listened h y).phases.lane z.phase := by
  rw [lane_listened, List.mem_append]
  by_cases hkh : k = h
  · subst hkh
    obtain rfl := Option.some.inj ((get?_listened_self hy).symm.trans hz)
    cases hq : y.queued with
    | true => exact .inl (hs.queued k y hy hq)
    | false => exact .inr (by simp)
  · rw [get?_listened_of_ne hkh] at hz
    exact .inl (hs.queued k z hz hqueued)

theorem Staffed.nodup_listened (hs : w.Staffed) (hy : w.hooks.get? h = some y) (p : Phase) :
    ((w.listened h y).phases.lane p).Nodup := by
  rw [lane_listened]
  split
  · rename_i hp
    refine List.nodup_append.2 ⟨hs.nodup p, by simp, ?_⟩
    rintro k hk _ hk' rfl
    obtain rfl : k = h := by simpa using hk'
    obtain ⟨y', hy', _, hq'⟩ := hs.lanes p k hk
    obtain rfl : y = y' := by simpa [hy] using hy'
    simp [hp.2] at hq'
  · simpa using hs.nodup p

theorem Staffed.listened (hs : w.Staffed) (hy : w.hooks.get? h = some y) :
    (w.listened h y).Staffed := by
  refine ⟨fun p k => hs.lanes_listened hy, fun k z => hs.queued_listened hy, hs.nodup_listened hy,
    fun _ => ?_, ?_⟩
  · cases hq : y.queued with
    | true =>
      have hm := PhaseQueue.mem_jobs.2 ⟨_, hs.queued h y hy hq⟩
      simpa [World.listened, hq] using hs.busy (List.ne_nil_of_mem hm)
    | false => simp [World.listened, hq, PhaseQueue.flushQueued_push]
  · have htask := hs.task
    cases hq : y.queued <;> cases hf : w.phases.flushQueued <;>
      simp [World.listened, PhaseQueue.flushQueued_push, Task.isPhases, htask, hq, hf]

/-! ### Several effects -/

theorem run_runEffect_none (he : w.effects.get? e = none) :
    w.run (runEffect host e) = (.ok ⟨⟩, w) := by
  simp only [runEffect, run_bind, run_get, he, run_pure]

theorem Heard.of_none (he : w.effects.get? e = none) (hw : w.Wired) : w.Heard w [e] := by
  have hne : ∀ h y, w.hooks.get? h = some y → y.disposed = false → y.effect ∉ [e] := by
    intro h y hy hlive hm
    obtain ⟨x, hx, _⟩ := hw.hooks h y hy hlive
    obtain rfl : y.effect = e := by simpa using hm
    simp [he] at hx
  refine ⟨rfl, rfl, rfl, rfl, id, fun _ _ _ => Iff.rfl,
    fun h y hy hlive hm => absurd hm (hne h y hy hlive), (Heard.refl w).hooks, fun p h => ?_,
    .inl rfl⟩
  constructor
  · exact .inl
  · rintro (hm | ⟨y, hy, hlive, hm, _⟩)
    · exact hm
    · exact absurd hm (hne h y hy hlive)

theorem run_hear (hi : w.Idle) (hw : w.Wired) (hs : w.Staffed)
    (he : ∀ x, w.effects.get? e = some x → x.timing = .deferred) :
    ∃ w', (∀ host, w.run (runEffect host e) = (.ok ⟨⟩, w')) ∧ w.Heard w' [e] ∧
      w'.Staffed := by
  cases hx : w.effects.get? e with
  | none => exact ⟨w, fun _ => run_runEffect_none hx, .of_none hx hw, hs⟩
  | some x =>
    rcases hw.effects e x hx with ⟨_, ht⟩ | ⟨h, y, hcomp, _, hy, rfl, hlive⟩
    · rw [he x hx] at ht
      cases ht
    · exact ⟨_, fun _ => run_listen hi hx hcomp hy, .listened hi hw hs hy hlive, hs.listened hy⟩

theorem Staffed.tasks_of_heard (hs'' : w''.Staffed)
    (hh : w.Heard w' l) (hh' : w'.Heard w'' l') :
    w''.tasks = w.tasks ∨ w''.tasks = w.tasks ++ [.phases] := by
  rcases hh.tasks with h | h <;> rcases hh'.tasks with h' | h'
  · exact .inl (h'.trans h)
  · exact .inr (h ▸ h')
  · exact .inr (h'.trans h)
  · have htask := hs''.task
    have hle : w''.tasks.countP Task.isPhases ≤ 1 := by
      rw [htask]
      split <;> omega
    rw [h', h, List.countP_append, List.countP_append] at hle
    simp only [List.countP_cons, List.countP_nil, Task.isPhases, if_true] at hle
    omega

theorem run_hears (hi : w.Idle) (hw : w.Wired) (hs : w.Staffed)
    (hl : ∀ e ∈ l, ∀ x, w.effects.get? e = some x → x.timing = .deferred) :
    ∃ w', (∀ host, w.run (runEffects host l) = (.ok ⟨⟩, w')) ∧ w.Heard w' l ∧
      w'.Staffed := by
  induction l generalizing w with
  | nil => exact ⟨w, fun _ => rfl, .refl w, hs⟩
  | cons e rest ih =>
    obtain ⟨w₁, hrun, hh, hs₁⟩ := run_hear hi hw hs (hl e (by simp))
    have heffects : w₁.effects = w.effects := by rw [hh.rest]
    obtain ⟨w', hrun', hh', hs'⟩ := ih (hh.idle hi) (hh.wired hw) hs₁
      fun e he => heffects ▸ hl e (by simp [he])
    exact ⟨w', fun host => by rw [run_runEffects_cons (hrun host), hrun' host],
      hh.trans hh' (hs'.tasks_of_heard hh hh'), hs'⟩

end World

end FineGrain
