import FineGrain.Proofs.Hook.Orderly
/-!
Calls that write states, and the commits that they queue. Until its commit a state keeps its value;
then it has the value that its cache held, and the effects of the hooks that listen to it wait.
-/

namespace FineGrain

open Act Hook

/-- A call that writes a state. -/
inductive Call where
  | set (state : Nat) (v : Value)
  | update (state : Nat) (body : Body)
  | dispatch (dispatcher : Nat) (action : Value)

namespace Call

def perform (host : Host) : Call → Act Unit
  | .set s v => write s fun _ => return v
  | .update s body => write s fun v => host.call body [v]
  | .dispatch d action => Act.dispatch host d action

def Targets (w : World) : Call → Nat → Prop
  | .set s _, t => s = t
  | .update s _, t => s = t
  | .dispatch d _, t => ∃ x, w.dispatchers.get? d = some x ∧ x.signal = t

/-- A call writes one of the given states, and the updater or the reducer that it runs writes no
others. -/
def Within (host : Host) (w : World) (states : List Nat) : Call → Prop
  | .set s _ => s ∈ states
  | .update s body => s ∈ states ∧ ∀ v, Drafts w.scope states (host.call body [v])
  | .dispatch d action => ∃ x, w.dispatchers.get? d = some x ∧ x.signal ∈ states ∧
      ∀ v, Drafts w.scope states (host.call x.reduce [v, action])

end Call

namespace World

variable {host : Host} {w w' u : World} {s h : Nat} {v : Value} {x : Signal} {y : HookSlot}
  {l states first : List Nat} {e : NodeId} {rest tail : List Task} {call : Call}

theorem run_dispatch {d : Nat} {action : Value} {x : Dispatcher}
    (hd : w.dispatchers.get? d = some x) : w.run (dispatch host d action) =
      w.run (write x.signal fun v => host.call x.reduce [v, action]) := by
  simp [dispatch, run_bind, hd]

theorem run_call (hc : call.Within host w states) : ∃ s next, s ∈ states ∧
    (∀ t, call.Targets w t → s = t) ∧ (∀ v, Drafts w.scope states (next v)) ∧
    w.run (call.perform host) = w.run (write s next) := by
  cases call with
  | set s v => exact ⟨s, _, hc, fun _ => id, fun _ => (Looks.pure v).drafts, rfl⟩
  | update s body => exact ⟨s, _, hc.1, fun _ => id, hc.2, rfl⟩
  | dispatch d action =>
    obtain ⟨x, hx, hs, hnext⟩ := hc
    refine ⟨x.signal, _, hs, ?_, hnext, run_dispatch hx⟩
    rintro t ⟨x', hx', rfl⟩
    obtain rfl : x = x' := by simpa [hx] using hx'
    rfl

def Dirty (w : World) (s : Nat) : Prop := ∃ x, w.signals.get? s = some x ∧ x.dirty = true

theorem Drafted.dirty_of (hd : w.Drafted w' first) (hs : w.Dirty s) : w'.Dirty s := by
  obtain ⟨x, hx, hdirty⟩ := hs
  exact hd.dirty hx hdirty

theorem Drafted.dispatchers (hd : w.Drafted w' first) : w'.dispatchers = w.dispatchers := by
  rw [hd.rest]

theorem Drafted.within {call : Call} (hd : w.Drafted w' first) (hc : call.Within host w states) :
    call.Within host w' states := by
  cases call with
  | set s v => exact hc
  | update s body => exact ⟨hc.1, hd.scope ▸ hc.2⟩
  | dispatch d action =>
    obtain ⟨x, hx, hs, hnext⟩ := hc
    exact ⟨x, hd.dispatchers ▸ hx, hs, hd.scope ▸ hnext⟩

theorem Drafted.targets {call : Call} (hd : w.Drafted w' first) (hc : call.Targets w s) :
    call.Targets w' s := by
  cases call with
  | dispatch d action =>
    obtain ⟨x, hx, hs⟩ := hc
    exact ⟨x, hd.dispatchers ▸ hx, hs⟩
  | _ => exact hc

theorem run_calls {calls : List Call} (hi : w.Idle)
    (hlive : ∀ t ∈ states, (w.signals.get? t).isSome)
    (hc : ∀ call ∈ calls, call.Within host w states) :
    ∃ w' first, w.run (calls.forM (Call.perform host)) = (.ok ⟨⟩, w') ∧ w.Drafted w' first ∧
      (∀ s ∈ first, s ∈ states) ∧ ∀ call ∈ calls, ∀ s, call.Targets w s → w'.Dirty s := by
  -- The calls that are left run in a world that the earlier ones have drafted.
  have general : ∀ u before, w.Drafted u before → (∀ s ∈ before, s ∈ states) →
      ∃ w' first, u.run (calls.forM (Call.perform host)) = (.ok ⟨⟩, w') ∧ u.Drafted w' first ∧
        (∀ s ∈ first, s ∈ states) ∧ ∀ call ∈ calls, ∀ s, call.Targets w s → w'.Dirty s := by
    induction calls with
    | nil =>
      intro u before _ _
      exact ⟨u, [], rfl, .refl u, by simp, by simp⟩
    | cons call calls ih =>
      intro u before hd hsub
      obtain ⟨s, next, hs, htarget, hnext, hrun⟩ :=
        run_call (hd.within (hc call List.mem_cons_self))
      obtain ⟨u₁, first₁, hrun₁, hd₁, hsub₁, hdirty⟩ := run_write_dirty hs hnext rfl
        (hd.calm hi.calm) (hd.probes.trans hi.probes) (hd.observers.trans hi.observers)
        (fun t ht => hd.isSome t ▸ hlive t ht)
      obtain ⟨w', first', hrun', hd', hsub', htargets⟩ :=
        ih (fun c hm => hc c (List.mem_cons_of_mem _ hm)) u₁ (before ++ first₁) (hd.trans hd₁)
          (fun t ht => (List.mem_append.1 ht).elim (hsub t) (hsub₁ t))
      refine ⟨w', first₁ ++ first', ?_, hd₁.trans hd', fun t ht =>
        (List.mem_append.1 ht).elim (hsub₁ t) (hsub' t), fun c hm t ht => ?_⟩
      · rw [List.forM, run_bind, hrun, hrun₁]
        exact hrun'
      · rcases List.mem_cons.1 hm with rfl | hm
        · obtain rfl := htarget t (hd.targets ht)
          exact hd'.dirty_of hdirty
        · exact htargets c hm t ht
  exact general w [] (.refl w) (by simp)

section Drafting

variable (hd : w.Drafted w' first)

include hd

theorem Drafted.idle (hi : w.Idle) (hcalm : w'.Calm) : w'.Idle := by
  refine ⟨hcalm, ?_, ?_, ?_, ?_⟩ <;> rw [hd.rest]
  · exact hi.probes
  · exact hi.sound
  · exact hi.rest
  · exact hi.observers

theorem Drafted.quiet (hq : w.Quiet host) : w'.Quiet host := by
  rw [hd.rest]
  exact ⟨hq.factories, hq.bodies, hq.cleanups⟩

theorem Drafted.wired (hw : w.Wired) : w'.Wired := by
  rw [hd.rest]
  exact ⟨hw.readers, hw.running, hw.cleanup, hw.effects, hw.hooks⟩

theorem Drafted.tasks : w'.tasks = w.tasks ++ first.map .commit := by rw [hd.rest]

theorem Drafted.countP_tasks {p : Task → Bool} (hp : ∀ s, p (.commit s) = false) :
    w'.tasks.countP p = w.tasks.countP p := by
  rw [hd.tasks, List.countP_append, List.countP_map]
  simp [Function.comp_def, hp]

theorem Drafted.commits :
    w'.tasks.filterMap Task.commit? = w.tasks.filterMap Task.commit? ++ first := by
  rw [hd.tasks, List.filterMap_append, List.filterMap_map]
  congr 1
  exact List.filterMap_some

theorem Drafted.staffed (hs : w.Staffed) : w'.Staffed := by
  have htask := hs.task
  rw [← hd.countP_tasks (p := Task.isPhases) fun _ => rfl] at htask
  rw [hd.rest] at htask ⊢
  exact ⟨hs.lanes, hs.queued, hs.nodup, hs.busy, htask⟩

theorem Drafted.awaited (ha : w.Awaited) : w'.Awaited := by
  have htask := ha.task
  rw [← hd.countP_tasks (p := Task.isFlush) fun _ => rfl] at htask
  rw [hd.rest] at htask ⊢
  exact ⟨ha.busy, htask, ha.deferred⟩

theorem Drafted.listening (hl : w.Listening y) : w'.Listening y := by
  have hdeclared : w'.declared = w.declared := by
    rw [hd.rest]
    funext d
    cases d <;> rfl
  have hgraph : w'.graph = w.graph := by rw [hd.rest]
  exact hl.congr hdeclared rfl rfl fun _ => by rw [hgraph]

end Drafting

theorem Orderly.drafted (ho : w.Orderly host) (hd : w.Drafted w' first) : w'.Orderly host := by
  have hqueued := ho.queued.drafted hd
  have heffects : w'.effects = w.effects := by rw [hd.rest]
  have hhooks : w'.hooks = w.hooks := by rw [hd.rest]
  refine ⟨hd.idle ho.idle hqueued.calm, hd.quiet ho.quiet, hd.wired ho.wired, hd.staffed ho.staffed,
    hd.awaited ho.awaited, hd.commits ▸ hqueued, fun t hm => ?_, fun h y hy hlive => ?_⟩
  · rw [hd.tasks] at hm
    rcases List.mem_append.1 hm with hm | hm
    · exact (ho.tasks t hm).congr heffects
    · obtain ⟨s, _, rfl⟩ := List.mem_map.1 hm
      trivial
  · rw [hd.tasks]
    exact (ho.listening h y (hhooks ▸ hy) hlive).imp (List.mem_append_left _) hd.listening

/-- What a signal is once its pending value is committed. -/
def settledSignal (x : Signal) : Signal := x.released (x.cache.getD x.value)

/-- A world in which the states in `l` have been committed. -/
structure AllCommitted (w u : World) (l : List Nat) : Prop where
  rest : u = { w with
    log := u.log
    refs := u.refs
    graph := u.graph
    memos := u.memos
    signals := u.signals
    tasks := u.tasks }
  log : w.log <+: u.log
  pending : ∀ e, e ∈ u.graph.pending ↔ e ∈ w.graph.pending ∨
    w.timing? e = some .deferred ∧ ∃ s ∈ l, e ∈ w.graph.subscribers s
  edges : ∀ e, w.timing? e = some .deferred → ∀ s, e ∈ u.graph.subscribers s ↔
    e ∈ w.graph.subscribers s
  declared : u.declared = w.declared
  agree : ∀ host host', w.Agree host host' → u.Agree host host'
  signals : ∀ t, u.signals.get? t =
    if t ∈ l then (w.signals.get? t).map settledSignal else w.signals.get? t

theorem AllCommitted.refl (w : World) : w.AllCommitted w [] where
  rest := rfl
  log := List.prefix_rfl
  pending := fun e => by simp
  edges := fun _ _ _ => Iff.rfl
  declared := rfl
  agree := fun _ _ => id
  signals := fun t => by simp

theorem AllCommitted.cons (hc : (w.beginning rest).Committed w' s x v)
    (hx : w.signals.get? s = some x) (hv : x.cache = some v) (hs : s ∉ l)
    (ha : w'.AllCommitted u l) : w.AllCommitted u (s :: l) where
  rest := by
    rw [ha.rest, hc.rest]
    rfl
  log := by
    have h := hc.log
    exact h.trans ha.log
  pending := fun e => by
    rw [ha.pending, hc.pending, hc.timing]
    simp only [waiting, List.mem_filter, beq_iff_eq, List.mem_cons, exists_eq_or_imp]
    have hedges := fun he t => hc.edges (e := e) he t
    have htiming : (w.beginning rest).timing? e = w.timing? e := rfl
    have hsub : (w.beginning rest).graph = w.graph := rfl
    rw [htiming, hsub] at *
    constructor
    · rintro ((hm | ⟨hm, ht⟩) | ⟨ht, t, htl, hm⟩)
      · exact .inl hm
      · exact .inr ⟨ht, .inl hm⟩
      · exact .inr ⟨ht, .inr ⟨t, htl, (hedges ht t).1 hm⟩⟩
    · rintro (hm | ⟨ht, hm | ⟨t, htl, hm⟩⟩)
      · exact .inl (.inl hm)
      · exact .inl (.inr ⟨hm, ht⟩)
      · exact .inr ⟨ht, t, htl, (hedges ht t).2 hm⟩
  edges := fun e he t => (ha.edges e (hc.timing ▸ he) t).trans (hc.edges he t)
  declared := ha.declared.trans hc.declared
  agree := fun host host' h => ha.agree host host' (hc.agree h)
  signals := fun t => by
    rw [ha.signals, hc.get?]
    by_cases ht : t = s
    · subst ht
      simp [hs, hx, settledSignal, hv]
    · simp [ht, beginning]

theorem Awaited.tasks_ne (ha : w.Awaited) (l : List Task) : w.tasks ≠ l ++ [.flush, .flush] := by
  intro ht
  have htask := ha.task
  rw [ht, List.countP_append] at htask
  simp only [List.countP_cons, List.countP_nil, Task.isFlush, if_true] at htask
  split at htask <;> omega

theorem Orderly.commits (ho : w.Orderly host) (ht : w.tasks = l.map .commit ++ tail) :
    ∃ u, u.Orderly host ∧ w.AllCommitted u l ∧ (u.tasks = tail ∨ u.tasks = tail ++ [.flush]) ∧
      ∀ host', w.Agree host host' → ∀ n c,
        w.run (drainSteps host' (n + l.length) c) = u.run (drainSteps host' n (c + l.length)) := by
  induction l generalizing w tail with
  | nil => exact ⟨w, ho, .refl w, .inl ht, fun _ _ _ _ => rfl⟩
  | cons s l ih =>
    have ht' : w.tasks = .commit s :: (l.map .commit ++ tail) := ht
    obtain ⟨x, v, w', hx, hv, hrun, hc, ho'⟩ := ho.commit ht'
    have hs : s ∉ l := by
      have hnodup := ho.queued.nodup
      have hhead : Task.commit? (.commit s) = some s := rfl
      rw [ht', List.filterMap_cons_some hhead, List.filterMap_append,
        List.filterMap_map] at hnodup
      intro hm
      refine (List.nodup_cons.1 hnodup).1 (List.mem_append_left _ ?_)
      exact List.mem_filterMap.2 ⟨s, hm, rfl⟩
    have hstep (host' : Host) (ha : w.Agree host host') (n c : Nat) :
        w.run (drainSteps host' (n + (l.length + 1)) c) =
          w'.run (drainSteps host' (n + l.length) (c + 1)) := by
      have hrun' := hrun host' ha
      simp only [beginning] at hrun'
      simp only [drainSteps, run_bind, run_get, ht', run_modify, runTask, hrun']
      rfl
    -- A commit may add a flush behind the tail; the next ones find it there and add no other.
    obtain ⟨tail', htail, hw'⟩ : ∃ tail', (tail' = tail ∨ tail' = tail ++ [.flush]) ∧
        w'.tasks = l.map .commit ++ tail' := by
      rcases hc.tasks with h | h
      · exact ⟨tail, .inl rfl, h⟩
      · exact ⟨tail ++ [.flush], .inr rfl, by simpa [beginning] using h⟩
    obtain ⟨u, hou, ha, htasks, hdrain⟩ := ih ho' hw'
    refine ⟨u, hou, .cons hc hx hv hs ha, ?_, fun host' hagree n c => ?_⟩
    · rcases htail with rfl | rfl
      · exact htasks
      · rcases htasks with h | h
        · exact .inr h
        · exact absurd (h.trans (List.append_assoc ..)) (hou.awaited.tasks_ne tail)
    · rw [List.length_cons, hstep host' hagree, hdrain host' (hc.agree hagree)]
      congr 2
      omega

end World

end FineGrain
