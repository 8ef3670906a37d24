import FineGrain.Proofs.Course.Effects
/-!
The creation of effects, memos and hooks, cleanups, bodies of hooks and the jobs of the phases follow
every course.
-/

namespace FineGrain

open Act

namespace World

variable {w : World} {host : Host} {m : Nat} {v : Cached}

theorem run_bindMemo_eq (w : World) (host : Host) (m : Nat) : w.run (bindMemo host m) = w.run (do
    let first ← match (w.memos.get? m).bind (·.cache) with
      | some v => pure v
      | none => untracked (produce host ((w.memos.get? m).getD default).factory)
    modifyMemo m fun x => { x with cache := some first, bound := true }) := by
  have hcache : (w.memos.get? m).bind (·.cache) = ((w.memos.get? m).getD default).cache := by
    cases w.memos.get? m <;> rfl
  rw [hcache]
  exact run_bind_ok (v := (w.memos.get? m).getD default) rfl _

theorem run_bindMemo (h : (w.memos.get? m).bind (·.cache) = some v) :
    w.run (bindMemo host m) = (.ok ⟨⟩, (Event.memoBound m v).world w) := by
  rw [run_bindMemo_eq, h]
  rfl

end World

namespace Course

variable {α : Type} {p : Prop} {c d : Course} {host : Host} {m h : Nat}

/-- The first run of an effect, at once or in a task of its own. -/
def launch (host : Host) (e : NodeId) : Timing → Act Unit
  | .render => runEffect host e
  | .deferred => queueTask (.firstRun e)

theorem Runs.launch (hh : host.Lawful) {e : NodeId} {timing : Timing}
    (ht : c.world.timing? e = some timing) : c.Runs (launch host e timing) := by
  cases timing with
  | render => exact .runEffect hh (mayStart_render (le_refl c) ht)
  | deferred => exact .step (.firstRunQueued e) trivial trivial rfl rfl

theorem Follows.newEffect (hh : host.Lawful) (timing : Timing) (body : Body) :
    c.Follows (do let e ← fresh; newEffect host e timing (.body body); return Handle.effect e)
      fun h d => d.frames = c.frames ∧ h = .effect c.world.next := by
  let e := c.world.next
  have hmade : c.history.Allows (.effectMade e timing body) := rfl
  refine Follows.step (.effectMade e timing body) hmade trivial
    (b := do Course.launch host e timing; return Handle.effect e) ?_
    (Follows.bind (Runs.launch hh ?_) fun _ _ _ hd => .pure ⟨hd, rfl⟩)
  · cases timing <;> rfl
  · simp [World.timing?, Event.world, Store.get?_put, e]

theorem Runs.memo : c.Runs (memo m) := .look rfl

theorem Runs.cachedValue : c.Runs (cachedValue m) :=
  Runs.memo.bind fun x _ _ _ => by split <;> exact .pure _

theorem Runs.trackMemo : c.Runs (trackMemo m) := Runs.memo.bind fun _ _ _ _ => .trackAll _

theorem Runs.borrowingMemo {inside : Value → Act α} (hin : ∀ v d, c ≤ d → d.Runs (inside v)) :
    c.Runs (borrowingMemo m inside) := by
  refine Runs.trackMemo.bind fun _ d hd _ => Runs.cachedValue.bind fun v d' hd' _ => ?_
  refine Runs.bind (.aside (.onMemo m fun _ => rfl) rfl) fun _ e he _ => ?_
  refine (hin v e (hd.trans (hd'.trans he))).bind fun a _ _ _ => ?_
  exact Runs.bind (.aside (.onMemo m fun _ => rfl) rfl) fun _ _ _ _ => .pure a

theorem Runs.callCached (hh : host.Lawful) (v : Value) : c.Runs (callCached host m v) :=
  Runs.memo.bind fun x d _ _ => by
    split
    · exact hh.call d _ _
    · exact .pure _

theorem Follows.recompute (hh : host.Lawful) (hm : (c.world.memos.get? m).bind (·.cache) = none)
    (htried : c.history.Tried m) :
    c.Follows (untracked (produce host ((c.world.memos.get? m).getD default).factory)) fun v d =>
      d.frames = c.frames ∧
        ∃ observers, ∃ rest : History, d.history = .shown observers :: .recomputed m v :: rest := by
  obtain ⟨n, rfl⟩ := id hh.tower
  let observers := c.world.graph.observers
  let factory := ((c.world.memos.get? m).getD default).factory
  have hnone : (c.push (.hidden observers) rfl).history.Allows (.recomputing m) :=
    Option.isNone_iff_eq_none.2 hm
  refine .step (.hidden observers) rfl trivial (b := do
    let v ← Act.produce (.ofDepth n) factory
    onGraph (·.restoreObservers observers)
    return v) rfl ?_
  refine .stepNeat (.recomputing m) hnone trivial (fun hc => ?_) rfl ?_
  · exact hc.place trivial ⟨observers, c.history, rfl, htried⟩
  · refine Follows.bind (Follows.answered (Runs.produce hh factory)) fun v d _ hans => ?_
    obtain ⟨hd, hrun⟩ := hans
    have hrecomputed : d.history.Allows (.recomputed m v) := ⟨_, head_frames hd, n, hrun⟩
    have hclosed : (d.push (.recomputed m v) hrecomputed).frames =
        .untracked observers :: c.frames := congrArg List.tail hd
    refine .stepNeat (.recomputed m v) hrecomputed trivial
      (fun hc => hc.place trivial ⟨_, observers, c.frames, hd⟩) rfl ?_
    exact .step (.shown observers) (head_frames hclosed) trivial rfl
      (.pure ⟨congrArg List.tail hclosed, observers, d.history, rfl⟩)

/-- The end of the creation of a memo for which its first run has left nothing: the factory runs again. -/
theorem Follows.bindAgain (hh : host.Lawful) (hnone : (c.world.memos.get? m).bind (·.cache) = none)
    (htried : c.history.Tried m) :
    c.Follows (bindMemo host m) fun _ d => d.frames = c.frames ∧ d.history.Born m := by
  refine .of_run_eq (by rw [World.run_bindMemo_eq, hnone]) ((Follows.recompute hh hnone htried).bind ?_)
  rintro v d - ⟨hd, observers, rest, hhistory⟩
  have hbound : d.history.Allows (.memoBound m v) := .inr (by rw [hhistory]; simp)
  exact .stepNeat (b := Pure.pure PUnit.unit) (.memoBound m v) hbound trivial
    (fun hc => hc.place trivial (.inr ⟨observers, rest, hhistory⟩)) rfl (.pure ⟨hd, v, List.mem_cons_self⟩)

/-- The end of the creation of a memo, whose first run is about to end. -/
theorem Leads.bindMemo (hh : host.Lawful) (hp : p → c.Settled)
    (hfinished : c.history.Allows (.finished (m + 1) before))
    (htried : (c.push _ hfinished).history.Tried m) {a : Act Unit}
    (hrun : c.world.run a = (c.push _ hfinished).world.run (Act.bindMemo host m)) :
    c.Leads p a fun _ d =>
      (p → d.Settled) ∧ d.frames = (c.push _ hfinished).frames ∧ d.history.Born m := by
  let c' := c.push _ hfinished
  have hsettled : c'.Settled := History.Ordinary.settled (h := c.history) trivial
  have hpunctual (hp' : p) (hc : c.Punctual) : c'.Punctual := hc.push (.ordinary (hp hp') trivial)
  cases hcache : (c'.world.memos.get? m).bind (·.cache) with
  | some v =>
    have hbound : c'.history.Allows (.memoBound m v) := .inl (by
      rw [show (c'.history.world.memos.get? m).bind (·.cache) = some v from hcache]
      rfl)
    have hkeeps (hp' : p) : c.Keeps (c'.push _ hbound) :=
      ⟨fun hc => (hpunctual hp' hc).push (.ordinary hsettled trivial),
        fun hc => hc.bindMemo hfinished hbound (.inl ⟨htried, hcache⟩)⟩
    refine .begin ((le_push hfinished).trans (le_push hbound)) hkeeps (b := Pure.pure ⟨⟩) ?_ (.pure ?_)
    · rw [hrun, World.run_bindMemo hcache]
      rfl
    · exact ⟨fun _ => History.Ordinary.settled (h := c'.history) trivial, rfl, v, List.mem_cons_self⟩
  | none =>
    obtain ⟨d, hle, hkeeps, hw, hans⟩ := Follows.bindAgain hh hcache htried
    refine ⟨d, (le_push hfinished).trans hle, fun hp' => ⟨fun hc => ?_, fun hc => ?_⟩, hrun ▸ hw,
      fun v hv => ?_⟩
    · exact (hkeeps hsettled).punctual (hpunctual hp' hc)
    · -- The first run has left something, if whatever refers to a memo refers to one that is bound.
      obtain ⟨-, -, -, v, hv⟩ := (tended hc.faithful).tried hfinished htried
      cases hcache.symm.trans hv
    · obtain ⟨hset, hd, hborn⟩ := hans v (hrun ▸ hv)
      exact ⟨fun _ => hset hsettled, hd, hborn⟩

theorem Follows.newMemo (hh : host.Lawful) (factory : Factory) {ds : List Dependency}
    (hds : c.Neat → c.history.Knows ds) :
    c.Follows (newMemo host factory ds) fun m d => d.frames = c.frames ∧ d.history.Born m := by
  let m := c.world.next
  obtain ⟨n, rfl⟩ := id hh.tower
  have hmade : c.history.Allows (.memoMade m factory ds) := rfl
  let c₀ := c.push _ hmade
  have hx : c₀.world.effects.get? (m + 1) = some ⟨.memo m, .render, c.world.providers, false⟩ := by
    simp [c₀, Event.world, Store.get?_put, m]
  have hm : c₀.world.memos.get? m = some ⟨factory, none, false, ds, m + 1, 1, 0⟩ := by
    simp [c₀, Event.world, Store.get?_put, m]
  have hstarted : c₀.history.Allows (.started (m + 1) n c.world.providers c₀.world.providers) :=
    ⟨rfl, _, hx, rfl, rfl⟩
  -- The effect of a memo is run as soon as it is made, and before the memo is bound to anything.
  let c₁ := c₀.push _ hstarted
  have hstart : c₀.history.MayStart (m + 1) :=
    mayStart_render (le_refl _) (by simp [World.timing?, hx])
  have hsettled : c₁.Settled := History.Ordinary.settled (h := c₀.history) hstart
  have hkeeps (hs : c.Settled) : c.Keeps c₁ := by
    refine ⟨fun hc => ?_, fun hc => hc.makeMemo (hds hc) hmade hstarted⟩
    have hc₀ : c₀.Punctual := hc.push (.ordinary hs trivial)
    exact hc₀.push (.ordinary (History.Ordinary.settled (h := c.history) trivial) hstart)
  have hframes : c₁.frames = .effect (m + 1) c₀.world.providers n (.memo m) c₁.world :: c.frames :=
    frames_started hstarted hx
  have hrun : c.world.run (Act.newMemo (.ofDepth n) factory ds) = c₁.world.run (do
      Act.compute (.ofDepth n) (.memo m)
      let _ ← (do
        modify fun u => { u with providers := c₀.world.providers }
        onGraph (·.popObserver)
        modifyEffect (m + 1) fun x => { x with running := false }
        Act.bindMemo (.ofDepth n) m : Act Unit)
      return m) := by
    have hfirst : c.world.run (Act.newMemo (.ofDepth n) factory ds) = c₀.world.run (do
        Act.runEffect (.ofDepth n) (m + 1)
        Act.bindMemo (.ofDepth n) m
        return m) := by
      simp only [Act.newMemo, Act.newEffect, World.run_bind, World.run_fresh, World.run_modify,
        Event.world, m, c₀, world_push]
    rw [hfirst, World.run_bind, World.run_runEffect_starting _ hx rfl, ← World.run_bind]
    simp only [bind_assoc]
    rfl
  refine .begin ((le_push hmade).trans (le_push hstarted)) hkeeps hrun ?_
  refine (Follows.leads (fun _ => hsettled) (Follows.answered (Runs.compute hh rfl hx hstarted))).bind ?_
  rintro _ d - ⟨hset, hd, hanswered⟩
  have hfinished := allows_finished hx hstarted hd hanswered
  have htried : (d.push _ hfinished).history.Tried m :=
    ⟨_, _, n, c₁.world, _, d.history, rfl, head_frames (hd.trans hframes), hm, rfl⟩
  have hpopped : (d.push _ hfinished).frames = c.frames := by
    rw [frames_push, Event.frames, hd, hframes]
    rfl
  refine (Leads.bindMemo hh hset hfinished htried rfl).bind fun _ u _ hans => .pure ?_
  obtain ⟨hsettled, hu, hborn⟩ := hans
  exact ⟨hsettled, hu.trans hpopped, hborn⟩

theorem Runs.newHook (phase : Hook.Phase) (body : Body) (onCleanup : Option Body)
    {ds : Option (List Dependency)} (hds : c.Neat → ∀ l, ds = some l → c.history.Knows l) :
    c.Runs (newHook host phase body onCleanup ds) := by
  let h := c.world.next
  have hmade : c.history.Allows (.hookMade h phase body onCleanup ds) := rfl
  refine Follows.stepNeat (.hookMade h phase body onCleanup ds) hmade trivial
    (fun hc => .of_founded (hc.toFounded.push hmade trivial nofun (hds hc)) hc nofun nofun)
    (b := do queueTask (.firstRun (h + 1)); return h) ?_
    (Runs.bind (.step (.firstRunQueued (h + 1)) trivial trivial rfl rfl) fun _ _ _ _ => .pure _)
  simp only [Act.newHook, Act.newEffect, World.run_bind, World.run_fresh,
    World.run_modify, Event.world, h]

theorem Runs.runCleanup (hh : host.Lawful) (h : Nat) : c.Runs (runCleanup host h) := by
  refine .get ?_
  cases hx : (c.world.hooks.get? h).bind (·.cleanup) with
  | none => exact .pure _
  | some x =>
    obtain ⟨n, rfl⟩ := id hh.tower
    exact .bracket (.cleanupBegun h x) (.cleanup h x _) ((Host.ofDepth n).call x.body [x.argument])
      (fun _ => return ⟨⟩) hx trivial rfl rfl (hh.call _ _ _)
      fun v _ _ hd hrun => .close (.cleanupEnded h) ⟨x, _, v, head_frames hd, n, hrun⟩ trivial hd rfl rfl

theorem Runs.disposeHook (hh : host.Lawful) (h : Nat) : c.Runs (disposeHook host h) := by
  refine .get ?_
  cases hx : c.world.hooks.get? h with
  | none => exact .pure _
  | some x =>
    dsimp only
    cases hd : x.disposed with
    | true => exact .pure _
    | false =>
      exact Runs.bind (.step (.hookDisposed h) ⟨x, hx, hd⟩ trivial rfl rfl) fun _ _ _ _ =>
        Runs.bind (.disposeEffect _) fun _ _ _ _ => .runCleanup hh h

theorem Leads.runCleanup (hh : host.Lawful) {x : Cleanup}
    (hx : (c.world.hooks.get? h).bind (·.cleanup) = some x)
    (hdue : p → c.history.Due (.cleanupBegun h x)) :
    c.Leads p (Act.runCleanup host h) fun _ d =>
      d.history.head? = some (.cleanupEnded h) ∧ d.frames = c.frames := by
  obtain ⟨n, rfl⟩ := id hh.tower
  refine .bracket (.cleanupBegun h x) (.cleanup h x _) ((Host.ofDepth n).call x.body [x.argument])
    (fun _ => return ⟨⟩) hx hdue trivial id rfl ?_ (hh.call _ _ _) fun v d _ hs hd hrun => ?_
  · rw [Act.runCleanup, World.run_bind_ok c.world.run_get, hx]
    rfl
  · have hended : d.history.Allows (.cleanupEnded h) := ⟨x, _, v, head_frames hd, n, hrun⟩
    exact .step (.cleanupEnded h) hended (fun hp => .ordinary (hs hp) trivial) trivial
      (b := Pure.pure ⟨⟩) rfl (.pure ⟨rfl, congrArg List.tail hd⟩)

theorem Leads.runBody (hh : host.Lawful) {x : HookSlot} (hx : c.world.hooks.get? h = some x)
    (hready : p → c.history.Ready h) : c.Leads p (runBody host h) fun _ d =>
      ((∃ providers c', d.history.head? = some (.bodyEnded h providers c')) ∨
        d.history.head? = some (.bodySkipped h)) ∧ d.frames = c.frames := by
  cases hr : x.running with
  | true =>
    refine .step (.bodySkipped h) ⟨x, hx, hr⟩ (fun hp => .bodySkipped (hready hp)) trivial
      (b := Pure.pure ⟨⟩) ?_ (.pure ⟨.inr rfl, rfl⟩)
    simp [Act.runBody, World.run_bind, hx, hr, Event.world]
  | false =>
    let before := c.world.providers
    obtain ⟨n, rfl⟩ := id hh.tower
    refine .bracket (.bodyBegun h x.providers before) (.hookBody h before _)
      ((Host.ofDepth n).call x.body [])
      (fun v => do
        modify fun w => { w with providers := before }
        modifyHook h fun y => { y with running := false, cleanup := Act.answered x.onCleanup v })
      ⟨rfl, x, hx, hr, rfl⟩ (fun hp => .bodyBegun (hready hp)) trivial id rfl ?_ (hh.call _ _ _)
      fun v d _ hs hd hrun => ?_
    · simp [Act.runBody, Act.providing, World.run_bind, modifyHook, Event.world, before, hx, hr]
    · have hstart : ((Event.bodyBegun h x.providers before).world c.world).hooks.get? h =
          some { x with running := true } := by
        simp [Event.world, Store.get?_modify, hx]
      have hended : d.history.Allows (.bodyEnded h before (Act.answered x.onCleanup v)) :=
        ⟨_, _, v, head_frames hd, hstart, ⟨n, hrun⟩, rfl⟩
      exact .step _ hended (fun hp => .bodyEnded (hs hp)) trivial (b := Pure.pure ⟨⟩) rfl
        (.pure ⟨.inl ⟨_, _, rfl⟩, congrArg List.tail hd⟩)

/-- The job of a hook that is no longer queued. -/
def job (host : Host) (h : Nat) : Act Unit := do
  match (← MonadState.get).hooks.get? h with
  | none => return
  | some x =>
      if x.disposed then return
      else
        Act.runCleanup host h
        Act.runBody host h

theorem Leads.job (hh : host.Lawful) (hp : p → c.history.head? = some (.jobBegun h))
    (hc : ∃ start, c.frames.head? = some (.job h start)) : c.Leads p (job host h) fun _ d =>
      (p → d.history.Due (.jobDone h)) ∧ d.frames = c.frames := by
  refine .get ?_
  cases hx : c.world.hooks.get? h with
  | none =>
    refine .pure ⟨fun hp' => .idle (hp hp') fun x h' => ?_, rfl⟩
    cases hx.symm.trans h'
  | some x =>
    dsimp only
    cases hd : x.disposed with
    | true =>
      refine .pure ⟨fun hp' => .idle (hp hp') fun y h' => ?_, rfl⟩
      obtain rfl : x = y := Option.some.inj (hx.symm.trans h')
      exact hd
    | false =>
      have hcell : (c.world.hooks.get? h).bind (·.cleanup) = x.cleanup := by rw [hx]; rfl
      cases hc' : x.cleanup with
      | none =>
        refine .of_run_eq (b := Act.runBody host h) ?_ ((Leads.runBody hh hx fun hp' =>
          .inl ⟨hp hp', x, hx, hd, hc'⟩).mono fun _ _ _ he => ⟨fun _ => .jobDone he.1, he.2⟩)
        have hnone : c.world.run (Act.runCleanup host h) = (.ok ⟨⟩, c.world) := by
          rw [Act.runCleanup, World.run_bind_ok c.world.run_get, hcell, hc']
          rfl
        exact World.run_bind_ok hnone _
      | some x' =>
        refine (Leads.runCleanup hh (hcell.trans hc') fun hp' => .cleaning (hp hp') hx hd).bind
          fun _ d hle hans => ?_
        obtain ⟨hhead, hframes⟩ := hans
        obtain ⟨y, hy, -⟩ := hook_stays hle hx
        refine (Leads.runBody hh hy fun _ => .inr ⟨hhead, ?_⟩).mono fun _ _ _ he =>
          ⟨fun _ => .jobDone he.1, he.2.trans hframes⟩
        rw [show d.history.frames = c.frames from hframes]
        exact hc

theorem Leads.runJobs (hh : host.Lawful) (n : Nat) : ∀ c : Course,
    (∃ start, c.frames.head? = some (.task .phases start)) → (p → c.history.AtJobs) →
    c.Leads p (runJobs host n) fun _ d =>
      (p → d.history.Due (.taskDone .phases)) ∧ d.frames = c.frames := by
  induction n with
  | zero => exact fun _ _ _ => .of_error rfl
  | succ n ih =>
    intro c hc hp
    cases hpop : c.world.phases.pop.1 with
    | none =>
      refine .step .phasesOver ⟨hc, hpop⟩ (fun hp' => .phasesOver (hp hp')) trivial (b := Pure.pure ⟨⟩) ?_
        (.pure ⟨fun _ => .phasesDone rfl, rfl⟩)
      simp [Act.runJobs, World.run_bind, hpop, Event.world]
    | some h =>
      obtain ⟨k, rfl⟩ := id hh.tower
      let start : World := { c.world with phases := c.world.phases.pop.2 }
      have hjob : start.run (runHook (.ofDepth k) h) =
          ((Event.jobBegun h).world c.world).run (Course.job (.ofDepth k) h) := rfl
      refine .step (.jobBegun h) ⟨hc, hpop⟩ (fun hp' => .jobBegun (hp hp')) trivial
        (b := do Course.job (.ofDepth k) h; Act.runJobs (.ofDepth k) n) ?_ ?_
      · simp only [Act.runJobs, World.run_bind, World.run_get, hpop]
        rfl
      refine (Leads.answered (Leads.job hh (fun _ => rfl) ⟨start, rfl⟩)).bind fun _ d _ hans => ?_
      obtain ⟨⟨hdue, hd⟩, hrun⟩ := hans
      have hframes : d.frames = .job h start :: c.frames := hd
      have hallowed : d.history.Allows (.jobDone h) := ⟨start, head_frames hframes, k, hjob.trans hrun⟩
      have hdone : (d.push (.jobDone h) hallowed).frames = c.frames := congrArg List.tail hframes
      refine .step (.jobDone h) hallowed hdue trivial (b := Act.runJobs (.ofDepth k) n) rfl ?_
      refine (ih _ (by rw [hdone]; exact hc) fun _ => .inr ⟨h, rfl⟩).mono fun _ _ _ he =>
        ⟨he.1, he.2.trans hdone⟩

end Course

end FineGrain
