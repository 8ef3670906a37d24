import FineGrain.Proofs.Memo.Rerun
import FineGrain.Proofs.World.Spread
/-!
How memos and hooks are wired to effects, when their code only looks. The run of a memo's effect
changes its value and its own edges, and leaves the edges of all hooks alone.
-/

namespace FineGrain

open Act

def HookSlot.list (y : HookSlot) : List Dependency := y.dependencies.getD []

namespace World

/-- The code of memos and hooks only looks. -/
structure Quiet (host : Host) (w : World) : Prop where
  factories : ∀ k x body, w.memos.get? k = some x → x.factory = .compute body →
    Looks w.scope (host.call body [])
  bodies : ∀ h y, w.hooks.get? h = some y → Looks w.scope (host.call y.body [])
  cleanups : ∀ h y body, w.hooks.get? h = some y → y.onCleanup = some body →
    ∀ v, Looks w.scope (host.call body [v])

/-- Two hosts run the factories of memos alike. -/
def Agree (w : World) (host host' : Host) : Prop :=
  ∀ k x body, w.memos.get? k = some x → x.factory = .compute body →
    host'.call body [] = host.call body []

/-- Every effect belongs to a memo or to a live hook, and every live hook has its effect. No hook is
running, and a cleanup that is kept is the one that its hook was created with. -/
structure Wired (w : World) : Prop where
  readers : ∀ k x, w.memos.get? k = some x → x.readers = 0
  running : ∀ h y, w.hooks.get? h = some y → y.running = false
  cleanup : ∀ h y c, w.hooks.get? h = some y → y.cleanup = some c → y.onCleanup = some c.body
  effects : ∀ e x, w.effects.get? e = some x →
    (∃ k, x.computation = .memo k) ∧ x.timing = .render ∨
    ∃ h y, x.computation = .hook h ∧ x.timing = .deferred ∧ w.hooks.get? h = some y ∧
      y.effect = e ∧ y.disposed = false
  hooks : ∀ h y, w.hooks.get? h = some y → y.disposed = false →
    ∃ x, w.effects.get? y.effect = some x ∧ x.computation = .hook h ∧ x.timing = .deferred

variable {host : Host} {w w' w'' : World} {e : NodeId} {s h : Nat} {x : Effect} {y : HookSlot}

theorem Wired.timing (hw : w.Wired) (hy : w.hooks.get? h = some y) (hlive : y.disposed = false) :
    w.timing? y.effect = some .deferred := by
  obtain ⟨x, hx, _, ht⟩ := hw.hooks h y hy hlive
  simp [timing?, hx, ht]

theorem Wired.hook_unique {h' : Nat} {y' : HookSlot} (hw : w.Wired)
    (hy : w.hooks.get? h = some y) (hlive : y.disposed = false)
    (hy' : w.hooks.get? h' = some y') (hlive' : y'.disposed = false)
    (he : y.effect = y'.effect) : h = h' := by
  obtain ⟨x, hx, hcomp, _⟩ := hw.hooks h y hy hlive
  obtain ⟨x', hx', hcomp', _⟩ := hw.hooks h' y' hy' hlive'
  rw [he] at hx
  obtain rfl : x = x' := by simpa [hx] using hx'
  simpa [hcomp] using hcomp'

/-- A world in which some memos have been computed anew. -/
structure Recomputed (w w' : World) : Prop where
  rest : w' = { w with
    log := w'.log
    refs := w'.refs
    graph := w'.graph
    memos := w'.memos }
  log : w.log <+: w'.log
  observers : w'.graph.observers = w.graph.observers
  pending : w'.graph.pending = w.graph.pending
  flushQueued : w'.graph.flushQueued = w.graph.flushQueued
  sound : w.graph.Sound → w'.graph.Sound
  edges : ∀ e, w.timing? e = some .deferred → ∀ s, e ∈ w'.graph.subscribers s ↔
    e ∈ w.graph.subscribers s
  memos : ∀ k, ∃ cache, w'.memos.get? k =
    (w.memos.get? k).map fun x => { x with cache := cache }

theorem Recomputed.refl (w : World) : w.Recomputed w where
  rest := rfl
  log := List.prefix_rfl
  observers := rfl
  pending := rfl
  flushQueued := rfl
  sound := id
  edges := fun _ _ _ => Iff.rfl
  memos := fun k => by
    cases h : w.memos.get? k with
    | none => exact ⟨none, rfl⟩
    | some x => exact ⟨x.cache, rfl⟩

theorem Recomputed.timing (hr : w.Recomputed w') : w'.timing? = w.timing? := by
  funext e
  rw [timing?, hr.rest, timing?]

theorem Recomputed.trans (hr : w.Recomputed w') (hr' : w'.Recomputed w'') : w.Recomputed w'' where
  rest := by
    rw [hr'.rest, hr.rest]
  log := hr.log.trans hr'.log
  observers := hr'.observers.trans hr.observers
  pending := hr'.pending.trans hr.pending
  flushQueued := hr'.flushQueued.trans hr.flushQueued
  sound := hr'.sound ∘ hr.sound
  edges := fun e he s => (hr'.edges e (hr.timing ▸ he) s).trans (hr.edges e he s)
  memos := fun k => by
    obtain ⟨c, hc⟩ := hr.memos k
    obtain ⟨c', hc'⟩ := hr'.memos k
    exact ⟨c', by rw [hc', hc]; cases w.memos.get? k <;> rfl⟩

theorem Recomputed.idle (hr : w.Recomputed w') (hi : w.Idle) : w'.Idle where
  calm := by
    rw [hr.rest]
    exact hi.calm
  probes := by
    rw [hr.rest]
    exact hi.probes
  sound := hr.sound hi.sound
  rest := by
    rw [hr.rest]
    exact hi.rest
  observers := hr.observers.trans hi.observers

theorem Recomputed.scope (hr : w.Recomputed w') : w'.scope = w.scope := by
  rw [hr.rest]
  rfl

theorem Recomputed.memo {k : Nat} {x' : Memo} (hr : w.Recomputed w')
    (hx : w'.memos.get? k = some x') :
    ∃ x, w.memos.get? k = some x ∧ x'.factory = x.factory ∧ x'.readers = x.readers ∧
      x'.dependencies = x.dependencies := by
  obtain ⟨c, hc⟩ := hr.memos k
  rw [hx] at hc
  obtain ⟨x, hx', rfl⟩ := Option.map_eq_some_iff.1 hc.symm
  exact ⟨x, hx', rfl, rfl, rfl⟩

theorem Recomputed.agree {host' : Host} (hr : w.Recomputed w') (ha : w.Agree host host') :
    w'.Agree host host' := by
  intro k x' body hx' hbody
  obtain ⟨x, hx, hfactory, _⟩ := hr.memo hx'
  exact ha k x body hx (hfactory ▸ hbody)

theorem Recomputed.declared (hr : w.Recomputed w') : w'.declared = w.declared := by
  funext d
  cases d with
  | memo k =>
    obtain ⟨c, hc⟩ := hr.memos k
    simp only [World.declared, hc]
    cases w.memos.get? k <;> rfl
  | probe p => rw [hr.rest]; rfl
  | _ => rfl

theorem Recomputed.quiet (hr : w.Recomputed w') (hq : w.Quiet host) : w'.Quiet host where
  factories := fun k x' body hx' hbody => by
    obtain ⟨x, hx, hfactory, _⟩ := hr.memo hx'
    exact hr.scope ▸ hq.factories k x body hx (hfactory ▸ hbody)
  bodies := fun h y hy => by
    rw [hr.rest] at hy
    exact hr.scope ▸ hq.bodies h y hy
  cleanups := fun h y body hy => by
    rw [hr.rest] at hy
    exact hr.scope ▸ hq.cleanups h y body hy

theorem Recomputed.wired (hr : w.Recomputed w') (hw : w.Wired) : w'.Wired where
  readers := fun k x' hx' => by
    obtain ⟨x, hx, _, hreaders, _⟩ := hr.memo hx'
    exact hreaders.trans (hw.readers k x hx)
  running := by
    rw [hr.rest]
    exact hw.running
  cleanup := by
    rw [hr.rest]
    exact hw.cleanup
  effects := fun e x hx => by
    rw [hr.rest] at hx ⊢
    exact hw.effects e x hx
  hooks := fun h y hy => by
    rw [hr.rest] at hy ⊢
    exact hw.hooks h y hy

theorem Recomputed.of_finished {u : World} {memos : Store Memo} (hi : w.Idle)
    (ht : w.timing? e = some .render) (hl : (w.starting e x.providers).Looked u)
    (hm : ∀ k, ∃ cache, memos.get? k =
      (w.memos.get? k).map fun x => { x with cache := cache }) :
    w.Recomputed (w.finished { u with memos := memos }) := by
  obtain ⟨lines, refs, sources, rfl⟩ := hl
  have hobs := Graph.observers_trackAll sources
    (g := (w.graph.clearDependencies e).pushObserver e)
  refine ⟨rfl, List.prefix_append .., ?_, ?_, ?_, fun hs => ?_, fun e' he' t => ?_, hm⟩
  · simp only [finished, starting, Graph.popObserver, hobs]
    simp [Graph.pushObserver]
  · simp [finished, starting, Graph.popObserver, Graph.pending_trackAll, Graph.pushObserver]
  · simp [finished, starting, Graph.popObserver, Graph.flushQueued_trackAll,
      Graph.pushObserver]
  · have hs' := ((hs.clear e).congr (k := (w.graph.clearDependencies e).pushObserver e)
      rfl).trackAll sources
    exact hs'.congr rfl
  · have hne : e' ≠ e := by
      rintro rfl
      simp [ht] at he'
    simp only [finished, starting, subscribers_popObserver]
    rw [hi.sound.mem_subscribers_afresh]
    simp [hne]

theorem Quiet.run_produce {u : World} {k : Nat} {z : Memo} (hq : w.Quiet host)
    (hk : w.memos.get? k = some z) (hs : u.scope = w.scope) (hc : u.Calm)
    (hp : u.probes = .empty) :
    ∃ next u', (∀ host', w.Agree host host' →
      u.run (produce host' z.factory) = (.ok next, u')) ∧ u.Looked u' := by
  cases hz : z.factory with
  | compute body =>
    obtain ⟨v, u', hv, hl⟩ := hq.factories k z body hk hz u hs hc hp
    refine ⟨.value v, u', fun host' ha => ?_, hl⟩
    rw [produce, ha k z body hk hz, run_bind_ok hv, run_pure]
  | function body => exact ⟨.function body, u, fun _ _ => rfl, .refl u⟩

theorem run_recompute (hi : w.Idle) (hq : w.Quiet host) (hw : w.Wired)
    (ht : w.timing? e = some .render) :
    ∃ w', (∀ host', w.Agree host host' → w.run (runEffect host' e) = (.ok ⟨⟩, w')) ∧
      w.Recomputed w' := by
  obtain ⟨x, hx, htiming⟩ : ∃ x, w.effects.get? e = some x ∧ x.timing = .render := by
    simpa [timing?] using ht
  obtain ⟨k, hcomp⟩ : ∃ k, x.computation = .memo k := by
    rcases hw.effects e x hx with ⟨hk, _⟩ | ⟨_, _, _, hdeferred, _⟩
    · exact hk
    · rw [htiming] at hdeferred
      cases hdeferred
  let u := w.starting e x.providers
  -- Only the cache of the one memo may change while its factory runs.
  obtain ⟨u', memos, hrun, hl, hm⟩ : ∃ u' memos,
      (∀ host', w.Agree host host' →
        u.run (compute host' x.computation) = (.ok ⟨⟩, { u' with memos := memos })) ∧
      u.Looked u' ∧
      ∀ k, ∃ cache, memos.get? k = (w.memos.get? k).map fun x => { x with cache := cache } := by
    rw [hcomp]
    cases hk : w.memos.get? k with
    | none =>
      refine ⟨u, w.memos, fun host' _ => ?_, .refl u, (Recomputed.refl w).memos⟩
      have hk' : u.memos.get? k = none := hk
      simp [compute, run_bind, hk']
      rfl
    | some z =>
      obtain ⟨next, u', hnext, hl⟩ := hq.run_produce hk (u := u) rfl hi.calm hi.probes
      have hsame : u'.memos = w.memos := by
        obtain ⟨_, _, _, rfl⟩ := hl
        rfl
      refine ⟨u', _, fun host' ha => run_compute_memo (w := u) hk
        (hnext host' ha) hsame fun _ => hw.readers k z hk, hl, fun j => ?_⟩
      rw [hsame, Store.get?_modify]
      by_cases hj : j = k
      · exact ⟨some next, by simp [hj]⟩
      · obtain ⟨c, hc⟩ := (Recomputed.refl w).memos j
        exact ⟨c, by simpa [hj] using hc⟩
  have hsame : u'.effects = u.effects := by
    obtain ⟨_, _, _, rfl⟩ := hl
    rfl
  exact ⟨_, fun host' ha => run_runEffect hi.rest hx (hrun host' ha) hsame,
    .of_finished hi ht hl hm⟩

theorem run_recomputes (hi : w.Idle) (hq : w.Quiet host) (hw : w.Wired) {l : List NodeId}
    (hl : ∀ e ∈ l, w.timing? e = some .render) :
    ∃ w', (∀ host', w.Agree host host' → w.run (runEffects host' l) = (.ok ⟨⟩, w')) ∧
      w.Recomputed w' := by
  induction l generalizing w with
  | nil => exact ⟨w, fun _ _ => rfl, .refl w⟩
  | cons e rest ih =>
    obtain ⟨w₁, hrun, hr⟩ := run_recompute hi hq hw (hl e (by simp))
    obtain ⟨w', hrun', hr'⟩ := ih (hr.idle hi) (hr.quiet hq) (hr.wired hw)
      fun e he => hr.timing ▸ hl e (by simp [he])
    refine ⟨w', fun host' ha => ?_, hr.trans hr'⟩
    rw [run_runEffects_cons (hrun host' ha), hrun' host' (hr.agree ha)]

end World

end FineGrain
