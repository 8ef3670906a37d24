import FineGrain.Proofs.Memo.Family
/-!
Runs of the effects that recompute memos. A run changes the value and the subscriptions of its own
memo; when all that are subscribed to a changed state have run, oldest first, every member is fresh.
-/

namespace FineGrain

open Act

namespace World

variable {host : Host} {w : World} {members older : List Member} {m : Member}
  {σ : Nat → Value}

/-- Nothing is under way. -/
structure Idle (w : World) : Prop where
  calm : w.Calm
  probes : w.probes = .empty
  sound : w.graph.Sound
  rest : w.AtRest
  observers : w.graph.observers = []

/-- The values that the states hold. -/
def committed (w : World) (s : Nat) : Value := ((w.signals.get? s).getD default).value

/-- The world after the effect of a member has run. -/
def rerun (w : World) (m : Member) : World :=
  { w with
    log := w.log ++ m.lines
    graph := ((w.tracked m.reads).foldl Graph.track
      ((w.graph.clearDependencies m.effect).pushObserver m.effect)).popObserver
    memos := w.memos.modify m.memo fun x =>
      { x with cache := some (.value (m.reads.eval w.look)) } }

theorem tracked_congr {u : World} (hp : u.probes = w.probes) (hm : u.memos = w.memos)
    (hl : u.look = w.look) (r : Reads) : u.tracked r = w.tracked r := by
  have hf : u.feeds = w.feeds := by
    funext source
    cases source with
    | state s => rfl
    | memo k => simp only [feeds, hm, sources_congr hp hm]
  rw [tracked, tracked, hl, hf]

theorem run_rerun (h : w.Idle) (hm : w.Holds host m) :
    w.run (runEffect host m.effect) = (.ok ⟨⟩, w.rerun m) := by
  obtain ⟨x, hx, hcomp, htiming⟩ := hm.effect
  obtain ⟨y, body, hy, hfactory, hd, hreaders, hact⟩ := hm.memo
  let u := w.starting m.effect x.providers
  let v : World := { u with log := u.log ++ m.lines }
  have hlook : v.look = w.look := by
    funext source
    cases source <;> rfl
  have hcalm : v.Calm := h.calm
  have htracked : v.tracked m.reads = w.tracked m.reads :=
    tracked_congr (w := w) (u := v) rfl rfl hlook m.reads
  have hcall : u.run (host.call body []) = (.ok (m.reads.eval w.look),
      { u with
        log := u.log ++ m.lines
        graph := (w.tracked m.reads).foldl Graph.track u.graph }) := by
    rw [hact u rfl h.calm h.probes, run_reads hcalm h.probes, hlook, htracked]
  have hproduce : u.run (produce host y.factory) = (.ok (.value (m.reads.eval w.look)),
      { u with
        log := u.log ++ m.lines
        graph := (w.tracked m.reads).foldl Graph.track u.graph }) := by
    rw [hfactory, produce, run_bind_ok hcall, run_pure]
  have hcompute := run_compute_memo (w := u) (m := m.memo) (x := y) hy hproduce rfl
    fun _ => hreaders
  rw [← hcomp] at hcompute
  exact run_runEffect h.rest hx hcompute rfl

@[simp] theorem subscribers_pushObserver (g : Graph) (n s : NodeId) :
    (g.pushObserver n).subscribers s = g.subscribers s := rfl

@[simp] theorem subscribers_popObserver (g : Graph) (s : NodeId) :
    g.popObserver.subscribers s = g.subscribers s := rfl

theorem mem_subscribers_rerun (h : w.graph.Sound) (s : Nat) (e : NodeId) :
    e ∈ (w.rerun m).graph.subscribers s ↔
      e ≠ m.effect ∧ e ∈ w.graph.subscribers s ∨ e = m.effect ∧ s ∈ w.tracked m.reads := by
  simp only [rerun, subscribers_popObserver]
  exact h.mem_subscribers_afresh (w.tracked m.reads) m.effect s e

theorem look_rerun (hm : w.Holds host m) (source : Source) :
    (w.rerun m).look source =
      if source = .memo m.memo then m.reads.eval w.look else w.look source := by
  obtain ⟨x, _, hx, _⟩ := hm.memo
  cases source with
  | state s => rfl
  | memo k =>
    simp only [look, rerun, Store.get?_modify]
    by_cases hk : k = m.memo
    · subst hk
      simp [hx]
    · simp [hk]

theorem declared_rerun : (w.rerun m).declared = w.declared := by
  funext d
  cases d with
  | memo k =>
    simp only [declared, rerun, Store.get?_modify]
    split
    · cases w.memos.get? k <;> rfl
    · rfl
  | _ => rfl

theorem Idle.rerun (h : w.Idle) (m : Member) : (w.rerun m).Idle where
  calm := h.calm
  probes := h.probes
  sound := by
    have hs := ((h.sound.clear m.effect).congr (k := (w.graph.clearDependencies m.effect).pushObserver
      m.effect) rfl).trackAll (w.tracked m.reads)
    exact hs.congr rfl
  rest := h.rest
  observers := by
    simp [World.rerun, Graph.popObserver, Graph.observers_trackAll, Graph.pushObserver, h.observers]

theorem Reaches.congr {w' : World} (hd : w'.declared = w.declared) {ds : List Dependency} {s : Nat}
    (h : w.Reaches ds s) : w'.Reaches ds s := by
  induction h with
  | state hs => exact .state hs
  | memo hm _ ih => exact .memo hm (hd ▸ ih)

theorem feeds_congr {w' : World} (hd : w'.declared = w.declared) {source : Source} {s : Nat} :
    w'.Feeds source s ↔ w.Feeds source s := by
  cases source with
  | state t => exact Iff.rfl
  | memo k =>
    rw [Feeds, Feeds, hd]
    exact ⟨.congr hd.symm, .congr hd⟩

theorem Holds.rerun {k : Member} (h : w.Holds host k) (m : Member) : (w.rerun m).Holds host k := by
  obtain ⟨⟨x, body, hx, hfactory, hd, hr, hact⟩, heffect⟩ := h
  refine ⟨?_, heffect⟩
  by_cases hk : k.memo = m.memo
  · have hx' : w.memos.get? m.memo = some x := hk ▸ hx
    exact ⟨{ x with cache := some (.value (m.reads.eval w.look)) }, body,
      by simp [World.rerun, Store.get?_modify, hk, hx'], hfactory, hd, hr, hact⟩
  · exact ⟨x, body, by simp [World.rerun, Store.get?_modify, hk, hx], hfactory, hd, hr, hact⟩

theorem Closed.rerun (h : w.Closed older m) (k : Member) : (w.rerun k).Closed older m := by
  refine ⟨h.listed, fun d hd => ?_⟩
  have := h.names d hd
  cases d <;> exact this

theorem Family.rerun (hf : w.Family host members) (m : Member) :
    (w.rerun m).Family host members := by
  induction hf with
  | nil => exact .nil
  | cons hm hc hlt _ ih => exact .cons (hm.rerun m) (hc.rerun m) hlt ih

theorem Fresh.rerun {k : Member} {env : Source → Value} (hs : w.graph.Sound) (hm : w.Holds host m)
    (hmemo : k.memo ≠ m.memo) (heffect : k.effect ≠ m.effect) :
    (w.rerun m).Fresh k env ↔ w.Fresh k env := by
  have hlook : (w.rerun m).look (.memo k.memo) = w.look (.memo k.memo) := by
    simp [look_rerun hm, hmemo]
  have hsub (s : Nat) : k.effect ∈ (w.rerun m).graph.subscribers s ↔
      k.effect ∈ w.graph.subscribers s := by
    simp [mem_subscribers_rerun hs, heffect]
  constructor
  · intro h
    exact ⟨hlook ▸ h.value, fun s => by
      simpa only [hsub, feeds_congr declared_rerun] using h.subscribed s⟩
  · intro h
    exact ⟨hlook ▸ h.value, fun s => by
      simpa only [hsub, feeds_congr declared_rerun] using h.subscribed s⟩

theorem Current.rerun (hs : w.graph.Sound) (hm : w.Holds host m)
    (hlt : ∀ k ∈ older, k.memo < m.memo ∧ k.effect < m.effect) (h : w.Current σ older) :
    (w.rerun m).Current σ older := by
  induction older with
  | nil => trivial
  | cons k older ih =>
    obtain ⟨hmemo, heffect⟩ := hlt k (by simp)
    exact ⟨ih (fun j hj => hlt j (by simp [hj])) h.1,
      (Fresh.rerun hs hm (Nat.ne_of_lt hmemo) (Nat.ne_of_lt heffect)).2 h.2⟩

end World

end FineGrain
