import FineGrain.Proofs.Propagation.Layers
/-!
What code in layers leaves as it was. Around it no effect loses track of a change: whoever has read
something that has changed since had done so before.
-/

namespace FineGrain

open Act

/-- A name stands for a handle that is held. -/
def World.Calls (w : World) (name : String) (handle : Handle) : Prop :=
  ∃ number holders, w.names.lookup name = some number ∧
    w.handles.get? number = some ⟨handle, holders⟩ ∧ 0 < holders

def Signal.borrows (x : Signal) : Nat × Bool := (x.readers, x.writing)

namespace Stage

/-- A live effect has read something that has changed since. -/
def Stale (s : Stage) (e : NodeId) : Prop :=
  (s.world.effects.get? e).isSome ∧ ∃ k v, (k, v) ∈ s.reads e ∧ s.world.value k ≠ v

/-- What code leaves as it was, from `s` to `t`, whatever it writes. -/
structure Still (s t : Stage) : Prop where
  effects : ∀ e, t.world.effects.get? e = s.world.effects.get? e
  observers : t.world.graph.observers = s.world.graph.observers
  names : t.world.names = s.world.names
  handles : ∀ k, t.world.handles.get? k = s.world.handles.get? k
  borrows : ∀ k, (t.world.signals.get? k).map Signal.borrows =
    (s.world.signals.get? k).map Signal.borrows
  next : s.world.next ≤ t.world.next

/-- No effect is left behind from `s` to `t`. -/
structure Steady (s t : Stage) : Prop extends s.Still t where
  stale : ∀ e, t.Stale e → s.Stale e

namespace Still

variable {s t u : Stage}

theorem refl (s : Stage) : s.Still s :=
  ⟨fun _ => rfl, rfl, rfl, fun _ => rfl, fun _ => rfl, Nat.le_refl _⟩

theorem trans (h : s.Still t) (h' : t.Still u) : s.Still u where
  effects e := (h'.effects e).trans (h.effects e)
  observers := h'.observers.trans h.observers
  names := h'.names.trans h.names
  handles k := (h'.handles k).trans (h.handles k)
  borrows k := (h'.borrows k).trans (h.borrows k)
  next := Nat.le_trans h.next h'.next

theorem calls {name : String} {handle : Handle} (h : s.Still t) (hc : s.world.Calls name handle) :
    t.world.Calls name handle := by
  obtain ⟨number, holders, hname, hheld, hpos⟩ := hc
  exact ⟨number, holders, by rw [h.names, hname], by rw [h.handles, hheld], hpos⟩

theorem signal {k : Nat} {y : Signal} (h : s.Still t) (hy : t.world.signals.get? k = some y) :
    ∃ x, s.world.signals.get? k = some x ∧ x.readers = y.readers ∧ x.writing = y.writing := by
  have hb := h.borrows k
  rw [hy] at hb
  obtain ⟨x, hx, hxy⟩ := Option.map_eq_some_iff.1 hb.symm
  exact ⟨x, hx, congrArg Prod.fst hxy, congrArg Prod.snd hxy⟩

end Still

namespace Steady

variable {s t u : Stage}

theorem refl (s : Stage) : s.Steady s := ⟨.refl s, fun _ h => h⟩

theorem trans (h : s.Steady t) (h' : t.Steady u) : s.Steady u :=
  ⟨h.toStill.trans h'.toStill, fun e he => h.stale e (h'.stale e he)⟩

end Steady

end Stage

namespace Layers

variable {L : Layers} {s t : Stage} {e : NodeId} {k n : Nat} {l : Licence}
  {scope : String → Option Handle}

/-- A signal is ranked above whatever the running effects ever read. -/
def Over (L : Layers) (w : World) (k : Nat) : Prop :=
  ∀ e x, w.effects.get? e = some x → x.running = true → ∀ r, L.reads e r → L.rank r < L.rank k

/-- Nothing is changed in place, and what is borrowed is ranked below `k`. -/
def Free (L : Layers) (w : World) (k : Nat) : Prop :=
  ∀ j x, w.signals.get? j = some x → x.writing = false ∧ (x.readers ≠ 0 → L.rank j < L.rank k)

/-- An effect is a render effect whose code, under the names that it relies on, keeps to its licence, and
what it may read has been made. -/
structure Governs (L : Layers) (w : World) (e : NodeId) (x : Effect) : Prop where
  timing : x.timing = .render
  code : ∃ body scope, x.computation = .body body ∧
    (∀ name handle, scope name = some handle → w.Calls name handle) ∧
    ∀ n, Keeps L scope n (L.licence e) ((Host.ofDepth (n + L.depth)).call body [])
  made : ∀ k, L.reads e k → k < w.next

/-- What holds at every point of an execution: the graph lists what the effects have read, and all
effects are governed. -/
structure Good (L : Layers) (s : Stage) : Prop where
  sound : s.world.graph.Sound
  edges : ∀ e k, k ∈ s.world.graph.dependencies e ↔ ∃ v, (k, v) ∈ s.reads e
  reads : ∀ e k v, (k, v) ∈ s.reads e → L.reads e k
  governs : ∀ e x, s.world.effects.get? e = some x → L.Governs s.world e x

/-- Code with a licence and hosts of depth `n` for its writes may go on. -/
structure Grants (L : Layers) (scope : String → Option Handle) (n : Nat) (l : Licence) (s : Stage) :
    Prop where
  names : ∀ name handle, scope name = some handle → s.world.Calls name handle
  tracked : ∀ e, s.world.graph.observer? = some e → ∀ k, l.tracked k → L.reads e k
  busy : ∀ k x, s.world.signals.get? k = some x → x.writing = true → l.busy k
  beyond : ∀ k, l.written k → L.Over s.world k
  free : ∀ k, l.written k → L.Free s.world k
  cost : ∀ k, l.written k → L.cost k ≤ n

theorem Over.still (h : L.Over s.world k) (hst : s.Still t) : L.Over t.world k :=
  fun e x hx => h e x (hst.effects e ▸ hx)

theorem Free.still (h : L.Free s.world k) (hst : s.Still t) : L.Free t.world k := by
  intro j y hy
  obtain ⟨x, hx, hreaders, hwriting⟩ := hst.signal hy
  rw [← hreaders, ← hwriting]
  exact h j x hx

theorem Free.mono {j : Nat} (h : L.Free s.world k) (hj : L.rank k < L.rank j) : L.Free s.world j :=
  fun i x hx => ⟨(h i x hx).1, fun hr => Nat.lt_trans ((h i x hx).2 hr) hj⟩

theorem Governs.congr {w w' : World} {x : Effect} (h : L.Governs w e x)
    (hcalls : ∀ name handle, w.Calls name handle → w'.Calls name handle) (hnext : w.next ≤ w'.next) :
    L.Governs w' e x := by
  obtain ⟨body, scope, hbody, hscope, hkeeps⟩ := h.code
  exact ⟨h.timing, ⟨body, scope, hbody, fun name handle hn => hcalls _ _ (hscope _ _ hn), hkeeps⟩,
    fun k hk => Nat.lt_of_lt_of_le (h.made k hk) hnext⟩

theorem Good.of_still (h : L.Good s) (hst : s.Still t) (sound : t.world.graph.Sound)
    (edges : ∀ e k, k ∈ t.world.graph.dependencies e ↔ ∃ v, (k, v) ∈ t.reads e)
    (reads : ∀ e k v, (k, v) ∈ t.reads e → L.reads e k) : L.Good t :=
  ⟨sound, edges, reads, fun e x hx =>
    (h.governs e x (hst.effects e ▸ hx)).congr (fun _ _ hc => hst.calls hc) hst.next⟩

theorem Good.of_unread (h : L.Good s) (hreads : t.reads = s.reads)
    (hnodes : t.world.graph.nodes = s.world.graph.nodes)
    (hgoverns : ∀ e x, t.world.effects.get? e = some x → L.Governs t.world e x) : L.Good t where
  sound := h.sound.congr hnodes
  edges e k := by
    rw [hreads, ← h.edges, Graph.dependencies, Graph.dependencies, hnodes]
  reads := hreads ▸ h.reads
  governs := hgoverns

theorem Grants.still (h : L.Grants scope n l s) (hst : s.Still t) : L.Grants scope n l t where
  names name handle hn := hst.calls (h.names name handle hn)
  tracked e he := h.tracked e (by rwa [Graph.observer?, hst.observers] at he)
  busy k y hy hw := by
    obtain ⟨x, hx, -, hwriting⟩ := hst.signal hy
    exact h.busy k x hx (hwriting.trans hw)
  beyond k hk := (h.beyond k hk).still hst
  free k hk := (h.free k hk).still hst
  cost := h.cost

end Layers

end FineGrain
