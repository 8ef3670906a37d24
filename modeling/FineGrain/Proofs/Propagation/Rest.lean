import Mathlib
import FineGrain.Proofs.Propagation.Consistency
/-!
Systems at rest: signals and render effects in layers, put together one by one. A write at rest ends, no
effect is asked to run while it is running, and afterwards the system is at rest again, so that what
each effect has read in its last run is what the signals hold.
-/

namespace FineGrain

open Act

/-- What code outside of effects may do. -/
def Licence.free : Licence := ⟨fun _ => False, fun _ => True, fun _ => True⟩

namespace Layers

/-- A system at rest: nothing runs or is borrowed, nobody observes, and whatever an effect has read in
its last run is what the signal holds. -/
structure AtRest (L : Layers) (s : Stage) : Prop extends L.Good s where
  played : s.Played
  idle : ∀ e x, s.world.effects.get? e = some x → x.running = false
  unborrowed : ∀ k x, s.world.signals.get? k = some x → x.writing = false ∧ x.readers = 0
  unobserved : s.world.graph.observers = []
  consistent : ∀ e, (s.world.effects.get? e).isSome → ∀ k v, (k, v) ∈ s.reads e →
    s.world.value k = v

variable {L : Layers} {s t : Stage} {k n : Nat} {e : NodeId} {scope : String → Option Handle}

theorem over_of_idle {w : World} (h : ∀ e x, w.effects.get? e = some x → x.running = false) (k : Nat) :
    L.Over w k := by
  intro e x hx hrunning
  rw [h e x hx] at hrunning
  cases hrunning

theorem free_of_unborrowed {w : World}
    (h : ∀ k x, w.signals.get? k = some x → x.writing = false ∧ x.readers = 0) (k : Nat) :
    L.Free w k :=
  fun j x hx => ⟨(h j x hx).1, fun hne => absurd (h j x hx).2 hne⟩

namespace AtRest

theorem not_stale (h : L.AtRest s) (e : NodeId) : ¬ s.Stale e := by
  rintro ⟨hlive, k, v, hmem, hv⟩
  exact hv (h.consistent e hlive k v hmem)

theorem grants (h : L.AtRest s) {l : Licence}
    (hscope : ∀ name handle, scope name = some handle → s.world.Calls name handle)
    (hcost : ∀ k, l.written k → L.cost k ≤ n) : L.Grants scope n l s where
  names := hscope
  tracked e he := by
    rw [Graph.observer?, h.unobserved] at he
    cases he
  busy k x hx hw := by
    rw [(h.unborrowed k x hx).1] at hw
    cases hw
  beyond k _ := over_of_idle h.idle k
  free k _ := free_of_unborrowed h.unborrowed k
  cost := hcost

theorem opens (h : L.AtRest s) (hn : L.cost k ≤ n) : L.Open s k n :=
  ⟨over_of_idle h.idle k, free_of_unborrowed h.unborrowed k, hn⟩

theorem steady {α : Type} {a : Act α} {v : α} (h : L.AtRest s) (hplays : Plays s a v t)
    (hst : s.Steady t) (ht : L.Good t) : L.AtRest t where
  toGood := ht
  played := .act h.played hplays
  idle e x hx := h.idle e x (hst.effects e ▸ hx)
  unborrowed k y hy := by
    obtain ⟨x, hx, hreaders, hwriting⟩ := hst.signal hy
    rw [← hreaders, ← hwriting]
    exact h.unborrowed k x hx
  unobserved := hst.observers.trans h.unobserved
  consistent e hlive k v hmem := by
    refine Classical.byContradiction fun hv => h.not_stale e (hst.stale e ?_)
    exact ⟨hlive, k, v, hmem, hv⟩

theorem start (L : Layers) : L.AtRest .start where
  sound := Graph.Sound.empty
  edges _ _ := by simp [Stage.start, Graph.dependencies, World.empty, Graph.empty, Store.get?,
    Store.empty, Store.lookup]
  reads _ _ _ h := by cases h
  governs _ _ h := by cases h
  played := .start
  idle _ _ h := by cases h
  unborrowed _ _ h := by cases h
  unobserved := rfl
  consistent _ h := by cases h

theorem grown {α : Type} {a : Act α} {v : α} {w : World} (h : L.AtRest s)
    (hplays : Plays s a v ⟨w, s.reads⟩) (heffects : w.effects = s.world.effects)
    (hgraph : w.graph = s.world.graph) (hnext : s.world.next ≤ w.next)
    (hcalls : ∀ name handle, s.world.Calls name handle → w.Calls name handle)
    (hsignals : ∀ k x, w.signals.get? k = some x → x.writing = false ∧ x.readers = 0)
    (hvalue : ∀ k < s.world.next, w.value k = s.world.value k) : L.AtRest ⟨w, s.reads⟩ where
  toGood := h.of_unread rfl (by rw [hgraph]) fun e x hx =>
    (h.governs e x (heffects ▸ hx)).congr hcalls hnext
  played := .act h.played hplays
  idle e x hx := h.idle e x (heffects ▸ hx)
  unborrowed := hsignals
  unobserved := by rw [hgraph, h.unobserved]
  consistent e hlive k v hmem := by
    rw [heffects] at hlive
    obtain ⟨x, hx⟩ := Option.isSome_iff_exists.1 hlive
    rw [hvalue k ((h.governs e x hx).made k (h.reads e k v hmem))]
    exact h.consistent e hlive k v hmem

theorem signal (h : L.AtRest s) (v : Value) (clones : Nat) :
    ∃ t, Plays s (newSignal v clones) s.world.next t ∧ L.AtRest t ∧
      ∀ name handle, s.world.Calls name handle → t.world.Calls name handle := by
  have hplays : Plays s (newSignal v clones) s.world.next
      ⟨{ s.world with
        next := s.world.next + 1
        signals := s.world.signals.put s.world.next ⟨v, clones, 0, false, false, none⟩ },
      s.reads⟩ :=
    .apart ⟨fun _ => rfl, fun _ => rfl, fun _ => rfl⟩ rfl
  refine ⟨_, hplays, h.grown hplays rfl rfl (Nat.le_succ _) (fun _ _ hc => hc) (fun k x hx => ?_)
    fun k hk => ?_, fun _ _ hc => hc⟩
  · rcases Store.of_put hx with ⟨-, rfl⟩ | hx
    · exact ⟨rfl, rfl⟩
    · exact h.unborrowed k x hx
  · simp only [World.value, Store.get?_put, if_neg (Nat.ne_of_lt hk)]

theorem named (h : L.AtRest s) (host : Host) (name : String) (handle : Handle)
    (hname : s.world.names.lookup name = none)
    (hnumber : s.world.handles.get? s.world.next = none) :
    ∃ t, Plays s (Act.bind host name handle) ⟨⟩ t ∧ L.AtRest t ∧ t.world.Calls name handle ∧
      ∀ name handle, s.world.Calls name handle → t.world.Calls name handle := by
  let w : World := { s.world with
    next := s.world.next + 1
    handles := s.world.handles.put s.world.next ⟨handle, 1⟩
    names := (name, s.world.next) :: s.world.names.filter (·.1 != name) }
  have hplays : Plays s (Act.bind host name handle) ⟨⟩ ⟨w, s.reads⟩ := by
    refine .bind (t := ⟨{ s.world with next := s.world.next + 1 }, s.reads⟩) (v := s.world.next)
      (.apart ⟨fun _ => rfl, fun _ => rfl, fun _ => rfl⟩ rfl) ?_
    refine .bind (t := ⟨{ s.world with
        next := s.world.next + 1
        names := s.world.names.filter (·.1 != name) }, s.reads⟩) (v := s.world.names.lookup name)
      (.apart ⟨fun _ => rfl, fun _ => rfl, fun _ => rfl⟩ rfl) ?_
    refine .bind (.change (fun _ => rfl) (fun _ => rfl) fun _ => rfl) ?_
    rw [hname]
    exact .pure _
  -- The new name hides no other one and takes a number that nothing has, so older handles stay what
  -- they were.
  have hcalls : ∀ name handle, s.world.Calls name handle → w.Calls name handle := by
    rintro other handle' ⟨number, holders, hlookup, hheld, hpos⟩
    have hother : other ≠ name := by
      rintro rfl
      rw [hname] at hlookup
      cases hlookup
    have hne : number ≠ s.world.next := by
      rintro rfl
      rw [hnumber] at hheld
      cases hheld
    have hfilter (l : List (String × Nat)) :
        (l.filter (·.1 != name)).lookup other = l.lookup other := by
      induction l with
      | nil => rfl
      | cons p rest ih => grind [List.lookup]
    refine ⟨number, holders, ?_, ?_, hpos⟩
    · simp [w, List.lookup, beq_false_of_ne hother, hfilter, hlookup]
    · simp only [w, Store.get?_put, if_neg hne, hheld]
  refine ⟨_, hplays, h.grown hplays rfl rfl (Nat.le_succ _) hcalls h.unborrowed fun _ _ => rfl, ?_,
    hcalls⟩
  refine ⟨s.world.next, 1, ?_, ?_, Nat.one_pos⟩
  · simp [w]
  · simp only [w, Store.get?_put, if_true]

def makeEffect (host : Host) (body : Body) : Act NodeId := do
  let e ← fresh
  newEffect host e .render (.body body)
  return e

theorem effect (h : L.AtRest s) (body : Body)
    (hscope : ∀ name handle, scope name = some handle → s.world.Calls name handle)
    (hkeeps : ∀ n, Keeps L scope n (L.licence s.world.next) ((Host.ofDepth (n + L.depth)).call body []))
    (hmade : ∀ k, L.reads s.world.next k → k < s.world.next) (hcost : ∀ k, L.cost k ≤ n) :
    ∃ t, Plays s (makeEffect (.ofDepth (n + L.depth)) body) s.world.next t ∧ L.AtRest t ∧
      ∀ name handle, s.world.Calls name handle → t.world.Calls name handle := by
  let e := s.world.next
  let x : Effect := ⟨.body body, .render, s.world.providers, false⟩
  let made : Stage :=
    ⟨{ s.world with next := e + 1, effects := s.world.effects.put e x }, s.reads⟩
  have hget : made.world.effects.get? e = some x := by
    simp only [made, Store.get?_put, if_true]
  have hold {o : NodeId} {y : Effect} (hy : made.world.effects.get? o = some y) :
      (o = e ∧ y = x) ∨ s.world.effects.get? o = some y := Store.of_put hy
  have hidle (o : NodeId) (y : Effect) (hy : made.world.effects.get? o = some y) :
      y.running = false := by
    rcases hold hy with ⟨-, rfl⟩ | hy
    · rfl
    · exact h.idle o y hy
  -- The new effect has read nothing yet, so that nothing can be stale for it; its own run does the
  -- rest.
  have hgood : L.Good made := by
    refine h.of_unread rfl rfl fun o y hy => ?_
    rcases hold hy with ⟨rfl, rfl⟩ | hy
    · exact ⟨rfl, ⟨body, scope, rfl, hscope, hkeeps⟩, fun k hk => Nat.lt_succ_of_lt (hmade k hk)⟩
    · exact (h.governs o y hy).congr (fun _ _ hc => hc) (Nat.le_succ _)
  have hready : L.Ready n e made :=
    ⟨fun k y hy => (h.unborrowed k y hy).1, fun k _ => over_of_idle hidle k,
      fun k _ => free_of_unborrowed h.unborrowed k, fun k _ => hcost k⟩
  obtain ⟨t, hplays, hst, ht, hcaught⟩ := hgood.run_effect hget rfl rfl
    (.of_keeps (hkeeps n) (fun k _ => spreads L k) (hready.grants hscope x.providers)
      (hgood.starting x.providers))
  have hwhole : Plays s (makeEffect (.ofDepth (n + L.depth)) body) s.world.next t := by
    refine .bind (t := ⟨{ s.world with next := e + 1 }, s.reads⟩) (v := e)
      (.apart ⟨fun _ => rfl, fun _ => rfl, fun _ => rfl⟩ rfl) (.bind (v := ⟨⟩) ?_ (.pure _))
    exact .bind (.create e .render (.body body)) hplays
  refine ⟨t, hwhole, ?_, fun _ _ hc => hst.calls (s := made) hc⟩
  exact {
    toGood := ht
    played := .act h.played hwhole
    idle := fun o y hy => hidle o y (hst.effects o ▸ hy)
    unborrowed := fun k y hy => by
      obtain ⟨z, hz, hreaders, hwriting⟩ := hst.signal hy
      rw [← hreaders, ← hwriting]
      exact h.unborrowed k z hz
    unobserved := hst.observers.trans h.unobserved
    consistent := fun o hlive k v hmem => by
      refine Classical.byContradiction fun hv => ?_
      have hstale : t.Stale o := ⟨hlive, k, v, hmem, hv⟩
      obtain ⟨hlive', hmissed⟩ := hst.stale o hstale
      obtain ⟨y, hy⟩ := Option.isSome_iff_exists.1 hlive'
      rcases hold hy with ⟨rfl, -⟩ | hy
      · exact hcaught hstale
      · exact h.not_stale o ⟨Option.isSome_of_mem hy, hmissed⟩ }

end AtRest

end Layers

/-- Propagation ends in a consistent state. Where signals and render effects in layers are at rest, a
write to a signal ends, and so does a change in place by code that reads what it likes except the signal
itself. No effect is asked to run while it is running, and the system is at rest again: every value that
an effect has read in its last run is what the signal holds. -/
theorem propagation_consistent {L : Layers} {s : Stage} (h : L.AtRest s) (k : Nat) {n : Nat}
    (hn : L.cost k ≤ n) :
    (∀ v, ∃ t, Plays s (setSignal (.ofDepth n) k v) ⟨⟩ t ∧
      s.world.run (setSignal (.ofDepth n) k v) = (.ok ⟨⟩, t.world) ∧ L.AtRest t) ∧
    (∀ scope next, (∀ name handle, scope name = some handle → s.world.Calls name handle) →
      (∀ v, Keeps L scope n (Licence.free.within k) (next v)) →
      ∃ t, Plays s (updateSignal (.ofDepth n) k next) ⟨⟩ t ∧
        s.world.run (updateSignal (.ofDepth n) k next) = (.ok ⟨⟩, t.world) ∧ L.AtRest t) := by
  have hopen : L.Open s k n := h.opens hn
  have hrest {a : Act Unit} (ha : L.Performs s a) :
      ∃ t, Plays s a ⟨⟩ t ∧ s.world.run a = (.ok ⟨⟩, t.world) ∧ L.AtRest t := by
    obtain ⟨⟨⟩, t, hplays, hst, ht⟩ := ha
    exact ⟨t, hplays, hplays.run_eq, h.steady hplays hst ht⟩
  refine ⟨fun v => hrest ((L.spreads k).set h.toGood hopen v), fun scope next hscope hnext => hrest ?_⟩
  refine (L.spreads k).update h.toGood hopen fun v hgood => ?_
  have hgrants : L.Grants scope n Licence.free.silent s :=
    h.grants hscope fun _ hk => hk.elim
  exact .of_keeps (hnext v) (fun _ hj => hj.elim) (hgrants.changing hopen) hgood

/-- Where `b` follows `a` and an effect reads `b` only if it finds `a` to be true. -/
theorem propagation_consistent_chain : ∃ (L : Layers) (s t : Stage), L.AtRest s ∧ L.cost 0 ≤ 27 ∧
    Plays s (setSignal (.ofDepth 27) 0 (.integer 5)) ⟨⟩ t ∧ L.AtRest t ∧
    t.world.graph.dependencies 5 = [0, 2] ∧ (t.world.value 2).toInt = 6 := by
  let read (name : String) : Expr := .on name "get" .get
  let follow : Expr := .on "b" "set" (.set (.arithmetic .add (read "a") (.value (.integer 1))))
  let look : Expr := .branch (read "a") (read "b") (.value .null)
  -- The effect 4 copies signal 0 into signal 2, and the effect 5 reads both of them.
  let L : Layers :=
    { levels := 2
      rank := fun s => if s = 0 then 0 else 1
      reads := fun e r => e = 4 ∧ r = 0 ∨ e = 5 ∧ (r = 0 ∨ r = 2)
      writes := fun e s => e = 4 ∧ s = 2
      depth := 9
      bounded := fun s => by grind
      above := fun e r s => by grind }
  let scope (name : String) : Option Handle :=
    if name = "a" then some (.signal 0) else if name = "b" then some (.signal 2) else none
  have hfollow (n : Nat) : Keeps L scope n (L.licence 4) ((Host.ofDepth (n + 9)).call follow []) :=
    .assign (s := 2) rfl ⟨rfl, rfl⟩ (by omega)
      (.arithmetic (.get (s := 0) rfl (.inl ⟨rfl, rfl⟩) id) (.value _))
  have hlook (n : Nat) : Keeps L scope n (L.licence 5) ((Host.ofDepth (n + 9)).call look []) :=
    .branch (.get (s := 0) rfl (.inr ⟨rfl, .inl rfl⟩) id) (.get (s := 2) rfl (.inr ⟨rfl, .inr rfl⟩) id)
      (.value _)
  have hcost (k : Nat) : L.cost k ≤ 18 := L.cost_le k
  have world_eq {α : Type} {s t : Stage} {a : Act α} {v : α} (h : Plays s a v t) :
      (s.world.run a).2 = t.world := congrArg Prod.snd h.run_eq
  obtain ⟨s₁, hs₁, h₁, -⟩ := (Layers.AtRest.start L).signal (.integer 1) 1
  have hw₁ := world_eq hs₁
  obtain ⟨s₂, hs₂, h₂, ha, -⟩ := h₁.named (.ofDepth 0) "a" (.signal 0)
    (by rw [← hw₁]; decide +kernel) (Option.isNone_iff_eq_none.1 (by rw [← hw₁]; decide +kernel))
  have hw₂ := world_eq hs₂
  rw [← hw₁] at hw₂
  obtain ⟨s₃, hs₃, h₃, hcalls₃⟩ := h₂.signal (.integer 1) 1
  have hw₃ := world_eq hs₃
  rw [← hw₂] at hw₃
  obtain ⟨s₄, hs₄, h₄, hb, hcalls₄⟩ := h₃.named (.ofDepth 0) "b" (.signal 2)
    (by rw [← hw₃]; decide +kernel) (Option.isNone_iff_eq_none.1 (by rw [← hw₃]; decide +kernel))
  have hw₄ := world_eq hs₄
  rw [← hw₃] at hw₄
  have hscope₄ (name : String) (handle : Handle) (hn : scope name = some handle) :
      s₄.world.Calls name handle := by
    grind
  have hnext₄ : s₄.world.next = 4 := by rw [← hw₄]; decide +kernel
  obtain ⟨s₅, hs₅, h₅, hcalls₅⟩ := h₄.effect (n := 18) follow hscope₄
    (by rw [hnext₄]; exact hfollow) (by grind) hcost
  have hw₅ := world_eq hs₅
  rw [← hw₄] at hw₅
  have hnext₅ : s₅.world.next = 5 := by rw [← hw₅]; decide +kernel
  obtain ⟨s₆, hs₆, h₆, -⟩ := h₅.effect (n := 18) look
    (fun name handle hn => hcalls₅ name handle (hscope₄ name handle hn))
    (by rw [hnext₅]; exact hlook) (by grind) hcost
  have hw₆ := world_eq hs₆
  rw [← hw₅] at hw₆
  have hn : L.cost 0 ≤ 27 := Nat.le_trans (hcost 0) (by decide)
  obtain ⟨t, ht, -, hrest⟩ := (propagation_consistent h₆ 0 hn).1 (.integer 5)
  have hw := world_eq ht
  rw [← hw₆] at hw
  refine ⟨L, s₆, t, h₆, hn, ht, hrest, ?_, ?_⟩
  · rw [← hw]; cbv
  · rw [← hw]; cbv

end FineGrain
