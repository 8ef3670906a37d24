import FineGrain.Proofs.Propagation.Spreading
/-!
Changes in layers spread until everything is consistent. Code that keeps to its licence ends, since what
it writes spreads; and a write spreads, since whoever has read the signal runs code that writes signals
of higher rank only.
-/

namespace FineGrain

open Act

namespace World.Private

variable {g : World → World}

theorem inert (hg : Private g) : Inert g where
  effects := hg.effects
  nodes w := by rw [hg.graph]
  blind := hg.blind
  value w k := by rw [World.value, World.value, hg.signals]
  next := hg.next

theorem still (hg : Private g) (s : Stage) : s.Still ⟨g s.world, s.reads⟩ where
  effects e := by rw [hg.effects]
  observers := by rw [hg.graph]
  names := hg.names s.world
  handles k := by rw [hg.handles]
  borrows k := by rw [hg.signals]
  next := hg.next s.world

end World.Private

namespace Layers

variable {L : Layers} {s : Stage} {k n : Nat} {l : Licence} {scope : String → Option Handle}

theorem Performs.privately {g : World → World} (hs : L.Good s) (hg : World.Private g) :
    L.Performs s (modify g) := by
  have hst := hg.still s
  refine ⟨⟨⟩, ⟨g s.world, s.reads⟩, hg.inert.plays, ⟨hst, fun e he => hg.inert.stale.1 he⟩, ?_⟩
  exact hg.inert.good hs fun _ _ hc => hst.calls hc

theorem Grants.lending (h : L.Grants scope n l s) (hk : ∀ j, l.written j → L.rank k < L.rank j) :
    L.Grants scope n l ⟨s.world.lending k, s.reads⟩ where
  names := h.names
  tracked := h.tracked
  busy j y hy hw := by
    obtain ⟨x, hx, rfl⟩ := Store.of_modify hy
    refine h.busy j x hx ?_
    split at hw <;> exact hw
  beyond := h.beyond
  free j hj i y hy := by
    obtain ⟨x, hx, rfl⟩ := Store.of_modify hy
    obtain ⟨hwriting, hreaders⟩ := h.free j hj i x hx
    split
    next hi => exact ⟨hwriting, fun _ => hi ▸ hk j hj⟩
    next => exact ⟨hwriting, hreaders⟩
  cost := h.cost

theorem Grants.silent (h : L.Grants scope n l s) : L.Grants scope n l.silent s :=
  ⟨h.names, h.tracked, h.busy, fun _ hk => hk.elim, fun _ hk => hk.elim, fun _ hk => hk.elim⟩

theorem Grants.hidden (h : L.Grants scope n l s) :
    L.Grants scope n l.unobserved
      ⟨{ s.world with graph := s.world.graph.hideObservers }, s.reads⟩ :=
  ⟨h.names, fun _ he => (by cases he), h.busy, h.beyond, h.free, h.cost⟩

theorem Grants.changing {m : Nat} (h : L.Grants scope n l s) (hopen : L.Open s k m) :
    L.Grants scope n (l.within k) (changing s k) where
  names := h.names
  tracked := h.tracked
  busy j y hy hw := by
    obtain ⟨x, hx, rfl⟩ := Store.of_modify hy
    split at hw
    next hj => exact hj
    next =>
      rw [(hopen.free j x hx).1] at hw
      cases hw
  beyond _ hk := hk.elim
  free _ hk := hk.elim
  cost _ hk := hk.elim

theorem Grants.holding (h : L.Grants scope n l s) (number : Nat) :
    L.Grants scope n l ⟨s.world.holding number, s.reads⟩ :=
  ⟨fun name handle hn => World.calls_holding (h.names name handle hn), h.tracked, h.busy, h.beyond,
    h.free, h.cost⟩

theorem Grants.opens {m : Nat} (h : L.Grants scope n l s) (hk : l.written k) (hm : n ≤ m) :
    L.Open s k m :=
  ⟨h.beyond k hk, h.free k hk, Nat.le_trans (h.cost k hk) hm⟩

theorem Performs.of_keeps {α : Type} {a : Act α} (h : Keeps L scope n l a)
    (hwrites : ∀ k, l.written k → L.Spreads k) (hg : L.Grants scope n l s) (hs : L.Good s) :
    L.Performs s a := by
  -- Only `set` and `update` spread a change; everything else leaves the stage good by itself.
  induction h generalizing s with
  | pure v => exact .pure hs v
  | bind _ _ iha ihf =>
    exact (iha hwrites hg hs).bind fun v t hst ht => ihf v hwrites (hg.still hst.toStill) ht
  | look blind _ ih => exact .look blind (ih s.world hwrites hg hs)
  | privately hp => exact .privately hs hp
  | read hbusy => exact .read hs fun x hx => Bool.eq_false_iff.2 fun hw => hbusy (hg.busy _ x hx hw)
  | track hk => exact .track hs fun e he => hg.tracked e he _ hk
  | borrow hbusy hrank _ ih =>
    refine .borrowing hs (fun x hx => Bool.eq_false_iff.2 fun hw => hbusy (hg.busy _ x hx hw)) ?_
    exact fun v t hst ht => ih v hwrites ((hg.still hst).lending hrank) ht
  | untracked _ ih =>
    refine .untracked hs fun t ht hgood => ih hwrites ?_ hgood
    have hhidden := hg.hidden
    exact ⟨ht ▸ hhidden.names, ht ▸ hhidden.tracked, ht ▸ hhidden.busy, ht ▸ hhidden.beyond,
      ht ▸ hhidden.free, hhidden.cost⟩
  | silently _ ih => exact ih (fun _ hk => hk.elim) hg.silent hs
  | set v hk hm => exact (hwrites _ hk).set hs (hg.opens hk hm) v
  | update hk hm _ ih =>
    refine (hwrites _ hk).update hs (hg.opens hk hm) fun v hgood => ?_
    exact ih v (fun _ hj => hj.elim) (hg.changing (hg.opens hk hm)) hgood
  | operate hname hop _ ih =>
    exact .operate hs (hg.names _ _ hname) hop fun number hgood => ih hwrites (hg.holding number) hgood

/-- Every change spreads. The induction is on the rank from above: those who have read the signal write
only signals ranked above it. -/
theorem spreads (L : Layers) (k : Nat) : L.Spreads k := by
  induction hlevel : L.levels - L.rank k using Nat.strongRecOn generalizing k with
  | ind level ih =>
    subst hlevel
    intro s n hs hopen
    have habove {e j : Nat} (hread : L.reads e k) (hj : L.writes e j) : L.Spreads j := by
      have hrank := L.above e k j hread hj
      have hbound := L.bounded j
      exact ih (L.levels - L.rank j) (by omega) j rfl
    have hdepth : n = n - L.depth + L.depth :=
      (Nat.sub_add_cancel (Nat.le_trans (L.depth_le_cost k) hopen.cost)).symm
    have hrun (e : NodeId) (hread : L.reads e k) (hlive : (s.world.effects.get? e).isSome) (t : Stage)
        (hst : s.Still t) (ht : L.Good t) :
        ∃ u, Plays t (runEffect (.ofDepth n) e) ⟨⟩ u ∧ t.Steady u ∧ L.Good u ∧ ¬ u.Stale e := by
      obtain ⟨x, hx⟩ := Option.isSome_iff_exists.1 hlive
      have hxt : t.world.effects.get? e = some x := (hst.effects e).trans hx
      obtain ⟨body, scope, hbody, hscope, hkeeps⟩ := (ht.governs e x hxt).code
      refine ht.run_effect hxt (hopen.idle hread hx) hbody ?_
      rw [hdepth]
      exact .of_keeps (hkeeps _) (fun j hj => habove hread hj)
        (((hopen.still hst).ready hread).grants hscope x.providers) (ht.starting x.providers)
    have hreads {e : NodeId} : e ∈ s.world.graph.subscribers k ↔ ∃ v, (k, v) ∈ s.reads e :=
      (hs.sound.symm k e).trans (hs.edges e k)
    obtain ⟨t, hplays, hst, ht, hcaught⟩ := hs.run_effects
      (l := ((s.world.graph.subscribers k).filter fun e => (s.world.effects.get? e).isSome).mergeSort
        (· ≤ ·)) fun e he t hst ht => by
        obtain ⟨hsub, hlive⟩ := List.mem_filter.1 (List.mem_mergeSort.1 he)
        obtain ⟨v, hv⟩ := hreads.1 hsub
        exact hrun e (hs.reads e k v hv) hlive t hst ht
    refine ⟨t, .look (fun _ => rfl) ((plays_sortOut hs _).bind hplays), hst, ht, fun e he v hv => ?_⟩
    refine hcaught e (List.mem_mergeSort.2 (List.mem_filter.2 ⟨hreads.2 ⟨v, hv⟩, ?_⟩)) he
    exact hst.effects e ▸ he.1

end Layers

end FineGrain
