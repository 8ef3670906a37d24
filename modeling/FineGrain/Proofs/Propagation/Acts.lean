import FineGrain.Proofs.Propagation.Steady
/-!
Reading, borrowing and the operations on names, as code in layers does them.
-/

namespace FineGrain

open Act

/-- A change of the world that concerns neither effects nor who reads what nor what signals hold. -/
structure World.Inert (g : World → World) : Prop where
  effects : ∀ w, (g w).effects = w.effects
  nodes : ∀ w, (g w).graph.nodes = w.graph.nodes
  blind : ∀ w, g w.rested = (g w).rested
  value : ∀ w k, (g w).value k = w.value k
  next : ∀ w, w.next ≤ (g w).next

/-- A signal is borrowed once more. -/
def World.lending (w : World) (k : Nat) : World :=
  { w with signals := w.signals.modify k fun x => { x with readers := x.readers + 1 } }

/-- A handle is held once more. -/
def World.holding (w : World) (number : Nat) : World :=
  { w with handles := w.handles.modify number fun x => { x with holders := x.holders + 1 } }

theorem World.calls_holding {w : World} {number : Nat} {name : String} {handle : Handle}
    (h : w.Calls name handle) : (w.holding number).Calls name handle := by
  obtain ⟨k, holders, hname, hheld, hpos⟩ := h
  simp only [Calls, holding, Store.get?_modify, hname, Option.some.injEq]
  by_cases hk : k = number
  · exact ⟨k, holders + 1, rfl, by rw [if_pos hk, hheld]; rfl, Nat.succ_pos _⟩
  · exact ⟨k, holders, rfl, by rw [if_neg hk, hheld], hpos⟩

/-- Executed at `s`, an act ends, and everything is steady. -/
def Layers.Performs {α : Type} (L : Layers) (s : Stage) (a : Act α) : Prop :=
  ∃ v t, Plays s a v t ∧ s.Steady t ∧ L.Good t

namespace Layers.Performs

variable {α β : Type} {L : Layers} {s : Stage} {a : Act α} {f : α → Act β} {k n m : Nat} {l : Licence}
  {scope : String → Option Handle}

theorem pure (hs : L.Good s) (v : α) : L.Performs s (Pure.pure v) := ⟨v, s, .pure v, .refl s, hs⟩

theorem bind (ha : L.Performs s a)
    (hf : ∀ v t, s.Steady t → L.Good t → L.Performs t (f v)) : L.Performs s (a >>= f) := by
  obtain ⟨v, t, hplays, hst, ht⟩ := ha
  obtain ⟨x, u, hplays', htu, hu⟩ := hf v t hst ht
  exact ⟨x, u, hplays.bind hplays', hst.trans htu, hu⟩

theorem look {g : World → Act α} (blind : ∀ w, g w.rested = g w) (hg : L.Performs s (g s.world)) :
    L.Performs s (MonadState.get >>= g) := by
  obtain ⟨v, t, hplays, hst, ht⟩ := hg
  exact ⟨v, t, .look blind hplays, hst, ht⟩

end Layers.Performs

namespace Stage

variable {L : Layers} {s : Stage} {k : Nat} {l : Licence}

theorem steady_tracking (s : Stage) (k : Nat) : s.Steady (s.tracking k) where
  effects _ := rfl
  observers := Graph.observers_track _ k
  names := rfl
  handles _ := rfl
  borrows _ := rfl
  next := Nat.le_refl _
  stale e he := by
    obtain ⟨hlive, j, v, hmem, hv⟩ := he
    refine ⟨hlive, j, v, ?_, hv⟩
    simp only [tracking] at hmem
    split at hmem
    · rcases List.mem_append.1 hmem with hmem | hmem
      · exact hmem
      · obtain ⟨rfl, rfl⟩ := Prod.mk.inj (List.mem_singleton.1 hmem)
        exact absurd rfl hv
    · exact hmem

theorem good_tracking (hs : L.Good s)
    (hk : ∀ e, s.world.graph.observer? = some e → L.reads e k) : L.Good (s.tracking k) := by
  refine hs.of_still (steady_tracking s k).toStill (hs.sound.track k) (fun e j => ?_) (fun e j v hmem => ?_)
  · simp only [tracking]
    by_cases he : s.world.graph.observer? = some e
    · rw [Graph.dependencies_track _ e k e he, if_pos rfl, if_pos he, Graph.mem_addOnce, hs.edges]
      simp only [List.mem_append, List.mem_singleton, Prod.mk.injEq]
      constructor
      · rintro (rfl | ⟨v, hv⟩)
        · exact ⟨_, .inr ⟨rfl, rfl⟩⟩
        · exact ⟨v, .inl hv⟩
      · rintro ⟨v, hv | ⟨rfl, -⟩⟩
        · exact .inr ⟨v, hv⟩
        · exact .inl rfl
    · rw [Graph.dependencies_track_of_ne _ k he, if_neg he]
      exact hs.edges e j
  · simp only [tracking] at hmem
    split at hmem
    next he =>
      rcases List.mem_append.1 hmem with hmem | hmem
      · exact hs.reads e j v hmem
      · obtain ⟨rfl, -⟩ := Prod.mk.inj (List.mem_singleton.1 hmem)
        exact hk e he
    next => exact hs.reads e j v hmem

end Stage

namespace World.Inert

variable {L : Layers} {s : Stage} {g : World → World} {e : NodeId}

theorem plays (hg : Inert g) : Plays s (modify g) ⟨⟩ ⟨g s.world, s.reads⟩ :=
  .change hg.effects hg.nodes hg.blind

theorem stale (hg : Inert g) : (⟨g s.world, s.reads⟩ : Stage).Stale e ↔ s.Stale e := by
  simp only [Stage.Stale, hg.effects, hg.value]

theorem good (hg : Inert g) (hs : L.Good s)
    (hcalls : ∀ name handle, s.world.Calls name handle → (g s.world).Calls name handle) :
    L.Good ⟨g s.world, s.reads⟩ :=
  hs.of_unread rfl (hg.nodes _) fun e x hx =>
    (hs.governs e x (hg.effects _ ▸ hx)).congr hcalls (hg.next _)

theorem signal (k : Nat) (f : Signal → Signal) (hf : ∀ x, (f x).value = x.value) :
    Inert fun w => { w with signals := w.signals.modify k f } where
  effects _ := rfl
  nodes _ := rfl
  blind _ := rfl
  value w j := by
    simp only [World.value, Store.get?_modify]
    split
    · cases w.signals.get? j with
      | none => rfl
      | some x => exact hf x
    · rfl
  next _ := Nat.le_refl _

theorem graph (f : Graph → Graph) (hf : ∀ g, (f g).nodes = g.nodes) :
    Inert fun w => { w with graph := f w.graph } :=
  ⟨fun _ => rfl, fun w => hf w.graph, fun _ => rfl, fun _ _ => rfl, fun _ => Nat.le_refl _⟩

theorem handles (f : Store Held → Store Held) : Inert fun w => { w with handles := f w.handles } :=
  ⟨fun _ => rfl, fun _ => rfl, fun _ => rfl, fun _ _ => rfl, fun _ => Nat.le_refl _⟩

end World.Inert

namespace Layers.Performs

variable {α : Type} {L : Layers} {s : Stage} {a : Act α} {k n m : Nat} {l : Licence}
  {scope : String → Option Handle} {g back : World → World}

theorem around {close : Act Unit} (hs : L.Good s) (hg : World.Inert g) (hback : World.Inert back)
    (hcalls : ∀ name handle, s.world.Calls name handle → (g s.world).Calls name handle)
    (ha : L.Good ⟨g s.world, s.reads⟩ → L.Performs ⟨g s.world, s.reads⟩ a)
    (hclose : ∀ t, Stage.Still ⟨g s.world, s.reads⟩ t →
      Plays t close ⟨⟩ ⟨back t.world, t.reads⟩ ∧ s.Still ⟨back t.world, t.reads⟩) :
    L.Performs s (do modify g; let v ← a; close; return v) := by
  obtain ⟨v, t, hplays, hst, ht⟩ := ha (hg.good hs hcalls)
  obtain ⟨hplays', hstill⟩ := hclose t hst.toStill
  refine ⟨v, ⟨back t.world, t.reads⟩, hg.plays.bind (hplays.bind (hplays'.bind (.pure v))),
    ⟨hstill, fun e he => ?_⟩, ?_⟩
  · exact hg.stale.1 (hst.stale e (hback.stale.1 he))
  · exact ht.of_unread rfl (hback.nodes _) fun e x hx =>
      (hs.governs e x (hstill.effects e ▸ hx)).congr (fun _ _ hc => hstill.calls hc) hstill.next

theorem track (hs : L.Good s) (hk : ∀ e, s.world.graph.observer? = some e → L.reads e k) :
    L.Performs s (Act.track k) :=
  ⟨⟨⟩, s.tracking k, .track k, Stage.steady_tracking s k, Stage.good_tracking hs hk⟩

theorem plays_read (hk : ∀ x, s.world.signals.get? k = some x → x.writing = false) :
    Plays s (Act.read k) (s.world.value k) s := by
  refine .bind (.ask fun _ => rfl) ?_
  rw [if_neg]
  · exact .pure _
  · cases hx : s.world.signals.get? k with
    | none => exact Bool.false_ne_true
    | some x => simp [hk x hx]

theorem read (hs : L.Good s) (hk : ∀ x, s.world.signals.get? k = some x → x.writing = false) :
    L.Performs s (Act.read k) :=
  ⟨_, s, plays_read hk, .refl s, hs⟩

theorem borrowing {f : Value → Act α} (hs : L.Good s)
    (hk : ∀ x, s.world.signals.get? k = some x → x.writing = false)
    (hf : ∀ v t, s.Still t → L.Good ⟨t.world.lending k, t.reads⟩ →
      L.Performs ⟨t.world.lending k, t.reads⟩ (f v)) :
    L.Performs s (Act.borrowing k f) := by
  refine (read hs hk).bind fun v t hst ht => ?_
  have hlend : World.Inert (World.lending · k) := .signal k _ fun _ => rfl
  have hback := World.Inert.signal k (fun x => { x with readers := x.readers - 1 }) fun _ => rfl
  refine around ht hlend hback (fun _ _ hc => hc) (hf v t hst.toStill) fun u htu => ⟨hback.plays, ?_⟩
  refine ⟨htu.effects, htu.observers, htu.names, htu.handles, fun j => ?_, htu.next⟩
  have hb := htu.borrows j
  simp only [Store.get?_modify] at hb ⊢
  by_cases hj : j = k
  · rw [if_pos hj] at hb ⊢
    cases hx : t.world.signals.get? j <;> cases hy : u.world.signals.get? j <;>
      simp_all [Signal.borrows]
  · rwa [if_neg hj] at hb ⊢

theorem untracked (hs : L.Good s)
    (ha : ∀ t, t.world = { s.world with graph := s.world.graph.hideObservers } → L.Good t →
      L.Performs t a) : L.Performs s (Act.untracked a) := by
  refine look (fun _ => rfl) ?_
  have hhide := World.Inert.graph Graph.hideObservers fun _ => rfl
  have hback := World.Inert.graph (·.restoreObservers s.world.graph.observers) fun _ => rfl
  refine around hs hhide hback (fun _ _ hc => hc) (ha _ rfl) fun t hst => ⟨hback.plays, ?_⟩
  exact ⟨hst.effects, rfl, hst.names, hst.handles, hst.borrows, hst.next⟩

theorem plays_letGo {host : Host} {number holders : Nat} {handle : Handle}
    (h : s.world.handles.get? number = some ⟨handle, holders + 1⟩) (hpos : 0 < holders) :
    Plays s (letGo host number) ⟨⟩
      ⟨{ s.world with handles := s.world.handles.put number ⟨handle, holders⟩ }, s.reads⟩ := by
  refine .look (fun _ => rfl) ?_
  rw [h]
  dsimp only
  rw [if_neg (Nat.not_le_of_lt (Nat.succ_lt_succ hpos))]
  exact .change (fun _ => rfl) (fun _ => rfl) fun _ => rfl

theorem operate {host : Host} {eval : Expr → Act Value} {name word : String} {op : Operation}
    {handle : Handle} {a : Act Value} (hs : L.Good s) (hname : s.world.Calls name handle)
    (hop : operation? host eval handle op = some a)
    (ha : ∀ number, L.Good ⟨s.world.holding number, s.reads⟩ →
      L.Performs ⟨s.world.holding number, s.reads⟩ a) :
    L.Performs s (Act.operate host eval name word op) := by
  obtain ⟨number, holders, hnumber, hheld, hpos⟩ := hname
  have hfound : Plays s (handle? name) (some (number, handle)) s := by
    refine .look (fun _ => rfl) ?_
    simp only [hnumber, hheld, Option.bind_eq_bind, Option.bind_some]
    exact .pure _
  have hhold : World.Inert (World.holding · number) := .handles (·.modify number _)
  have hback := World.Inert.handles (·.put number ⟨handle, holders⟩)
  have hclose (t : Stage) (hst : Stage.Still ⟨s.world.holding number, s.reads⟩ t) :
      Plays t (letGo host number) ⟨⟩
          ⟨{ t.world with handles := t.world.handles.put number ⟨handle, holders⟩ }, t.reads⟩ ∧
        s.Still ⟨{ t.world with handles := t.world.handles.put number ⟨handle, holders⟩ }, t.reads⟩ := by
    have hnow : t.world.handles.get? number = some ⟨handle, holders + 1⟩ := by
      rw [hst.handles, World.holding, Store.get?_modify, if_pos rfl, hheld]
      rfl
    refine ⟨plays_letGo hnow hpos, ⟨hst.effects, hst.observers, hst.names, fun j => ?_, hst.borrows,
      hst.next⟩⟩
    have hj := hst.handles j
    simp only [World.holding, Store.get?_modify] at hj
    simp only [Store.get?_put]
    split
    next h => rw [h, hheld]
    next h => rw [hj, if_neg h]
  obtain ⟨v, t, hplays, hst, ht⟩ :=
    around hs hhold hback (fun _ _ => World.calls_holding) (ha number) hclose
  refine ⟨v, t, hfound.bind ?_, hst, ht⟩
  simp only [hop]
  exact hplays

end Layers.Performs

end FineGrain
