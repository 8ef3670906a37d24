import FineGrain.Proofs.Propagation.Acts
/-!
The spreading of changes through layers. A write leaves behind those effects that have read the signal;
the loop over them runs each of them, and however deep the writes of these runs nest, whoever they
leave behind in turn has caught up before they are over.
-/

namespace FineGrain

open Act

namespace Layers

variable {L : Layers} {s t : Stage} {e : NodeId} {k n m : Nat} {l : Licence}

/-- What a run of an effect needs, where its code finds hosts of depth `n` for its writes. -/
structure Ready (L : Layers) (n : Nat) (e : NodeId) (s : Stage) : Prop where
  calm : ∀ k x, s.world.signals.get? k = some x → x.writing = false
  beyond : ∀ k, L.writes e k → L.Over s.world k
  free : ∀ k, L.writes e k → L.Free s.world k
  cost : ∀ k, L.writes e k → L.cost k ≤ n

theorem get?_starting (w : World) (providers : List Provider) (o : NodeId) :
    (w.starting e providers).effects.get? o =
      if o = e then (w.effects.get? o).map fun x => { x with running := true } else w.effects.get? o :=
  Store.get?_modify _ _ _ _

theorem Good.starting (hs : L.Good s) (providers : List Provider) : L.Good (s.starting e providers) where
  sound := (hs.sound.clear e).congr rfl
  edges o k := by
    refine Iff.trans (Eq.to_iff (congrArg (k ∈ ·) (Graph.dependencies_clearDependencies _ o e))) ?_
    by_cases ho : o = e
    · simp [Stage.starting, ho]
    · simpa [Stage.starting, ho] using hs.edges o k
  reads o k v hmem := by
    simp only [Stage.starting] at hmem
    split at hmem
    · cases hmem
    · exact hs.reads o k v hmem
  governs o y hy := by
    rw [Stage.starting, get?_starting] at hy
    split at hy
    · obtain ⟨x, hx, rfl⟩ := Option.map_eq_some_iff.1 hy
      have hgoverns := hs.governs o x hx
      exact ⟨hgoverns.timing, hgoverns.code, hgoverns.made⟩
    · exact (hs.governs o y hy).congr (fun _ _ hc => hc) (Nat.le_refl _)

theorem Ready.grants (hr : L.Ready n e s) {scope : String → Option Handle}
    (hscope : ∀ name handle, scope name = some handle → s.world.Calls name handle)
    (providers : List Provider) :
    L.Grants scope n (L.licence e) (s.starting e providers) where
  names := hscope
  tracked o ho k hk := by
    obtain rfl : e = o := Option.some.inj ho
    exact hk
  busy k x hx hw := by
    rw [hr.calm k x hx] at hw
    cases hw
  beyond k hk o y hy hrunning r hread := by
    rw [Stage.starting, get?_starting] at hy
    split at hy
    next ho => exact L.above e r k (ho ▸ hread) hk
    next => exact hr.beyond k hk o y hy hrunning r hread
  free k hk := hr.free k hk
  cost := hr.cost

theorem Good.run_effect {host : Host} {x : Effect} {body : Body} (hs : L.Good s)
    (hx : s.world.effects.get? e = some x) (hidle : x.running = false)
    (hbody : x.computation = .body body)
    (hperforms : L.Performs (s.starting e x.providers) (host.call body [])) :
    ∃ t, Plays s (runEffect host e) ⟨⟩ t ∧ s.Steady t ∧ L.Good t ∧ ¬ t.Stale e := by
  obtain ⟨v, t, hplays, hst, ht⟩ := hperforms
  have hcompute : Plays (s.starting e x.providers) (compute host x.computation) ⟨⟩ t := by
    rw [hbody]
    exact hplays.bind (.pure _)
  let u : Stage := ⟨t.world.ending e s.world.providers, t.reads⟩
  have heffects (o : NodeId) : u.world.effects.get? o = s.world.effects.get? o := by
    have ho := hst.effects o
    rw [Stage.starting, get?_starting] at ho
    simp only [u, World.ending, Store.get?_modify, ho]
    split
    next h =>
      subst h
      rw [hx]
      simp [Effect.rested, ← hidle]
    next => rfl
  -- What is stale at the end was stale at the start, but for the effect itself: its old reads are
  -- dropped, and those of this run are up to date.
  have hstale (o : NodeId) (ho : u.Stale o) : o ≠ e ∧ s.Stale o := by
    obtain ⟨hlive, k, v, hmem, hv⟩ := ho
    rw [heffects] at hlive
    have hstarting : (s.starting e x.providers).Stale o := by
      refine hst.stale o ⟨?_, k, v, hmem, hv⟩
      rw [hst.effects, Stage.starting, get?_starting]
      split
      · rwa [Option.isSome_map]
      · exact hlive
    obtain ⟨-, j, v', hmem', hv'⟩ := hstarting
    simp only [Stage.starting] at hmem'
    split at hmem'
    · cases hmem'
    next hne => exact ⟨hne, hlive, j, v', hmem', hv'⟩
  have hstill : s.Still u :=
    ⟨heffects, (congrArg List.tail hst.observers).trans (Graph.observers_clearDependencies _ e),
      hst.names, hst.handles, hst.borrows, hst.next⟩
  exact ⟨u, .run hx hidle hcompute, ⟨hstill, fun o ho => (hstale o ho).2⟩,
    hs.of_still hstill (ht.sound.congr rfl) ht.edges ht.reads, fun he => (hstale e he).1 rfl⟩

theorem plays_sortOut (hs : L.Good s) (l : List NodeId) :
    Plays s (sortOut l) (l.filter fun e => (s.world.effects.get? e).isSome) s := by
  induction l with
  | nil => exact .pure _
  | cons e rest ih =>
    refine .look (fun w => ?_) ?_
    · rw [World.get?_rested]
      cases w.effects.get? e <;> rfl
    · cases hx : s.world.effects.get? e with
      | none => simpa [hx] using ih
      | some x =>
        simp only [(hs.governs e x hx).timing, List.filter_cons, hx, Option.isSome_some, if_true]
        exact ih.map

/-- Effects run one after another. Whoever runs has caught up, and stays so while the others run. -/
theorem Good.run_effects {host : Host} {l : List NodeId} (hs : L.Good s)
    (hrun : ∀ e ∈ l, ∀ t, s.Still t → L.Good t →
      ∃ u, Plays t (runEffect host e) ⟨⟩ u ∧ t.Steady u ∧ L.Good u ∧ ¬ u.Stale e) :
    ∃ t, Plays s (runEffects host l) ⟨⟩ t ∧ s.Steady t ∧ L.Good t ∧ ∀ e ∈ l, ¬ t.Stale e := by
  induction l generalizing s with
  | nil => exact ⟨s, .pure _, .refl s, hs, fun e he => by cases he⟩
  | cons e rest ih =>
    obtain ⟨t, hplays, hst, ht, he⟩ := hrun e List.mem_cons_self s (.refl s) hs
    obtain ⟨u, hplays', htu, hu, hrest⟩ := ih ht fun o ho t' ht' =>
      hrun o (List.mem_cons_of_mem e ho) t' (hst.toStill.trans ht')
    refine ⟨u, hplays.bind hplays', hst.trans htu, hu, fun o ho => ?_⟩
    rcases List.mem_cons.1 ho with rfl | ho
    · exact mt (htu.stale o) he
    · exact hrest o ho

/-- What a write of the signal `k` needs: hosts that are deep enough, no effect that runs and reads
signals ranked as high, and no borrow of a signal ranked as high. -/
structure Open (L : Layers) (s : Stage) (k n : Nat) : Prop where
  beyond : L.Over s.world k
  free : L.Free s.world k
  cost : L.cost k ≤ n

theorem Open.still (h : L.Open s k n) (hst : s.Still t) : L.Open t k n :=
  ⟨h.beyond.still hst, h.free.still hst, h.cost⟩

/-- An effect that has read the signal is ready: whatever it writes is ranked above the signal. -/
theorem Open.ready (h : L.Open s k n) (hread : L.reads e k) : L.Ready (n - L.depth) e s where
  calm j x hx := (h.free j x hx).1
  beyond j hj o x hx hrunning r hr :=
    Nat.lt_trans (h.beyond o x hx hrunning r hr) (L.above e k j hread hj)
  free j hj := h.free.mono (L.above e k j hread hj)
  cost j hj := Nat.le_sub_of_add_le (Nat.le_trans (L.cost_add_depth_le (L.above e k j hread hj)) h.cost)

theorem Open.idle (h : L.Open s k n) (hread : L.reads e k) {x : Effect}
    (hx : s.world.effects.get? e = some x) : x.running = false := by
  cases hrunning : x.running with
  | false => rfl
  | true => exact absurd (h.beyond e x hx hrunning k hread) (Nat.lt_irrefl _)

/-- A change of the signal `k` spreads: nobody who had read it has missed it in the end. -/
def Spreads (L : Layers) (k : Nat) : Prop :=
  ∀ (s : Stage) (n : Nat), L.Good s → L.Open s k n →
    ∃ t, Plays s (notify (.ofDepth n) k) ⟨⟩ t ∧ s.Steady t ∧ L.Good t ∧
      ∀ e, t.Stale e → ∀ v, (k, v) ∉ s.reads e

/-- Where the value of `k` has just been replaced in a world like `s`, the change spreads, and nobody is
left behind who was not left behind at `s`. -/
theorem Spreads.steady (hk : L.Spreads k) (hst : s.Still t) (ht : L.Good t) (hopen : L.Open s k n)
    (hstale : ∀ e, t.Stale e → s.Stale e ∨ ∃ v, (k, v) ∈ t.reads e) :
    ∃ u, Plays t (notify (.ofDepth n) k) ⟨⟩ u ∧ s.Steady u ∧ L.Good u := by
  obtain ⟨u, hplays, htu, hu, hmissed⟩ := hk t n ht (hopen.still hst)
  refine ⟨u, hplays, ⟨hst.trans htu.toStill, fun e he => ?_⟩, hu⟩
  rcases hstale e (htu.stale e he) with hs | ⟨v, hv⟩
  · exact hs
  · exact absurd hv (hmissed e he v)

theorem value_modify (w : World) (f : Signal → Signal) {j : Nat} (hj : j ≠ k) :
    World.value { w with signals := w.signals.modify k f } j = w.value j := by
  simp only [World.value, Store.get?_modify, if_neg hj]

theorem stale_replaced {f : Signal → Signal}
    (h : Stage.Stale ⟨{ s.world with signals := s.world.signals.modify k f }, s.reads⟩ e) :
    s.Stale e ∨ ∃ v, (k, v) ∈ s.reads e := by
  obtain ⟨hlive, j, v, hmem, hv⟩ := h
  by_cases hj : j = k
  · exact .inr ⟨v, hj ▸ hmem⟩
  · exact .inl ⟨hlive, j, v, hmem, by rwa [value_modify _ f hj] at hv⟩

theorem plays_modifySignal (f : Signal → Signal) :
    Plays s (modifySignal k f) ⟨⟩
      ⟨{ s.world with signals := s.world.signals.modify k f }, s.reads⟩ :=
  .change (fun _ => rfl) (fun _ => rfl) fun _ => rfl

theorem still_modifySignal {f : Signal → Signal} (hf : ∀ x, (f x).borrows = x.borrows) :
    s.Still ⟨{ s.world with signals := s.world.signals.modify k f }, s.reads⟩ where
  effects _ := rfl
  observers := rfl
  names := rfl
  handles _ := rfl
  borrows j := by
    rw [Store.get?_modify]
    split
    · cases s.world.signals.get? j with
      | none => rfl
      | some x => exact congrArg some (hf x)
    · rfl
  next := Nat.le_refl _

theorem Good.modifySignal (hs : L.Good s) (f : Signal → Signal) :
    L.Good ⟨{ s.world with signals := s.world.signals.modify k f }, s.reads⟩ :=
  hs.of_unread rfl rfl fun e x hx => (hs.governs e x hx).congr (fun _ _ hc => hc) (Nat.le_refl _)

theorem Open.unborrowed (h : L.Open s k n) {x : Signal} (hx : s.world.signals.get? k = some x) :
    x.writing = false ∧ x.readers = 0 := by
  obtain ⟨hwriting, hreaders⟩ := h.free k x hx
  exact ⟨hwriting, Decidable.not_not.1 fun hne => Nat.lt_irrefl _ (hreaders hne)⟩

theorem Open.plays_requireUnborrowed (h : L.Open s k n) : Plays s (requireUnborrowed k) ⟨⟩ s := by
  refine .bind (.ask fun _ => rfl) ?_
  rw [if_neg]
  · exact .pure _
  · cases hx : s.world.signals.get? k with
    | none => exact Bool.false_ne_true
    | some x => simp [h.unborrowed hx]

theorem Spreads.set (hk : L.Spreads k) (hs : L.Good s) (hopen : L.Open s k n) (v : Value) :
    L.Performs s (setSignal (.ofDepth n) k v) := by
  have hf (x : Signal) : ({ x with value := v } : Signal).borrows = x.borrows := rfl
  obtain ⟨u, hplays, hsu, hu⟩ := hk.steady (still_modifySignal hf) (hs.modifySignal _) hopen
    fun _ => stale_replaced
  exact ⟨⟨⟩, u, hopen.plays_requireUnborrowed.bind ((plays_modifySignal _).bind hplays), hsu, hu⟩

/-- The world while the signal `k` is changed in place. -/
def changing (s : Stage) (k : Nat) : Stage :=
  ⟨{ s.world with signals := s.world.signals.modify k fun x => { x with writing := true } }, s.reads⟩

theorem stale_changing : (changing s k).Stale e ↔ s.Stale e :=
  (World.Inert.signal k (fun x => { x with writing := true }) fun _ => rfl).stale

theorem still_changed (hopen : L.Open s k n) (hst : (changing s k).Still t) (v : Value) :
    s.Still ⟨{ t.world with
      signals := t.world.signals.modify k fun x => { x with value := v, writing := false } },
      t.reads⟩ where
  effects := hst.effects
  observers := hst.observers
  names := hst.names
  handles := hst.handles
  borrows j := by
    have hb := hst.borrows j
    simp only [changing, Store.get?_modify] at hb ⊢
    by_cases hj : j = k
    · subst hj
      rw [if_pos rfl] at hb ⊢
      cases hx : s.world.signals.get? j with
      | none => simp_all
      | some x =>
        have hwriting := (hopen.unborrowed hx).1
        cases hy : t.world.signals.get? j <;> simp_all [Signal.borrows]
    · rwa [if_neg hj] at hb ⊢
  next := hst.next

theorem Spreads.update {next : Value → Act Value} (hk : L.Spreads k) (hs : L.Good s)
    (hopen : L.Open s k n) (hnext : ∀ v, L.Good (changing s k) → L.Performs (changing s k) (next v)) :
    L.Performs s (updateSignal (.ofDepth n) k next) := by
  have hread : Plays s (Act.read k) (s.world.value k) s :=
    Performs.plays_read fun x hx => (hopen.unborrowed hx).1
  obtain ⟨v, t, hplays, hst, ht⟩ := hnext (s.world.value k) (hs.modifySignal _)
  obtain ⟨u, hplays', hsu, hu⟩ := hk.steady (still_changed hopen hst.toStill v) (ht.modifySignal _) hopen
    fun e he => (stale_replaced he).imp_left fun hte => stale_changing.1 (hst.stale e hte)
  exact ⟨⟨⟩, u, hopen.plays_requireUnborrowed.bind <| hread.bind <| (plays_modifySignal _).bind <|
    hplays.bind <| (plays_modifySignal _).bind hplays', hsu, hu⟩

end Layers

end FineGrain
