import FineGrain.Proofs.Memo.Rerun
/-!
The spreading of a change over a family of memos: the members subscribed to the changed state run
once, in order of creation, and then all members are fresh.
-/

namespace FineGrain

open Act

/-- The only ascending list of the members of a list is the list sorted. -/
theorem mergeSort_eq_of_ascending {l l' : List Nat} (hl : l.Nodup) (hl' : l'.Pairwise (· < ·))
    (h : ∀ n, n ∈ l ↔ n ∈ l') : l.mergeSort (· ≤ ·) = l' := by
  have hnodup : l'.Nodup := hl'.imp Nat.ne_of_lt
  have hperm : (l.mergeSort (· ≤ ·)).Perm l' :=
    (List.mergeSort_perm l _).trans ((List.perm_ext_iff_of_nodup hl hnodup).2 h)
  have hsorted : (l.mergeSort (· ≤ ·)).Pairwise (· ≤ ·) := by
    have := @List.pairwise_mergeSort _ (fun a b : Nat => decide (a ≤ b))
      (by simpa using fun a b c => Nat.le_trans) (by simpa using Nat.le_total) l
    simpa using this
  exact hperm.eq_of_pairwise (fun a b _ _ => Nat.le_antisymm) hsorted (hl'.imp Nat.le_of_lt)

namespace World

variable {host : Host} {w : World} {members older : List Member} {m : Member}
  {σ : Nat → Value} {s : Nat}

theorem run_runEffects_append (l l' : List NodeId) :
    w.run (runEffects host (l ++ l')) =
      w.run (do runEffects host l; runEffects host l') := by
  induction l generalizing w with
  | nil => simp [runEffects]
  | cons e rest ih =>
    simp only [List.cons_append, runEffects, run_bind]
    cases w.run (runEffect host e) with
    | mk r w' =>
      cases r with
      | error _ => rfl
      | ok _ => simpa only [run_bind] using ih

/-- The world after the effects of some members have run, one after another. -/
def reruns (w : World) (l : List Member) : World := l.foldl rerun w

theorem reruns_append (l l' : List Member) : w.reruns (l ++ l') = (w.reruns l).reruns l' :=
  List.foldl_append

theorem Idle.reruns (h : w.Idle) (l : List Member) : (w.reruns l).Idle := by
  induction l generalizing w with
  | nil => exact h
  | cons m rest ih => exact ih (h.rerun m)

theorem Holds.reruns (h : w.Holds host m) (l : List Member) :
    (w.reruns l).Holds host m := by
  induction l generalizing w with
  | nil => exact h
  | cons k rest ih => exact ih (h.rerun k)

theorem Family.reruns (hf : w.Family host members) (l : List Member) :
    (w.reruns l).Family host members := by
  induction l generalizing w with
  | nil => exact hf
  | cons k rest ih => exact ih (hf.rerun k)

theorem Closed.reruns (h : w.Closed older m) (l : List Member) :
    (w.reruns l).Closed older m := by
  induction l generalizing w with
  | nil => exact h
  | cons k rest ih => exact ih (h.rerun k)

theorem committed_reruns (l : List Member) : (w.reruns l).committed = w.committed := by
  induction l generalizing w with
  | nil => rfl
  | cons k rest ih =>
    rw [reruns, List.foldl_cons, ← reruns, ih]
    rfl

theorem reruns_rest (l : List Member) : w.reruns l =
    { w with
      log := (w.reruns l).log
      graph := (w.reruns l).graph
      memos := (w.reruns l).memos } := by
  induction l generalizing w with
  | nil => rfl
  | cons k rest ih =>
    rw [reruns, List.foldl_cons, ← reruns, ih]
    rfl

theorem signals_reruns (l : List Member) : (w.reruns l).signals = w.signals := by
  rw [reruns_rest]

theorem effects_reruns (l : List Member) : (w.reruns l).effects = w.effects := by
  rw [reruns_rest]

theorem tasks_reruns (l : List Member) : (w.reruns l).tasks = w.tasks := by
  rw [reruns_rest]

theorem next_reruns (l : List Member) : (w.reruns l).next = w.next := by
  rw [reruns_rest]

theorem memos_reruns_eq_none {k : Nat} (h : w.memos.get? k = none) (l : List Member) :
    (w.reruns l).memos.get? k = none := by
  induction l generalizing w with
  | nil => exact h
  | cons m rest ih => exact ih (by simp [rerun, Store.get?_modify, h])

theorem log_reruns (l : List Member) :
    (w.reruns l).log = w.log ++ l.flatMap (·.lines) := by
  induction l generalizing w with
  | nil => simp [reruns]
  | cons k rest ih =>
    rw [reruns, List.foldl_cons, ← reruns, ih]
    simp [rerun]

theorem Fresh.reruns {env : Source → Value} {l : List Member} (hw : w.Idle)
    (hl : ∀ k ∈ l, w.Holds host k ∧ m.memo ≠ k.memo ∧ m.effect ≠ k.effect) :
    (w.reruns l).Fresh m env ↔ w.Fresh m env := by
  induction l generalizing w with
  | nil => exact Iff.rfl
  | cons k rest ih =>
    obtain ⟨hk, hmemo, heffect⟩ := hl k (by simp)
    have hrest : ∀ j ∈ rest, (w.rerun k).Holds host j ∧ m.memo ≠ j.memo ∧ m.effect ≠ j.effect :=
      fun j hj => ⟨(hl j (by simp [hj])).1.rerun k, (hl j (by simp [hj])).2⟩
    rw [World.reruns, List.foldl_cons, ← World.reruns, ih (hw.rerun k) hrest,
      Fresh.rerun hw.sound hk hmemo heffect]

theorem Current.look_visited (hf : w.Family host older) (hc : w.Current w.committed older)
    (hm : w.Closed older m) : ∀ source ∈ m.reads.visited (settle w.committed older),
      w.look source = settle w.committed older source := by
  intro source hs
  cases source with
  | state t => simp [World.look, committed]
  | memo k =>
    obtain ⟨j, hj, rfl⟩ := hm.names _ (hm.listed _ _ hs)
    exact hc.look hf hj

theorem Family.holds (hf : w.Family host members) (hm : m ∈ members) : w.Holds host m := by
  induction hf with
  | nil => simp at hm
  | cons hk _ _ _ ih =>
    rcases List.mem_cons.1 hm with rfl | hm
    · exact hk
    · exact ih hm

theorem Fresh.of_unaffected {σ' : Nat → Value} (hf : w.Family host older)
    (hσ : ∀ t, t ≠ s → σ' t = σ t) (h : w.Fresh m (settle σ older))
    (hs : m.effect ∉ w.graph.subscribers s) : w.Fresh m (settle σ' older) := by
  have hsame : ∀ x ∈ m.reads.visited (settle σ older),
      settle σ' older x = settle σ older x := by
    intro x hx
    refine hf.settle_congr fun t ht => hσ t ?_
    rintro rfl
    exact hs ((h.subscribed t).2 ⟨x, hx, ht⟩)
  refine ⟨by rw [h.value, Reads.eval_congr hsame], ?_⟩
  rw [Reads.visited_congr hsame]
  exact h.subscribed

theorem Fresh.of_rerun (hw : w.Idle) (hf : w.Family host older) (hm : w.Holds host m)
    (hclosed : w.Closed older m) (hc : w.Current w.committed older) :
    (w.rerun m).Fresh m (settle w.committed older) := by
  have hsame := hc.look_visited hf hclosed
  refine ⟨by rw [look_rerun hm, if_pos rfl, Reads.eval_congr hsame], fun t => ?_⟩
  rw [mem_subscribers_rerun hw.sound, mem_tracked hw.probes, Reads.visited_congr hsame]
  simp [feeds_congr declared_rerun]

/-- The members that are subscribed to a state. -/
def affected (w : World) (s : Nat) (members : List Member) : List Member :=
  members.filter fun m => m.effect ∈ w.graph.subscribers s

theorem Family.refresh (hw : w.Idle) (hf : w.Family host members) (hc : w.Current σ members)
    (hσ : ∀ t, t ≠ s → w.committed t = σ t) :
    let w' := w.reruns (w.affected s members).reverse
    w.run (runEffects host ((w.affected s members).reverse.map (·.effect))) = (.ok ⟨⟩, w') ∧
      w'.Current w.committed members := by
  -- The older members are refreshed first. The youngest reads only them, so it runs on what is settled.
  induction hf with
  | nil => exact ⟨rfl, trivial⟩
  | @cons m older hm hclosed hlt hf ih =>
    obtain ⟨hrun, hcur⟩ := ih hc.1
    let l := (w.affected s older).reverse
    have hl : ∀ k ∈ l, w.Holds host k ∧ m.memo ≠ k.memo ∧ m.effect ≠ k.effect := by
      intro k hk
      have hk' : k ∈ older := by
        simp only [l, affected, List.mem_reverse, List.mem_filter] at hk
        exact hk.1
      exact ⟨hf.holds hk', Nat.ne_of_gt (hlt k hk').1, Nat.ne_of_gt (hlt k hk').2⟩
    have hw' := hw.reruns l
    have hm' := hm.reruns l
    have hcommitted := committed_reruns (w := w) l
    by_cases hs : m.effect ∈ w.graph.subscribers s
    · have haffected : (w.affected s (m :: older)).reverse = l ++ [m] := by
        simp [affected, hs, l]
      rw [haffected]
      simp only [List.map_append, List.map_cons, List.map_nil, reruns_append]
      refine ⟨?_, ?_⟩
      · rw [run_runEffects_append, run_bind_ok hrun, runEffects,
          run_bind_ok (run_rerun hw' hm')]
        rfl
      · have hfresh := Fresh.of_rerun hw' (hf.reruns l) hm' (hclosed.reruns l)
          (hcommitted ▸ hcur)
        rw [hcommitted] at hfresh
        exact ⟨hcur.rerun hw'.sound hm' hlt, hfresh⟩
    · have haffected : (w.affected s (m :: older)).reverse = l := by
        simp [affected, hs, l]
      rw [haffected]
      have hfresh := hc.2.of_unaffected hf hσ hs
      exact ⟨hrun, hcur, (Fresh.reruns hw hl).2 hfresh⟩

theorem Family.ascending (hf : w.Family host members) :
    (members.reverse.map (·.effect)).Pairwise (· < ·) := by
  induction hf with
  | nil => simp
  | cons _ _ hlt _ ih =>
    simp only [List.reverse_cons, List.map_append, List.map_cons, List.map_nil]
    refine List.pairwise_append.2 ⟨ih, by simp, ?_⟩
    simp only [List.mem_map, List.mem_reverse, List.mem_singleton]
    rintro _ ⟨k, hk, rfl⟩ _ rfl
    exact (hlt k hk).2

/-- Every effect belongs to a member. -/
def Covered (w : World) (members : List Member) : Prop :=
  ∀ e x, w.effects.get? e = some x → ∃ m ∈ members, m.effect = e

theorem Family.timing (hf : w.Family host members) (hm : m ∈ members) :
    w.timing? m.effect = some .render := by
  obtain ⟨x, hx, _, ht⟩ := (hf.holds hm).effect
  simp [timing?, hx, ht]

theorem Family.run_notify (hw : w.Idle) (hf : w.Family host members) (hcov : w.Covered members)
    (s : Nat) : w.run (notify host s) =
      w.run (runEffects host ((w.affected s members).reverse.map (·.effect))) := by
  have hdeferred : (w.graph.subscribers s).filter
      (fun e => w.timing? e == some .deferred) = [] := by
    rw [List.filter_eq_nil_iff]
    intro e _ he
    have he' : w.timing? e = some .deferred := by simpa using he
    obtain ⟨x, hx, _⟩ : ∃ x, w.effects.get? e = some x ∧ x.timing = .deferred := by
      simpa [timing?] using he'
    obtain ⟨m, hm, rfl⟩ := hcov e x hx
    rw [hf.timing hm] at he'
    simp at he'
  have hrender : ((w.graph.subscribers s).filter
      (fun e => w.timing? e == some .render)).mergeSort (· ≤ ·) =
        (w.affected s members).reverse.map (·.effect) := by
    refine mergeSort_eq_of_ascending ((hw.sound.nodup_subscribers s).filter _) ?_ fun e => ?_
    · refine List.Pairwise.sublist ?_ hf.ascending
      exact ((List.filter_sublist ..).reverse).map _
    · simp only [List.mem_filter, List.mem_map, List.mem_reverse, affected, decide_eq_true_eq,
        beq_iff_eq]
      constructor
      · rintro ⟨hs, he⟩
        obtain ⟨x, hx, _⟩ : ∃ x, w.effects.get? e = some x ∧ x.timing = .render := by
          simpa [timing?] using he
        obtain ⟨m, hm, rfl⟩ := hcov e x hx
        exact ⟨m, ⟨hm, hs⟩, rfl⟩
      · rintro ⟨m, ⟨hm, hs⟩, rfl⟩
        exact ⟨hs, hf.timing hm⟩
  rw [World.run_notify, hdeferred, hrender]
  rfl

end World

end FineGrain
