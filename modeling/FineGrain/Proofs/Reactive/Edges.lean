import FineGrain.Reactive.Graph
/-!
The edges of the dependency graph as two lists for each node, and what tracking and forgetting do to
them. In a sound graph the two lists tell the same edges, each once.
-/

namespace FineGrain

namespace Store

variable {α : Type}

theorem get?_update [Inhabited α] (s : Store α) (key k : Nat) (f : α → α) :
    (s.update key f).get? k = if k = key then some (f ((s.get? key).getD default))
      else s.get? k := by
  rw [update, get?_put]

end Store

@[simp] theorem Edges.default_subscribers : (default : Edges).subscribers = [] := rfl

@[simp] theorem Edges.default_dependencies : (default : Edges).dependencies = [] := rfl

namespace Graph

variable (g : Graph) (n s o : NodeId)

def dependencies : List NodeId := ((g.nodes.get? n).map (·.dependencies)).getD []

theorem subscribers_eq : g.subscribers n = ((g.nodes.get? n).getD default).subscribers := by
  unfold subscribers
  cases g.nodes.get? n <;> rfl

theorem dependencies_eq : g.dependencies n = ((g.nodes.get? n).getD default).dependencies := by
  unfold dependencies
  cases g.nodes.get? n <;> rfl

theorem mem_addOnce {a b : NodeId} {l : List NodeId} : a ∈ addOnce b l ↔ a = b ∨ a ∈ l := by
  unfold addOnce
  split
  · rename_i h
    have hb : b ∈ l := by simpa using h
    exact ⟨.inr, fun h => h.elim (fun h => h ▸ hb) id⟩
  · simp [or_comm]

theorem nodup_addOnce {a : NodeId} {l : List NodeId} (h : l.Nodup) : (addOnce a l).Nodup := by
  unfold addOnce
  split
  · exact h
  · rename_i ha
    refine List.nodup_append.2 ⟨h, by simp, ?_⟩
    rintro x hx y hy rfl
    exact ha (by simp_all)

theorem addOnce_eraseDups (a : NodeId) (l : List NodeId) :
    addOnce a l.eraseDups = (l ++ [a]).eraseDups := by
  rw [List.eraseDups_append]
  by_cases h : a ∈ l <;> simp [addOnce, List.removeAll, h, List.eraseDups_cons]

theorem eraseDups_filter (p : NodeId → Bool) : ∀ l : List NodeId,
    (l.filter p).eraseDups = l.eraseDups.filter p
  | [] => rfl
  | a :: l => by
    have hlength : (l.filter fun b => !b == a).length ≤ l.length := List.length_filter_le _ l
    have ih := eraseDups_filter p (l.filter fun b => !b == a)
    rw [List.eraseDups_cons, List.filter_cons, List.filter_cons]
    split
    · rw [List.eraseDups_cons, ← ih, List.filter_filter, List.filter_filter]
      congr 3
      funext b
      exact Bool.and_comm _ _
    · rename_i ha
      rw [← ih, List.filter_filter]
      congr 2
      funext b
      by_cases hb : b = a <;> simp_all
termination_by l => l.length
decreasing_by
  simp only [List.length_cons]
  omega

/-! ### Tracking -/

theorem track_of_unobserved (h : g.observer? = none) : g.track s = g := by
  simp [track, h]

@[simp] theorem observers_track : (g.track s).observers = g.observers := by
  unfold track
  split <;> rfl

@[simp] theorem observer?_track : (g.track s).observer? = g.observer? := by
  simp [observer?]

@[simp] theorem pending_track : (g.track s).pending = g.pending := by
  unfold track
  split <;> rfl

@[simp] theorem flushQueued_track : (g.track s).flushQueued = g.flushQueued := by
  unfold track
  split <;> rfl

theorem subscribers_track (h : g.observer? = some o) :
    (g.track s).subscribers n = if n = s then addOnce o (g.subscribers n) else g.subscribers n := by
  simp only [track, h, subscribers_eq, Store.get?_update]
  by_cases hs : n = s <;> by_cases ho : n = o <;> simp_all

theorem dependencies_track (h : g.observer? = some o) :
    (g.track s).dependencies n =
      if n = o then addOnce s (g.dependencies n) else g.dependencies n := by
  simp only [track, h, dependencies_eq, Store.get?_update]
  by_cases hs : n = s <;> by_cases ho : n = o <;> by_cases hso : o = s <;> simp_all

theorem dependencies_track_of_ne {e : NodeId} (h : g.observer? ≠ some e) :
    (g.track s).dependencies e = g.dependencies e := by
  cases ho : g.observer? with
  | none => rw [track_of_unobserved g s ho]
  | some o =>
    rw [dependencies_track g e s o ho, if_neg]
    rintro rfl
    exact h ho

/-! ### Forgetting -/

theorem get?_unsubscribe (nodes : Store Edges) (sources : List NodeId) :
    (unsubscribe o nodes sources).get? n =
      (nodes.get? n).map fun e =>
        if n ∈ sources then { e with subscribers := e.subscribers.filter (· != o) } else e := by
  unfold unsubscribe
  induction sources generalizing nodes with
  | nil => simp
  | cons s rest ih =>
    rw [List.foldl_cons, ih, Store.get?_modify]
    by_cases hs : n = s
    · subst hs
      cases nodes.get? n <;> simp
    · simp [hs]

theorem subscribers_clearDependencies :
    (g.clearDependencies o).subscribers n =
      if n ∈ g.dependencies o then (g.subscribers n).filter (· != o) else g.subscribers n := by
  unfold clearDependencies
  cases h : g.nodes.get? o with
  | none => simp [dependencies_eq, h]
  | some e =>
    have hd : g.dependencies o = e.dependencies := by simp [dependencies_eq, h]
    simp only [subscribers_eq, get?_unsubscribe, Store.get?_put, hd]
    by_cases ho : n = o
    · subst ho
      by_cases hm : n ∈ e.dependencies <;> simp [h, hm]
    · by_cases hm : n ∈ e.dependencies <;> cases g.nodes.get? n <;> simp [ho, hm]

theorem dependencies_clearDependencies :
    (g.clearDependencies o).dependencies n = if n = o then [] else g.dependencies n := by
  unfold clearDependencies
  cases h : g.nodes.get? o with
  | none =>
    by_cases ho : n = o
    · subst ho
      simp [dependencies_eq, h]
    · simp [ho]
  | some e =>
    simp only [dependencies_eq, get?_unsubscribe, Store.get?_put]
    by_cases ho : n = o
    · subst ho
      by_cases hm : n ∈ e.dependencies <;> simp [hm]
    · by_cases hm : n ∈ e.dependencies <;> cases g.nodes.get? n <;> simp [ho, hm]

@[simp] theorem observers_clearDependencies :
    (g.clearDependencies o).observers = g.observers := by
  unfold clearDependencies
  split <;> rfl

@[simp] theorem pending_clearDependencies : (g.clearDependencies o).pending = g.pending := by
  unfold clearDependencies
  split <;> rfl

@[simp] theorem flushQueued_clearDependencies :
    (g.clearDependencies o).flushQueued = g.flushQueued := by
  unfold clearDependencies
  split <;> rfl

/-! ### Sound graphs -/

structure Sound (g : Graph) : Prop where
  symm : ∀ s o, o ∈ g.subscribers s ↔ s ∈ g.dependencies o
  nodup_subscribers : ∀ s, (g.subscribers s).Nodup
  nodup_dependencies : ∀ o, (g.dependencies o).Nodup

variable {g n s o}

theorem Sound.empty : Sound .empty :=
  ⟨fun _ _ => by simp [subscribers_eq, dependencies_eq, Graph.empty, Store.get?, Store.empty, Store.lookup],
    fun _ => List.nodup_nil, fun _ => List.nodup_nil⟩

theorem Sound.congr {k : Graph} (h : g.Sound) (hn : k.nodes = g.nodes) : k.Sound := by
  have hs : k.subscribers = g.subscribers := by
    funext n
    simp [subscribers, hn]
  have hd : k.dependencies = g.dependencies := by
    funext n
    simp [dependencies, hn]
  exact ⟨by simpa [hs, hd] using h.symm, by simpa [hs] using h.nodup_subscribers,
    by simpa [hd] using h.nodup_dependencies⟩

theorem Sound.track (h : g.Sound) (s : NodeId) : (g.track s).Sound := by
  cases ho : g.observer? with
  | none => rwa [track_of_unobserved g s ho]
  | some o =>
    refine ⟨fun a b => ?_, fun a => ?_, fun b => ?_⟩
    · rw [subscribers_track g a s o ho, dependencies_track g b s o ho]
      have hab := h.symm a b
      by_cases ha : a = s <;> by_cases hb : b = o <;> simp_all [mem_addOnce]
    · rw [subscribers_track g a s o ho]
      split
      · exact nodup_addOnce (h.nodup_subscribers a)
      · exact h.nodup_subscribers a
    · rw [dependencies_track g b s o ho]
      split
      · exact nodup_addOnce (h.nodup_dependencies b)
      · exact h.nodup_dependencies b

theorem filter_ne_eq_self {l : List NodeId} (h : n ∉ l) : l.filter (· != n) = l := by
  rw [List.filter_eq_self]
  rintro a ha
  simp only [bne_iff_ne, ne_eq]
  rintro rfl
  exact h ha

theorem Sound.subscribers_clear (h : g.Sound) (n o : NodeId) :
    (g.clearDependencies o).subscribers n = (g.subscribers n).filter (· != o) := by
  rw [subscribers_clearDependencies]
  split
  · rfl
  · rename_i hm
    rw [filter_ne_eq_self (mt (h.symm n o).1 hm)]

theorem Sound.clear (h : g.Sound) (o : NodeId) : (g.clearDependencies o).Sound := by
  refine ⟨fun a b => ?_, fun a => ?_, fun b => ?_⟩
  · rw [h.subscribers_clear, dependencies_clearDependencies]
    have hab := h.symm a b
    by_cases hb : b = o <;> simp_all
  · rw [h.subscribers_clear]
    exact (h.nodup_subscribers a).filter _
  · rw [dependencies_clearDependencies]
    split
    · exact List.nodup_nil
    · exact h.nodup_dependencies b

/-! ### Removing -/

theorem get?_undepend (nodes : Store Edges) (readers : List NodeId) :
    (undepend o nodes readers).get? n =
      (nodes.get? n).map fun e =>
        if n ∈ readers then { e with dependencies := e.dependencies.filter (· != o) } else e := by
  unfold undepend
  induction readers generalizing nodes with
  | nil => simp
  | cons r rest ih =>
    rw [List.foldl_cons, ih, Store.get?_modify]
    by_cases hr : n = r
    · subst hr
      cases nodes.get? n <;> simp
    · simp [hr]

theorem removeNode_none (hn : (g.clearDependencies n).nodes.get? n = none) :
    g.removeNode n = g.clearDependencies n := by
  simp [removeNode, hn]

theorem nodes_removeNode {e : Edges} (hn : (g.clearDependencies n).nodes.get? n = some e) :
    (g.removeNode n).nodes =
      undepend n ((g.clearDependencies n).nodes.erase n) e.subscribers := by
  simp [removeNode, hn]

theorem Sound.subscribers_remove (h : g.Sound) (n s : NodeId) :
    (g.removeNode n).subscribers s =
      if s = n then [] else (g.subscribers s).filter (· != n) := by
  rw [← h.subscribers_clear]
  cases hn : (g.clearDependencies n).nodes.get? n with
  | none =>
    rw [removeNode_none hn]
    by_cases hs : s = n
    · subst hs
      simp [subscribers_eq, hn]
    · simp [hs]
  | some e =>
    simp only [subscribers_eq, nodes_removeNode hn, get?_undepend, Store.get?_erase]
    by_cases hs : s = n
    · simp [hs]
    · by_cases hm : s ∈ e.subscribers <;>
        cases (g.clearDependencies n).nodes.get? s <;> simp [hs, hm]

theorem Sound.dependencies_remove (h : g.Sound) (n o : NodeId) :
    (g.removeNode n).dependencies o =
      if o = n then [] else (g.dependencies o).filter (· != n) := by
  have hclear := dependencies_clearDependencies (g := g) o n
  have hsymm := (h.clear n).symm n o
  by_cases ho : o = n
  · subst ho
    cases hn : (g.clearDependencies o).nodes.get? o with
    | none => simp [removeNode_none hn, hclear]
    | some e => simp [dependencies_eq, nodes_removeNode hn, get?_undepend, Store.get?_erase]
  · rw [if_neg ho] at hclear ⊢
    rw [← hclear]
    cases hn : (g.clearDependencies n).nodes.get? n with
    | none =>
      have hnot : n ∉ (g.clearDependencies n).dependencies o := by
        rw [← hsymm]
        simp [subscribers_eq, hn]
      rw [removeNode_none hn, filter_ne_eq_self hnot]
    | some e =>
      have hsub : o ∈ e.subscribers ↔ n ∈ (g.clearDependencies n).dependencies o := by
        rw [← hsymm]
        simp [subscribers_eq, hn]
      by_cases hm : o ∈ e.subscribers
      · cases hget : (g.clearDependencies n).nodes.get? o <;>
          simp [dependencies_eq, nodes_removeNode hn, get?_undepend, Store.get?_erase, ho, hm,
            hget]
      · rw [filter_ne_eq_self (mt hsub.2 hm)]
        cases hget : (g.clearDependencies n).nodes.get? o <;>
          simp [dependencies_eq, nodes_removeNode hn, get?_undepend, Store.get?_erase, ho, hm,
            hget]

theorem Sound.remove (h : g.Sound) (n : NodeId) : (g.removeNode n).Sound := by
  refine ⟨fun a b => ?_, fun a => ?_, fun b => ?_⟩
  · rw [h.subscribers_remove, h.dependencies_remove]
    have hab := h.symm a b
    by_cases ha : a = n <;> by_cases hb : b = n <;> simp_all
  · rw [h.subscribers_remove]
    split
    · exact List.nodup_nil
    · exact (h.nodup_subscribers a).filter _
  · rw [h.dependencies_remove]
    split
    · exact List.nodup_nil
    · exact (h.nodup_dependencies b).filter _

@[simp] theorem observers_removeNode : (g.removeNode n).observers = g.observers := by
  cases hn : (g.clearDependencies n).nodes.get? n <;> simp [removeNode, hn]

@[simp] theorem pending_removeNode : (g.removeNode n).pending = g.pending := by
  cases hn : (g.clearDependencies n).nodes.get? n <;> simp [removeNode, hn]

@[simp] theorem flushQueued_removeNode : (g.removeNode n).flushQueued = g.flushQueued := by
  cases hn : (g.clearDependencies n).nodes.get? n <;> simp [removeNode, hn]

/-! ### Tracking a list -/

theorem trackAll_unobserved (h : g.observer? = none) (sources : List NodeId) :
    sources.foldl Graph.track g = g := by
  induction sources with
  | nil => rfl
  | cons s rest ih => rw [List.foldl_cons, track_of_unobserved g s h, ih]

theorem observers_trackAll (sources : List NodeId) :
    (sources.foldl Graph.track g).observers = g.observers := by
  induction sources generalizing g with
  | nil => rfl
  | cons s rest ih => rw [List.foldl_cons, ih, observers_track]

theorem pending_trackAll (sources : List NodeId) :
    (sources.foldl Graph.track g).pending = g.pending := by
  induction sources generalizing g with
  | nil => rfl
  | cons s rest ih => rw [List.foldl_cons, ih, pending_track]

theorem flushQueued_trackAll (sources : List NodeId) :
    (sources.foldl Graph.track g).flushQueued = g.flushQueued := by
  induction sources generalizing g with
  | nil => rfl
  | cons s rest ih => rw [List.foldl_cons, ih, flushQueued_track]

theorem Sound.trackAll (h : g.Sound) (sources : List NodeId) :
    (sources.foldl Graph.track g).Sound := by
  induction sources generalizing g with
  | nil => exact h
  | cons s rest ih => exact ih (h.track s)

theorem mem_subscribers_trackAll (ho : g.observer? = some o) (sources : List NodeId)
    (n e : NodeId) :
    e ∈ (sources.foldl Graph.track g).subscribers n ↔
      e ∈ g.subscribers n ∨ e = o ∧ n ∈ sources := by
  induction sources generalizing g with
  | nil => simp
  | cons s rest ih =>
    rw [List.foldl_cons, ih (by simpa using ho), subscribers_track g n s o ho]
    by_cases hn : n = s
    · simp [hn, mem_addOnce]
      grind
    · simp [hn]

theorem mem_dependencies_trackAll (ho : g.observer? = some o) (sources : List NodeId)
    (n e : NodeId) :
    n ∈ (sources.foldl Graph.track g).dependencies e ↔
      n ∈ g.dependencies e ∨ e = o ∧ n ∈ sources := by
  induction sources generalizing g with
  | nil => simp
  | cons s rest ih =>
    rw [List.foldl_cons, ih (by simpa using ho), dependencies_track g e s o ho]
    by_cases he : e = o
    · simp only [he, if_true, mem_addOnce, true_and, List.mem_cons]
      grind
    · simp [he]

/-! ### Tracking afresh

A computation drops what it read, and reads again with itself as the observer. -/

theorem Sound.mem_subscribers_afresh (h : g.Sound) (sources : List NodeId) (o n e : NodeId) :
    e ∈ (sources.foldl Graph.track ((g.clearDependencies o).pushObserver o)).subscribers n ↔
      e ≠ o ∧ e ∈ g.subscribers n ∨ e = o ∧ n ∈ sources := by
  have hclear : ((g.clearDependencies o).pushObserver o).subscribers n =
      (g.subscribers n).filter (· != o) := h.subscribers_clear n o
  rw [mem_subscribers_trackAll (o := o) rfl, hclear]
  simp [and_comm]

theorem mem_dependencies_afresh (sources : List NodeId) (o n : NodeId) :
    n ∈ (sources.foldl Graph.track ((g.clearDependencies o).pushObserver o)).dependencies o ↔
      n ∈ sources := by
  have hclear : ((g.clearDependencies o).pushObserver o).dependencies o = [] :=
    (dependencies_clearDependencies g o o).trans (if_pos rfl)
  rw [mem_dependencies_trackAll (o := o) rfl, hclear]
  simp

end Graph

end FineGrain
