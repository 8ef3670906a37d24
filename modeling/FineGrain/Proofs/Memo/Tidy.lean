import FineGrain.Proofs.Memo.Growth
import FineGrain.Proofs.World.Pending
/-!
Between tasks a family of memos is tidy: every member is fresh for the committed values, and nothing
but commits is queued. Each thing that a program can do to its states and memos keeps it so.
-/

namespace FineGrain

open Act

namespace World

/-- The invariant of a system of states and memos; the states in `l` wait for a commit. -/
structure Tidy (host : Host) (w : World) (members : List Member) (l : List Nat) : Prop where
  idle : w.Idle
  family : w.Family host members
  current : w.Current w.committed members
  covered : w.Covered members
  queued : w.Queued l
  tasks : w.tasks = l.map .commit
  unused : ∀ k, w.next ≤ k →
    w.signals.get? k = none ∧ w.memos.get? k = none ∧ w.effects.get? k = none

variable {host : Host} {w w' : World} {members : List Member} {m : Member} {l : List Nat}
  {s : Nat}

theorem Tidy.empty (host : Host) : Tidy host .empty [] [] where
  idle := ⟨fun _ _ h => by simp [World.empty, Store.get?, Store.empty, Store.lookup] at h, rfl,
    Graph.Sound.empty, fun _ h => by simp [World.empty, Store.empty] at h, rfl⟩
  family := .nil
  current := trivial
  covered := fun _ _ h => by simp [World.empty, Store.get?, Store.empty, Store.lookup] at h
  queued := ⟨List.nodup_nil,
    fun _ => by simp [World.empty, Store.get?, Store.empty, Store.lookup],
    fun _ _ h => by simp [World.empty, Store.get?, Store.empty, Store.lookup] at h⟩
  tasks := rfl
  unused := fun _ _ => ⟨rfl, rfl, rfl⟩

def adding (w : World) (s : Nat) (v : Value) (n : Nat) : World :=
  { w with signals := w.signals.put s ⟨v, 2, 0, false, false, none⟩, next := n }

theorem Queued.adding (h : w.Queued l) (hnone : w.signals.get? w.next = none) (v : Value)
    (n : Nat) : (w.adding w.next v n).Queued l := by
  have hget (t : Nat) : (w.adding w.next v n).signals.get? t =
      if t = w.next then some ⟨v, 2, 0, false, false, none⟩ else w.signals.get? t :=
    Store.get?_put ..
  refine ⟨h.nodup, fun t => ?_, fun t x hx => ?_⟩
  · rw [hget, h.dirty]
    by_cases ht : t = w.next
    · subst ht
      simp [hnone]
    · simp [ht]
  · rw [hget] at hx
    split at hx
    · obtain rfl := Option.some.inj hx
      exact ⟨rfl, rfl, by simp, fun hd => by simp at hd, fun _ => rfl⟩
    · exact h.steady t x hx

theorem Tidy.adding (h : Tidy host w members l) (v : Value) {n : Nat} (hn : w.next < n) :
    Tidy host (w.adding w.next v n) members l := by
  have hnone := (h.unused w.next (Nat.le_refl _)).1
  have hget (t : Nat) : (w.adding w.next v n).signals.get? t =
      if t = w.next then some ⟨v, 2, 0, false, false, none⟩ else w.signals.get? t :=
    Store.get?_put ..
  have hkept : w.Kept (w.adding w.next v n) := by
    refine .of_eq rfl rfl fun t ht => ?_
    rw [hget]
    split <;> simp_all
  have hcommitted : ∀ t, (w.signals.get? t).isSome →
      (w.adding w.next v n).committed t = w.committed t := by
    intro t ht
    have hne : t ≠ w.next := by
      rintro rfl
      simp [hnone] at ht
    simp [committed, hget, hne]
  have hqueued := h.queued.adding hnone v n
  refine ⟨⟨hqueued.calm, h.idle.probes, h.idle.sound, h.idle.rest, h.idle.observers⟩,
    h.family.kept hkept h.family.renamed, ?_, h.covered, hqueued, h.tasks, fun k hk => ?_⟩
  · have hcur := h.current.congr h.family hcommitted
    exact hcur.kept h.family hkept fun _ _ _ => Iff.rfl
  · have hk' : n ≤ k := hk
    obtain ⟨hs, hm, he⟩ := h.unused k (by omega)
    have hne : k ≠ w.next := by omega
    exact ⟨by simp [hget, hne, hs], hm, he⟩

theorem Tidy.state (h : Tidy host w members l) (v : Value) :
    Tidy host (w.run (newState v)).2 members l := by
  have hrun : (w.run (newState v)).2 = w.adding w.next v (w.next + 1) := by
    simp [newState, newSignal, run_bind, run_map, World.adding]
  exact hrun ▸ h.adding v (by omega)

theorem Tidy.reducer (h : Tidy host w members l) (v : Value) (reduce : Body) :
    Tidy host (w.run (newReducer v reduce)).2 members l := by
  have hadd := h.adding v (n := w.next + 2) (by omega)
  have hrun : (w.run (newReducer v reduce)).2 = { w.adding w.next v (w.next + 2) with
      dispatchers := w.dispatchers.put (w.next + 1) ⟨w.next, reduce, 1⟩ } := by
    simp [newReducer, newSignal, run_bind, run_map, World.adding]
  rw [hrun]
  have hkept : (w.adding w.next v (w.next + 2)).Kept { w.adding w.next v (w.next + 2) with
      dispatchers := w.dispatchers.put (w.next + 1) ⟨w.next, reduce, 1⟩ } :=
    .of_eq rfl rfl fun _ ht => ht
  exact ⟨⟨hadd.idle.calm, hadd.idle.probes, hadd.idle.sound, hadd.idle.rest,
    hadd.idle.observers⟩, hadd.family.kept hkept hadd.family.renamed,
    hadd.current.kept hadd.family hkept fun _ _ _ => Iff.rfl, hadd.covered,
    ⟨hadd.queued.nodup, hadd.queued.dirty, hadd.queued.steady⟩, hadd.tasks, hadd.unused⟩

/-- A world in which other names, handles and numbers are taken. -/
def naming (w : World) (names : List (String × Nat)) (handles : Store Held) (n : Nat) : World :=
  { w with names := names, handles := handles, next := n }

theorem Tidy.naming (h : Tidy host w members l) {names : List (String × Nat)}
    {handles : Store Held} {n : Nat} (hn : w.next ≤ n)
    (hr : w.Renamed host members (names, handles)) :
    Tidy host (w.naming names handles n) members l := by
  have hkept : w.Kept (w.naming names handles n) := .of_eq rfl rfl fun _ ht => ht
  exact ⟨⟨h.idle.calm, h.idle.probes, h.idle.sound, h.idle.rest, h.idle.observers⟩,
    h.family.kept hkept hr, h.current.kept h.family hkept fun _ _ _ => Iff.rfl, h.covered,
    ⟨h.queued.nodup, h.queued.dirty, h.queued.steady⟩, h.tasks,
    fun k hk => h.unused k (Nat.le_trans hn hk)⟩

theorem Queued.retain_signal (h : w.Queued l) (s : Nat) : (w.retain (.signal s)).Queued l := by
  have hget (t : Nat) : (w.retain (.signal s)).signals.get? t = if t = s then
      (w.signals.get? t).map fun x => { x with clones := x.clones + 1 } else w.signals.get? t :=
    Store.get?_modify ..
  refine ⟨h.nodup, fun t => ?_, fun t x hx => ?_⟩
  · rw [hget, h.dirty]
    split
    · cases w.signals.get? t <;> simp
    · rfl
  · rw [hget] at hx
    split at hx
    · obtain ⟨y, hy, rfl⟩ := Option.map_eq_some_iff.1 hx
      have hs := h.steady t y hy
      exact ⟨hs.readers, hs.writing, Nat.lt_succ_of_lt hs.owned,
        fun hd => ⟨(hs.pending hd).1, Nat.lt_succ_of_lt (hs.pending hd).2⟩, hs.clean⟩
    · exact h.steady t x hx

theorem Tidy.retain_signal (h : Tidy host w members l) (s : Nat) :
    Tidy host (w.retain (.signal s)) members l := by
  have hget (t : Nat) : (w.retain (.signal s)).signals.get? t = if t = s then
      (w.signals.get? t).map fun x => { x with clones := x.clones + 1 } else w.signals.get? t :=
    Store.get?_modify ..
  have hkept : w.Kept (w.retain (.signal s)) := by
    refine .of_eq rfl rfl fun t ht => ?_
    rw [hget]
    split <;> simp_all
  have hcommitted : (w.retain (.signal s)).committed = w.committed := by
    funext t
    simp only [committed, hget]
    split
    · cases w.signals.get? t <;> rfl
    · rfl
  have hqueued := h.queued.retain_signal s
  refine ⟨⟨hqueued.calm, h.idle.probes, h.idle.sound, h.idle.rest, h.idle.observers⟩,
    h.family.kept hkept h.family.renamed, ?_, h.covered, hqueued, h.tasks, fun k hk => ?_⟩
  · rw [hcommitted]
    exact h.current.kept h.family hkept fun _ _ _ => Iff.rfl
  · obtain ⟨hs, hm, he⟩ := h.unused k hk
    exact ⟨by simp [hget, hs], hm, he⟩

theorem Tidy.retain_memo (h : Tidy host w members l) (k : Nat) :
    Tidy host (w.retain (.memo k)) members l := by
  have hget (j : Nat) : (w.retain (.memo k)).memos.get? j = if j = k then
      (w.memos.get? j).map fun x => { x with owners := x.owners + 1 } else w.memos.get? j :=
    Store.get?_modify ..
  have hkept : w.Kept (w.retain (.memo k)) := by
    refine ⟨fun j x hx => ?_, fun _ _ he => he, fun _ ht => ht⟩
    by_cases hj : j = k
    · subst hj
      exact ⟨x.owners + 1, x.bound, by simp [hget, hx]⟩
    · exact ⟨x.owners, x.bound, by simp [hget, hj, hx]⟩
  refine ⟨⟨h.idle.calm, h.idle.probes, h.idle.sound, h.idle.rest, h.idle.observers⟩,
    h.family.kept hkept h.family.renamed,
    h.current.kept h.family hkept fun _ _ _ => Iff.rfl, h.covered,
    ⟨h.queued.nodup, h.queued.dirty, h.queued.steady⟩, h.tasks, fun j hj => ?_⟩
  obtain ⟨hs, hm, he⟩ := h.unused j hj
  exact ⟨hs, by simp [hget, hm], he⟩

theorem Drafted.committed {first : List Nat} (hd : w.Drafted w' first) :
    w'.committed = w.committed := by
  funext s
  simp only [World.committed]
  cases hs : w.signals.get? s with
  | none => rw [(hd.absent s hs).1]
  | some x =>
    obtain ⟨x', hx', hdraft⟩ := hd.present s x hs
    simp [hx', hdraft.value]

theorem Tidy.drafted {first : List Nat} (h : Tidy host w members l) (hd : w.Drafted w' first) :
    Tidy host w' members (l ++ first) := by
  have hkept : w.Kept w' := .of_eq (by rw [hd.rest]) (by rw [hd.rest]) fun t ht =>
    hd.isSome t ▸ ht
  have hqueued := h.queued.drafted hd
  have hgraph : w'.graph = w.graph := by rw [hd.rest]
  refine ⟨⟨hqueued.calm, ?_, hgraph ▸ h.idle.sound, ?_, hgraph ▸ h.idle.observers⟩,
    h.family.kept hkept ?_, ?_, ?_, hqueued, ?_, fun k hk => ?_⟩
  · rw [hd.rest]
    exact h.idle.probes
  · rw [hd.rest]
    exact h.idle.rest
  · rw [hd.scope]
    exact h.family.renamed
  · rw [hd.committed]
    exact h.current.kept h.family hkept fun _ _ _ => by rw [hgraph]
  · rw [hd.rest]
    exact h.covered
  · rw [hd.rest, List.map_append, ← h.tasks]
  · rw [hd.rest] at hk
    obtain ⟨hs, hm, he⟩ := h.unused k hk
    refine ⟨(hd.absent k hs).1, ?_, ?_⟩
    · rw [hd.rest]
      exact hm
    · rw [hd.rest]
      exact he

end World

end FineGrain
