import FineGrain.Proofs.World.Spread
import FineGrain.Proofs.World.Writing
/-!
Pending commits. A state waits for a commit exactly if its cache holds a value; each waiting state
has one commit queued, which keeps the state alive until then.
-/

namespace FineGrain

open Act

def Task.commit? : Task → Option Nat
  | .commit s => some s
  | _ => none

/-- A signal that nobody borrows; a pending value has an owner of its own. -/
structure Signal.Steady (x : Signal) : Prop where
  readers : x.readers = 0
  writing : x.writing = false
  owned : 0 < x.clones
  pending : x.dirty = true → x.cache.isSome ∧ 1 < x.clones
  clean : x.dirty = false → x.cache = none

theorem Signal.Drafted.steady {x x' : Signal} {first : Prop} (hd : x.Drafted x' first)
    (h : x.Steady) : x'.Steady := by
  have hcache : x.dirty = false ∨ x.cache.isSome := by
    cases hx : x.dirty with
    | false => exact .inl rfl
    | true => exact .inr (h.pending hx).1
  by_cases hf : first
  · obtain ⟨hx, hx', hc⟩ := hd.queued hf
    have howned := h.owned
    exact ⟨hd.readers.trans h.readers, hd.writing.trans h.writing, by omega,
      fun hx' => ⟨hd.filled hx' hcache, by omega⟩, fun hn => by simp [hx'] at hn⟩
  · obtain ⟨hx, hc⟩ := hd.unqueued hf
    refine ⟨hd.readers.trans h.readers, hd.writing.trans h.writing, hc ▸ h.owned,
      fun hx' => ⟨hd.filled hx' hcache, ?_⟩, fun hx' => ?_⟩
    · exact hc ▸ (h.pending (hx ▸ hx')).2
    · exact (hd.untouched hx').trans (h.clean (hx ▸ hx'))

/-- A signal after the commit of a value. -/
def Signal.released (x : Signal) (v : Value) : Signal :=
  { x with cache := none, dirty := false, value := v, clones := x.clones - 1 }

theorem Signal.Steady.released {x : Signal} (h : x.Steady) (hd : x.dirty = true) (v : Value) :
    (x.released v).Steady := by
  have := (h.pending hd).2
  have howned : 0 < (x.released v).clones := by
    simp only [Signal.released]
    omega
  exact ⟨h.readers, h.writing, howned, fun hn => by simp [Signal.released] at hn, fun _ => rfl⟩

namespace World

/-- The states in `l` wait for a commit, in this order, and no others. -/
structure Queued (w : World) (l : List Nat) : Prop where
  nodup : l.Nodup
  dirty : ∀ s, s ∈ l ↔ ∃ x, w.signals.get? s = some x ∧ x.dirty = true
  steady : ∀ s x, w.signals.get? s = some x → x.Steady

variable {host : Host} {w w' : World} {l first : List Nat} {s : Nat}

theorem Queued.calm (h : w.Queued l) : w.Calm := fun s x hx => (h.steady s x hx).writing

theorem Queued.drafted (h : w.Queued l) (hd : w.Drafted w' first) : w'.Queued (l ++ first) := by
  have hdirty (t : Nat) : t ∈ l ++ first ↔ ∃ x, w'.signals.get? t = some x ∧ x.dirty = true := by
    rw [List.mem_append, h.dirty]
    cases ht : w.signals.get? t with
    | none => simp [(hd.absent t ht).1, (hd.absent t ht).2]
    | some x =>
      obtain ⟨x', hx', hdraft⟩ := hd.present t x ht
      by_cases hf : t ∈ first
      · simp [hx', hf, (hdraft.queued hf).2.1]
      · simp [hx', hf, (hdraft.unqueued hf).1]
  refine ⟨List.nodup_append.2 ⟨h.nodup, hd.nodup, ?_⟩, hdirty, fun t x' hx' => ?_⟩
  · rintro t ht _ hf rfl
    obtain ⟨x, hx, hdx⟩ := (h.dirty t).1 ht
    obtain ⟨_, _, hdraft⟩ := hd.present t x hx
    simp [(hdraft.queued hf).1] at hdx
  · cases hx : w.signals.get? t with
    | none => simp [(hd.absent t hx).1] at hx'
    | some x =>
      obtain ⟨y, hy, hdraft⟩ := hd.present t x hx
      obtain rfl : y = x' := by simpa [hx'] using hy.symm
      exact hdraft.steady (h.steady t x hx)

theorem Queued.head (h : w.Queued (s :: l)) :
    ∃ x v, w.signals.get? s = some x ∧ x.cache = some v ∧ x.dirty = true ∧ x.Steady := by
  obtain ⟨x, hx, hd⟩ := (h.dirty s).1 (by simp)
  obtain ⟨v, hv⟩ := Option.isSome_iff_exists.1 ((h.steady s x hx).pending hd).1
  exact ⟨x, v, hx, hv, hd, h.steady s x hx⟩

theorem Queued.tail {x : Signal} {v : Value} (h : w.Queued (s :: l))
    (hx : w.signals.get? s = some x)
    (hw' : ∀ t, w'.signals.get? t = if t = s then some (x.released v) else w.signals.get? t) :
    w'.Queued l := by
  have hd : x.dirty = true := by
    obtain ⟨y, hy, hd⟩ := (h.dirty s).1 (by simp)
    obtain rfl : x = y := by simpa [hx] using hy
    exact hd
  have hnodup := List.nodup_cons.1 h.nodup
  refine ⟨hnodup.2, fun t => ?_, fun t y hy => ?_⟩
  · rw [hw']
    by_cases ht : t = s
    · subst ht
      simp [Signal.released, hnodup.1]
    · simpa [ht] using h.dirty t
  · rw [hw'] at hy
    split at hy
    · obtain rfl : x.released v = y := by simpa using hy
      exact (h.steady s x hx).released hd v
    · exact h.steady t y hy

theorem Queued.run_commit {x : Signal} {v : Value} (h : w.Queued (s :: l))
    (hx : w.signals.get? s = some x) (hv : x.cache = some v)
    (hn : (w.committing s v).run (notify host s) = (.ok ⟨⟩, w'))
    (hsame : w'.signals = (w.committing s v).signals) :
    w.run (commit host s) =
      (.ok ⟨⟩, { w' with signals := w'.signals.put s (x.released v) }) := by
  have hs := h.steady s x hx
  have hd : x.dirty = true := by
    cases hd : x.dirty with
    | true => rfl
    | false => simp [hs.clean hd] at hv
  exact World.run_commit hx hv hs.writing hs.readers (hs.pending hd).2 hn hsame

theorem get?_committed {x : Signal} {v : Value}
    (hsame : w'.signals = (w.committing s v).signals) (t : Nat) :
    (w'.signals.put s (x.released v)).get? t =
      if t = s then some (x.released v) else w.signals.get? t := by
  rw [Store.get?_put, hsame, committing]
  split
  · rfl
  · rename_i ht
    simp [Store.get?_modify, ht]

end World

end FineGrain
