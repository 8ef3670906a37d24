import FineGrain.Proofs.Course.Coalescing
/-!
Writes inside writes. Whatever an updater does while its value is worked out, a commit writes what
the write that ended last has left: it takes the place of all that ended inside it. A write that
begins inside another one finds no pending value, and is worked out of the committed one. As long
as no tasks are run inside a write, what is left waits for a commit.
-/

namespace FineGrain

open Act

namespace History

variable {h : History} {ev : Event} {s : Nat}

/-- What the write that ended last has left, unless another one has begun since then or the state
was committed. -/
def left (s : Nat) : History → Option Value
  | [] => none
  | .composed k _ _ v :: h => if k = s then some v else left s h
  | .signalMade k _ _ _ :: h | .composing k _ _ _ :: h | .committed k _ :: h | .lapsed k :: h
  | .refused k :: h => if k = s then none else left s h
  | _ :: h => left s h

/-- A write has begun since the state was made or last committed. -/
def Waiting (s : Nat) : History → Prop
  | [] => False
  | .composing k _ _ _ :: h => k = s ∨ Waiting s h
  | .signalMade k _ _ _ :: h | .committed k _ :: h | .lapsed k :: h | .refused k :: h =>
      k ≠ s ∧ Waiting s h
  | _ :: h => Waiting s h

theorem left_other (hn : ev.state? ≠ some s) : left s (ev :: h) = h.left s := by
  have hne {k : Nat} (h : some k ≠ some s) : k ≠ s := fun h' => h (congrArg some h')
  cases ev with
  | signalMade | composing | composed | committed | lapsed | refused => exact if_neg (hne hn)
  | _ => rfl

theorem waiting_other (hn : ev.state? ≠ some s) : Waiting s (ev :: h) ↔ h.Waiting s := by
  have hne {k : Nat} (h : some k ≠ some s) : k ≠ s := fun h' => h (congrArg some h')
  cases ev with
  | signalMade | committed | lapsed | refused => exact and_iff_right (hne hn)
  | composing => exact or_iff_right (hne hn)
  | _ => exact Iff.rfl

/-- The cell of a state at any point of any run.

* `value`: it holds what was committed last
* `cache`: what is pending is what the write that ended last has left
* `dirty`, `queued`: one commit is queued exactly if a write has begun -/
structure Cell (h : History) (s : Nat) (x : Signal) : Prop where
  value : x.value = h.committed s
  cache : x.cache = h.left s
  dirty : x.dirty = true ↔ h.Waiting s
  queued : h.world.commits.count s = if x.dirty then 1 else 0

end History

namespace Course

variable {c : Course} {ev : Event} {s : Nat} {v : Value} {x x' : Signal}

theorem cell_other (h : c.history.Allows ev) (hn : ev.state? ≠ some s) (hs : c.history.Made s .state)
    (hx' : (c.push ev h).world.signals.get? s = some x')
    (ih : ∀ x, c.world.signals.get? s = some x → c.history.Cell s x) :
    (c.push ev h).history.Cell s x' := by
  obtain ⟨x, hx, hvalue, hdirty, hcache⟩ := cell_push h hs hn hx'
  have hold := ih x hx
  constructor
  · rw [hvalue, history_push, (log_push (c := c) hn).2, hold.value]
  · rw [hcache, history_push, History.left_other hn, hold.cache]
  · rw [hdirty, history_push, History.waiting_other hn, hold.dirty]
  · rw [hdirty]
    exact (queue_push h hn).2.trans hold.queued

theorem cell_settled (h : c.history.Allows ev) (hn : c.history.Next (.commit s))
    (hcommits : ev.commits = List.tail) (hleft : (c.push ev h).history.left s = none)
    (hwaiting : ¬ (c.push ev h).history.Waiting s)
    (hvalue : x'.value = (c.push ev h).history.committed s) (hdirty : x'.dirty = false)
    (hcache : x'.cache = none) (ih : c.history.Cell s x) : (c.push ev h).history.Cell s x' := by
  obtain ⟨tail, htail⟩ := List.head?_eq_some_iff.1 hn.1
  have hqueue : c.world.commits = s :: tail.filterMap Task.commit? := by
    rw [World.commits, show c.world.tasks = _ from htail]
    rfl
  refine ⟨hvalue, hcache.trans hleft.symm, iff_of_false (by simp [hdirty]) hwaiting, ?_⟩
  have hcount := ih.queued
  rw [show c.history.world.commits = _ from hqueue, List.count_cons_self] at hcount
  change (c.push ev h).world.commits.count s = _
  rw [commits_push, hcommits, hqueue, List.tail_cons, hdirty]
  split at hcount <;> simp_all

theorem cell_composing {write : Write} {first : Bool}
    (h : c.history.Allows (.composing s write first v)) (hx : c.world.signals.get? s = some x)
    (hx' : (c.push _ h).world.signals.get? s = some x') (ih : c.history.Cell s x) :
    (c.push _ h).history.Cell s x' := by
  obtain ⟨-, hfirst, -⟩ := id h
  change first = !((c.world.signals.get? s).getD default).dirty at hfirst
  rw [hx, Option.getD_some] at hfirst
  obtain ⟨hvalue, hdirty, hcache⟩ : x'.value = x.value ∧ x'.dirty = true ∧ x'.cache = none := by
    rw [world_push, Event.world, hx, Option.getD_some, World.opened_eq] at hx'
    simp only [Store.get?_modify, if_true, hx, Option.map_some, Option.some.injEq] at hx'
    subst hx'
    cases x.dirty <;> simp
  refine ⟨hvalue.trans ih.value, hcache.trans (if_pos rfl).symm, iff_of_true hdirty (.inl rfl), ?_⟩
  change (c.push _ h).world.commits.count s = _
  have hcount : c.world.commits.count s = _ := ih.queued
  rw [commits_push, Event.commits, hfirst, hdirty]
  cases hd : x.dirty <;> simp [hd] at hcount ⊢ <;> omega

theorem cell_made {kind : Kind} {clones : Nat} (h : c.history.Allows (.signalMade s kind v clones))
    (hx' : (c.push _ h).world.signals.get? s = some x') : (c.push _ h).history.Cell s x' := by
  have hnew : s ∉ c.world.commits := fun hc => by
    have hlt := made_lt (made_of_queued hc)
    rw [show s = c.world.next from h] at hlt
    exact Nat.lt_irrefl _ hlt
  rw [world_push] at hx'
  simp only [Event.world, Store.get?_put, if_true, Option.some.injEq] at hx'
  subst hx'
  refine ⟨(if_pos rfl).symm, (if_pos rfl).symm, iff_of_false Bool.false_ne_true fun hw => hw.1 rfl, ?_⟩
  exact List.count_eq_zero.2 hnew

theorem cell_of_made (hs : c.history.Made s .state) (hx : c.world.signals.get? s = some x) :
    c.history.Cell s x := by
  induction c using Course.induction generalizing x with
  | start => cases hx
  | push c ev hev ih =>
    -- As in batches, but a write may come inside another one: the invariant is about the cell alone.
    by_cases hn : ev.state? = some s
    · have hx' := hx
      rw [world_push] at hx'
      have hold (hkind : ∀ kind v clones, ev ≠ .signalMade s kind v clones) :
          c.history.Made s .state := by
        obtain ⟨v, clones, hm⟩ := hs
        exact ⟨v, clones, (List.mem_cons.1 hm).resolve_left fun h => hkind _ _ _ h.symm⟩
      cases ev with
      | signalMade k kind v clones =>
        obtain rfl := Option.some.inj hn
        exact cell_made hev hx
      | composing k write first current =>
        obtain rfl := Option.some.inj hn
        simp only [Event.world, World.opened_eq, Store.get?_modify, if_true] at hx'
        obtain ⟨y, hy, -⟩ := Option.map_eq_some_iff.1 hx'
        exact cell_composing hev hy hx (ih hev.1 hy)
      | composed k write start v =>
        obtain rfl := Option.some.inj hn
        simp only [Event.world, Store.get?_modify, if_true] at hx'
        obtain ⟨y, hy, rfl⟩ := Option.map_eq_some_iff.1 hx'
        have hcell := ih (hold (by simp)) hy
        exact ⟨hcell.value, (if_pos rfl).symm, hcell.dirty, hcell.queued⟩
      | committed k v =>
        obtain rfl := Option.some.inj hn
        simp only [Event.world, World.committing, Store.get?_modify, if_true] at hx'
        obtain ⟨y, hy, rfl⟩ := Option.map_eq_some_iff.1 hx'
        exact cell_settled hev hev.1 rfl (if_pos rfl) (fun hw => hw.1 rfl) (if_pos rfl).symm rfl rfl
          (ih (hold (by simp)) hy)
      | lapsed k | refused k =>
        obtain rfl := Option.some.inj hn
        simp only [Event.world, Store.get?_modify, if_true] at hx'
        obtain ⟨y, hy, rfl⟩ := Option.map_eq_some_iff.1 hx'
        have hcell := ih (hold (by simp)) hy
        exact cell_settled hev hev.1 rfl (if_pos rfl) (fun hw => hw.1 rfl) hcell.value rfl rfl hcell
      | _ => cases hn
    · have hs' := made_of_push hev hn hs
      exact cell_other hev hn hs' hx fun y hy => ih hs' hy

theorem composing_of_waiting (hw : c.history.Waiting s) (hl : c.history.left s = none) :
    c.history.Composing s := by
  induction c using Course.induction with
  | start => cases hw
  | push c ev hev ih =>
    by_cases hn : ev.state? = some s
    · cases ev with
      | composing k =>
        obtain rfl := Option.some.inj hn
        rw [History.Composing, composing_push]
        exact List.mem_cons_self
      | composed k write start v =>
        obtain rfl := Option.some.inj hn
        cases (if_pos rfl).symm.trans hl
      | signalMade | committed | lapsed | refused =>
        obtain rfl := Option.some.inj hn
        exact absurd rfl hw.1
      | _ => cases hn
    · refine (composing_other hev hn).2 (ih ((History.waiting_other hn).1 hw) ?_)
      exact (History.left_other hn).symm.trans hl

theorem waiting_of_composing (hd : c.history.Undrained) (hc : c.history.Composing s) :
    c.history.Waiting s := by
  induction c using Course.induction with
  | start => cases hc
  | push c ev hev ih =>
    by_cases hn : ev.state? = some s
    · have hnone (hnext : c.history.Next (.commit s)) (hcomposings : ev.composings = id) : False := by
        obtain ⟨-, n, start, hframe⟩ := hnext
        rw [History.Composing, composing_push, hcomposings, not_composing hd.tail hframe] at hc
        cases hc
      cases ev with
      | composing k => exact .inl (Option.some.inj hn)
      | composed k write start v =>
        rw [History.Composing, composing_push, Event.composings, List.map_tail] at hc
        exact ih hd (List.mem_of_mem_tail hc)
      | signalMade k =>
        obtain rfl := Option.some.inj hn
        rw [History.Composing, composing_push] at hc
        have hlt := made_lt (made_of_composing hc)
        rw [show k = c.world.next from hev] at hlt
        exact absurd hlt (Nat.lt_irrefl _)
      | committed | lapsed | refused =>
        obtain rfl := Option.some.inj hn
        exact (hnone hev.1 rfl).elim
      | _ => cases hn
    · exact (History.waiting_other hn).2 (ih hd.tail ((composing_other hev hn).1 hc))

theorem waiting_of_left (hd : c.history.Undrained) (hl : c.history.left s ≠ none) :
    c.history.Waiting s := by
  induction c using Course.induction with
  | start => cases hl rfl
  | push c ev hev ih =>
    by_cases hn : ev.state? = some s
    · cases ev with
      | composing k => exact .inl (Option.some.inj hn)
      | composed k write start v =>
        obtain rfl := Option.some.inj hn
        obtain ⟨current, hframe, -⟩ := id hev
        obtain ⟨rest, hrest⟩ := List.head?_eq_some_iff.1 hframe
        refine waiting_of_composing (c := c) hd.tail ?_
        rw [History.Composing, History.composing, hrest]
        exact List.mem_cons_self
      | signalMade | committed | lapsed | refused =>
        obtain rfl := Option.some.inj hn
        exact absurd (if_pos rfl) hl
      | _ => cases hn
    · rw [history_push, History.left_other hn] at hl
      exact (History.waiting_other hn).2 (ih hd.tail hl)

/-- A state at any point of any run, also while its own updaters write to it.

* `cell`: what is pending is what the write that ended last has left
* `current`: a write that begins is worked out of what is left, if a commit is queued, and of the
  committed value if nothing is left or no commit is queued
* `committed`, `lapsed`: a commit writes what is left, and nothing if nothing is
* `pending`: if no tasks are run inside a write and none is under way, a value is pending exactly if a
  commit is queued -/
structure Reentrant (c : Course) (s : Nat) (x : Signal) : Prop where
  cell : c.history.Cell s x
  current : ∀ write first current, c.history.Allows (.composing s write first current) →
    (first = true ↔ ¬ c.history.Waiting s) ∧
      current = (if first then none else c.history.left s).getD (c.history.committed s)
  committed : ∀ v, c.history.Allows (.committed s v) → c.history.left s = some v
  lapsed : c.history.Allows (.lapsed s) → c.history.left s = none
  pending : c.history.Undrained → ¬ c.history.Composing s → (x.cache.isSome ↔ x.dirty = true)

theorem reentrant (hs : c.history.Made s .state) (hx : c.world.signals.get? s = some x) :
    c.Reentrant s x := by
  have hcell := cell_of_made hs hx
  have hget : (c.history.world.signals.get? s).getD default = x := by
    rw [show c.history.world.signals.get? s = some x from hx, Option.getD_some]
  refine ⟨hcell, fun write first current h => ?_, fun v h => ?_, fun h => ?_, fun hd hc => ?_⟩
  · obtain ⟨-, hfirst, hcurrent⟩ := h
    rw [hget] at hfirst hcurrent
    rw [hfirst, hcurrent, World.pendingValue, hcell.value, hcell.cache, ← hcell.dirty]
    cases x.dirty <;> simp
  · exact hcell.cache.symm.trans (hget ▸ h.2.2)
  · exact hcell.cache.symm.trans (hget ▸ h.2)
  · rw [hcell.dirty, hcell.cache, Option.isSome_iff_ne_none]
    refine ⟨waiting_of_left hd, fun hw hl => hc (composing_of_waiting hw hl)⟩

end Course

/-- The inner of two updaters gets the committed value, and the outer one takes its place. -/
example :
    (Program.run [
      .create "s" (.state (.value (.integer 0))),
      .on "s" "set" (.set (.value (.integer 5))),
      .on "s" "update" (.update (.sequence [
        .on "s" "update" (.update (.sequence [.log [.argument 0], .value (.integer 10)])),
        .arithmetic .add (.argument 0) (.value (.integer 1))])),
      .log [.on "s" "pending" .pending]]).map (·.log) = [[], [], ["0"], ["6"]] := by
  decide +kernel

/-- What a write leaves in whose middle the tasks are run waits for no commit. -/
example :
    (Program.run [
      .create "s" (.state (.value (.integer 0))),
      .on "s" "update" (.update (.sequence [.drain, .value (.integer 1)])),
      .log [.on "s" "pending" .pending, .value (.string " "), .pendingTasks]]).map (·.log) =
        [[], [], ["1 0"]] := by
  decide +kernel

end FineGrain
