import FineGrain.Proofs.Course.Programs
/-!
Coalesced writes refine a log of writes. Between two commits a state keeps the writes made to it; its
pending value is their fold, and the next commit writes that fold.
-/

namespace FineGrain

open Act

/-- The state whose next value is being worked out, and the value that it is worked out of. -/
def Frame.composing? : Frame → Option (Nat × Value)
  | .composing s _ current _ => some (s, current)
  | _ => none

namespace Frame

/-- Below a drain nothing is being worked out. -/
def Quiet : List Frame → Prop
  | [] => True
  | .draining _ _ :: rest => rest.filterMap composing? = [] ∧ Quiet rest
  | _ :: rest => Quiet rest

theorem quiet_tail {fs : List Frame} (h : Quiet fs) : Quiet fs.tail := by
  cases fs with
  | nil => exact h
  | cons f rest => cases f <;> first | exact h | exact h.2

theorem quiet_count {fs : List Frame} (h : Quiet fs) : Quiet (count fs) := by
  unfold count
  split <;> exact h

end Frame

/-- The states that have a commit queued, in the order of the queue. -/
def World.commits (w : World) : List Nat := w.tasks.filterMap Task.commit?

namespace Event

/-- The state whose writes a step concerns. -/
def state? : Event → Option Nat
  | signalMade s _ _ _ | composing s _ _ _ | composed s _ _ _ | committed s _ | lapsed s
  | refused s => some s
  | _ => none

/-- What is being worked out after a step. -/
def composings : Event → List (Nat × Value) → List (Nat × Value)
  | composing s _ _ current, l => (s, current) :: l
  | composed _ _ _ _, l => l.tail
  | _, l => l

/-- The commits that are queued after a step. -/
def commits : Event → List Nat → List Nat
  | composing s _ first _, l => if first then l ++ [s] else l
  | committed _ _, l | lapsed _, l | refused _, l => l.tail
  | _, l => l

end Event

namespace History

/-- The states whose next values are being worked out, the innermost first. -/
def composing (h : History) : List (Nat × Value) := h.frames.filterMap Frame.composing?

def Composing (h : History) (s : Nat) : Prop := s ∈ h.composing.map (·.1)

/-- What a state was made with, or what its last commit has written. -/
def committed (s : Nat) : History → Value
  | [] => .null
  | .signalMade k _ v _ :: h | .committed k v :: h => if k = s then v else committed s h
  | _ :: h => committed s h

/-- The writes made to a state since its last commit, each with the world in which its next value was
worked out. -/
def batch (s : Nat) : History → List (Write × World)
  | [] => []
  | .composed k write start _ :: h => if k = s then batch s h ++ [(write, start)] else batch s h
  | .committed k _ :: h | .lapsed k :: h | .refused k :: h => if k = s then [] else batch s h
  | _ :: h => batch s h

def apply (v : Value) (entry : Write × World) : Option Value :=
  (entry.2.run (entry.1.next v)).1.toOption

/-- What the writes since the last commit make of the committed value. -/
def fold (h : History) (s : Nat) : Option Value := (h.batch s).foldlM apply (h.committed s)

/-- The states in the order of the first writes after their commits. -/
def opened : History → List Nat
  | [] => []
  | .composing s _ first _ :: h => if first then opened h ++ [s] else opened h
  | _ :: h => opened h

/-- The states in the order of their commits. -/
def settled : History → List Nat
  | [] => []
  | .committed s _ :: h | .lapsed s :: h | .refused s :: h => settled h ++ [s]
  | _ :: h => settled h

/-- While the next value of a state is worked out, the state is not written and no tasks are run. -/
def Disciplined : History → Prop
  | [] => True
  | .composing s _ _ _ :: h => ¬ Composing h s ∧ Disciplined h
  | .draining :: h => composing h = [] ∧ Disciplined h
  | _ :: h => Disciplined h

/-- While the next value of a state is worked out, no tasks are run. -/
def Undrained : History → Prop
  | [] => True
  | .draining :: h => composing h = [] ∧ Undrained h
  | _ :: h => Undrained h

/-- How the cell of a state goes with the writes made to it. -/
structure Coalesced (h : History) (s : Nat) (x : Signal) : Prop where
  value : x.value = h.committed s
  dirty : x.dirty = true ↔ h.Composing s ∨ h.batch s ≠ []
  queued : h.world.commits.count s = if x.dirty then 1 else 0
  folds : ∃ v, h.fold s = some v ∧ (∀ current, (s, current) ∈ h.composing → current = v) ∧
    (¬ h.Composing s → x.cache = if h.batch s = [] then none else some v)
  taken : h.Composing s → x.cache = none

theorem Coalesced.clean {h : History} {s : Nat} {x : Signal} (hvalue : x.value = h.committed s)
    (hdirty : x.dirty = false) (hcache : x.cache = none) (hbatch : h.batch s = [])
    (hcomposing : ¬ h.Composing s) (hcount : h.world.commits.count s = 0) : h.Coalesced s x where
  value := hvalue
  dirty := by simp [hdirty, hbatch, hcomposing]
  queued := by simp [hdirty, hcount]
  folds := by
    refine ⟨h.committed s, by simp [fold, hbatch], fun current hc => ?_, fun _ => by simp [hcache, hbatch]⟩
    exact absurd (List.mem_map_of_mem hc) hcomposing
  taken hc := absurd hc hcomposing

theorem Disciplined.tail {ev : Event} {h : History} (hd : Disciplined (ev :: h)) : h.Disciplined := by
  cases ev <;> first | exact hd | exact hd.2

theorem Undrained.tail {ev : Event} {h : History} (hd : Undrained (ev :: h)) : h.Undrained := by
  cases ev <;> first | exact hd | exact hd.2

theorem Disciplined.undrained {h : History} (hd : h.Disciplined) : h.Undrained := by
  induction h with
  | nil => trivial
  | cons ev h ih =>
    cases ev with
    | draining => exact ⟨hd.1, ih hd.2⟩
    | _ => exact ih hd.tail

end History

namespace Course

variable {c : Course} {ev : Event} {s : Nat} {v : Value}

/-! ### What is being worked out -/

theorem composing_unchanged (h : c.history.Allows ev)
    (hopen : ∀ s write first current, ev ≠ .composing s write first current)
    (hclose : ∀ s write start v, ev ≠ .composed s write start v) :
    (c.push ev h).history.composing = c.history.composing := by
  refine (frames_step h).read_eq (r := List.filterMap Frame.composing?) (fun f fs hby => ?_)
    fun t start fs _ => ?_
  · refine List.filterMap_cons_none ?_
    cases f with
    | composing s write current start =>
      obtain ⟨first, rfl⟩ | ⟨v, rfl⟩ := hby
      · exact absurd rfl (hopen s write first current)
      · exact absurd rfl (hclose s write start v)
    | _ => rfl
  · unfold Frame.count
    split <;> rfl

theorem composing_push (h : c.history.Allows ev) :
    (c.push ev h).history.composing = ev.composings c.history.composing := by
  cases ev with
  | composing => rfl
  | composed s write start v =>
    obtain ⟨current, hhead, -⟩ := id h
    have hframes : c.history.frames = .composing s write current start :: _ := frames_closed h hhead rfl
    rw [History.composing, History.composing, hframes]
    rfl
  | _ => exact composing_unchanged h nofun nofun

theorem made_of_composing (h : c.history.Composing s) : c.history.Made s .state := by
  induction c using Course.induction with
  | start => cases h
  | push c ev hev ih =>
    unfold History.Composing at h
    rw [composing_push hev] at h
    have hold : c.history.Composing s ∨ ∃ write first current,
        ev = .composing s write first current := by
      cases ev with
      | composing k write first current =>
        rcases List.mem_cons.1 h with rfl | h
        · exact .inr ⟨write, first, current, rfl⟩
        · exact .inl h
      | composed k write start v =>
        refine .inl ?_
        rw [Event.composings, List.map_tail] at h
        exact List.mem_of_mem_tail h
      | _ => exact .inl h
    rcases hold with hold | ⟨write, first, current, rfl⟩
    · exact made_mono (le_push hev) (ih hold)
    · exact made_mono (le_push hev) hev.1

theorem composing_nodup (hd : c.history.Disciplined) : (c.history.composing.map (·.1)).Nodup := by
  induction c using Course.induction with
  | start => exact List.nodup_nil
  | push c ev hev ih =>
    have hc := ih hd.tail
    rw [composing_push hev]
    cases ev with
    | composing k write first current => exact List.nodup_cons.2 ⟨hd.1, hc⟩
    | composed k write start v =>
      rw [Event.composings, List.map_tail]
      exact hc.sublist (List.tail_sublist _)
    | _ => exact hc

theorem quiet (hd : c.history.Undrained) : Frame.Quiet c.frames := by
  induction c using Course.induction with
  | start => exact trivial
  | push c ev hev ih =>
    have hc := ih hd.tail
    rw [frames_push]
    cases ev with
    | draining => exact ⟨hd.1, hc⟩
    | taskDone t => exact Frame.quiet_count (Frame.quiet_tail hc)
    | shown | withdrawn | finished | updated | composed | computed | recomputed | jobDone
    | cleanupEnded | bodyEnded | drained => exact Frame.quiet_tail hc
    | _ => exact hc

theorem not_composing {n : Nat} {start : World} (hd : c.history.Undrained)
    (hc : c.history.frames.head? = some (.draining n start)) : c.history.composing = [] := by
  have hq := quiet hd
  obtain ⟨rest, hrest⟩ := List.head?_eq_some_iff.1 hc
  unfold History.composing
  rw [show c.frames = _ from hrest] at hq
  rw [hrest]
  exact hq.1

/-! ### What is queued -/

theorem commits_push (h : c.history.Allows ev) :
    (c.push ev h).world.commits = ev.commits c.world.commits := by
  unfold World.commits
  rw [world_push]
  cases ev with
  | aside w => rw [Event.world, World.Aside.tasks h]; rfl
  | composing k write first current =>
    obtain ⟨-, rfl, -⟩ := h
    simp only [Event.world, World.opened_eq, Event.commits]
    change List.filterMap _ (if ((c.world.signals.get? k).getD default).dirty then _ else _) =
      if (!((c.world.signals.get? k).getD default).dirty) then _ else _
    cases ((c.world.signals.get? k).getD default).dirty <;> simp [Task.commit?]
  | committed | lapsed | refused =>
    obtain ⟨⟨hn, -⟩, -⟩ := h
    obtain ⟨tail, htail⟩ := List.head?_eq_some_iff.1 hn
    have htail : c.world.tasks = _ := htail
    simp [Event.world, World.committing, Event.commits, htail, Task.commit?]
  | taskBegun t =>
    obtain ⟨⟨hn, -⟩, ht⟩ := h
    obtain ⟨tail, htail⟩ := List.head?_eq_some_iff.1 hn
    have htail : c.world.tasks = _ := htail
    simp [Event.world, Event.commits, htail, ht]
  | scheduled e =>
    simp only [Event.world, World.awaiting_one, Event.commits]
    split <;> simp [Task.commit?]
  | jobQueued k phase =>
    simp only [Event.world, Event.commits]
    split <;> simp [Task.commit?]
  | queued | firstRunQueued => simp [Event.world, Event.commits, Task.commit?]
  | _ => rfl

theorem made_of_queued (h : s ∈ c.world.commits) : c.history.Made s .state := by
  induction c using Course.induction with
  | start => cases h
  | push c ev hev ih =>
    rw [commits_push hev] at h
    suffices hold : s ∈ c.world.commits ∨ ∃ write first current,
        ev = .composing s write first current by
      rcases hold with hold | ⟨write, first, current, rfl⟩
      · exact made_mono (le_push hev) (ih hold)
      · exact made_mono (le_push hev) hev.1
    cases ev with
    | composing k write first current =>
      simp only [Event.commits] at h
      split at h
      · rcases List.mem_append.1 h with h | h
        · exact .inl h
        · obtain rfl := List.mem_singleton.1 h
          exact .inr ⟨write, first, current, rfl⟩
      · exact .inl h
    | committed | lapsed | refused => exact .inl (List.mem_of_mem_tail h)
    | _ => exact .inl h

/-- The commits that were made and those that are queued follow the first writes. -/
theorem opened_eq (c : Course) : c.history.opened = c.history.settled ++ c.world.commits := by
  induction c using Course.induction with
  | start => rfl
  | push c ev hev ih =>
    rw [commits_push hev, history_push]
    cases ev with
    | composing k write first current =>
      simp only [History.opened, History.settled, Event.commits]
      cases first <;> simp [ih]
    | committed k | lapsed k | refused k =>
      obtain ⟨⟨hn, -⟩, -⟩ := hev
      obtain ⟨tail, htail⟩ := List.head?_eq_some_iff.1 hn
      have hcommits : c.world.commits = k :: tail.filterMap Task.commit? := by
        rw [World.commits, show c.world.tasks = _ from htail]
        rfl
      simp [History.opened, History.settled, Event.commits, ih, hcommits]
    | _ => exact ih

/-! ### The log of writes -/

theorem made_of_batch (h : c.history.batch s ≠ []) : c.history.Made s .state := by
  induction c using Course.induction with
  | start => cases h rfl
  | push c ev hev ih =>
    suffices hold : c.history.batch s ≠ [] ∨ c.history.Composing s by
      rcases hold with hold | hold
      · exact made_mono (le_push hev) (ih hold)
      · exact made_mono (le_push hev) (made_of_composing hold)
    rw [history_push] at h
    cases ev with
    | composed k write start v =>
      by_cases hk : k = s
      · obtain ⟨current, hc, -⟩ := hev
        obtain ⟨rest, hrest⟩ := List.head?_eq_some_iff.1 hc
        refine .inr ?_
        unfold History.Composing History.composing
        rw [hrest, ← hk]
        exact List.mem_cons_self
      · rw [History.batch, if_neg hk] at h
        exact .inl h
    | committed k | lapsed k | refused k =>
      rw [History.batch] at h
      split at h
      · cases h rfl
      · exact .inl h
    | _ => exact .inl h

theorem log_push (hn : ev.state? ≠ some s) :
    History.batch s (ev :: c.history) = c.history.batch s ∧
      History.committed s (ev :: c.history) = c.history.committed s := by
  have hne {k : Nat} (h : some k ≠ some s) : k ≠ s := fun h' => h (congrArg some h')
  cases ev with
  | signalMade | composed | committed | lapsed | refused =>
    have hk := hne hn
    simp [History.batch, History.committed, hk]
  | _ => exact ⟨rfl, rfl⟩

theorem cell_push {x' : Signal} (h : c.history.Allows ev) (hs : c.history.Made s .state)
    (hn : ev.state? ≠ some s) (hx' : (c.push ev h).world.signals.get? s = some x') :
    ∃ x, c.world.signals.get? s = some x ∧ x'.value = x.value ∧ x'.dirty = x.dirty ∧
      x'.cache = x.cache := by
  have hne {k : Nat} (h : some k ≠ some s) : s ≠ k := fun h' => h (congrArg some h'.symm)
  have hplain {k : Nat} (h : c.history.Made k .plain) : s ≠ k := by
    rintro rfl
    cases made_unique hs h
  rw [world_push] at hx'
  -- Steps about other states change other entries; those of a plain signal can not be about this
  -- one.
  cases ev with
  | aside w =>
    have hsame := World.Aside.signals h s
    rw [show w.signals.get? s = some x' from hx'] at hsame
    obtain ⟨x, hx, hxx⟩ := Option.map_eq_some_iff.1 hsame.symm
    exact ⟨x, hx, (congrArg Signal.value hxx).symm, (congrArg Signal.dirty hxx).symm,
      (congrArg Signal.cache hxx).symm⟩
  | signalMade k =>
    have hk := hne hn
    simp only [Event.world, Store.get?_put, hk, if_false] at hx'
    exact ⟨x', hx', rfl, rfl, rfl⟩
  | composed k | committed k | lapsed k | refused k =>
    have hk := hne hn
    simp only [Event.world, World.committing, Store.get?_modify, hk, if_false] at hx'
    exact ⟨x', hx', rfl, rfl, rfl⟩
  | composing k =>
    have hk := hne hn
    simp only [Event.world, World.opened_eq, Store.get?_modify, hk, if_false] at hx'
    exact ⟨x', hx', rfl, rfl, rfl⟩
  | assigned k | updating k | updated k =>
    have hk := hplain h.1
    simp only [Event.world, Store.get?_modify, hk, if_false] at hx'
    exact ⟨x', hx', rfl, rfl, rfl⟩
  | signalGone k =>
    simp only [Event.world, Store.get?_erase] at hx'
    split at hx'
    · cases hx'
    · exact ⟨x', hx', rfl, rfl, rfl⟩
  | _ => exact ⟨x', hx', rfl, rfl, rfl⟩

theorem queue_push (h : c.history.Allows ev) (hn : ev.state? ≠ some s) :
    (∀ v, (s, v) ∈ (c.push ev h).history.composing ↔ (s, v) ∈ c.history.composing) ∧
      (c.push ev h).world.commits.count s = c.world.commits.count s := by
  have hne {k : Nat} (h : some k ≠ some s) : k ≠ s := fun h' => h (congrArg some h')
  rw [composing_push, commits_push]
  cases ev with
  | composing k write first current =>
    have hk := hne hn
    have hk' : ¬ s = k := fun h => hk h.symm
    simp only [Event.composings, Event.commits, List.mem_cons, Prod.mk.injEq, hk', false_and,
      false_or, implies_true, true_and]
    cases first <;> simp [hk]
  | composed k write start v =>
    have hk : ¬ s = k := fun h => hne hn h.symm
    obtain ⟨current, hc, -⟩ := h
    obtain ⟨rest, hrest⟩ := List.head?_eq_some_iff.1 hc
    have hcomposing : c.history.composing = (k, current) :: rest.filterMap Frame.composing? := by
      rw [History.composing, hrest]
      rfl
    simp [Event.composings, Event.commits, hcomposing, hk]
  | committed k | lapsed k | refused k =>
    have hk := hne hn
    obtain ⟨⟨hnext, -⟩, -⟩ := h
    obtain ⟨tail, htail⟩ := List.head?_eq_some_iff.1 hnext
    have hcommits : c.world.commits = k :: tail.filterMap Task.commit? := by
      rw [World.commits, show c.world.tasks = _ from htail]
      rfl
    simp [Event.composings, Event.commits, hcommits, hk]
  | _ => exact ⟨fun _ => Iff.rfl, rfl⟩

theorem composing_other (h : c.history.Allows ev) (hn : ev.state? ≠ some s) :
    (c.push ev h).history.Composing s ↔ c.history.Composing s := by
  simp only [History.Composing, List.mem_map, Prod.exists, exists_and_right, exists_eq_right,
    (queue_push h hn).1]

theorem made_of_push (h : c.history.Allows ev) (hn : ev.state? ≠ some s) {kind : Kind}
    (hs : (c.push ev h).history.Made s kind) : c.history.Made s kind := by
  obtain ⟨v, clones, hm⟩ := hs
  rcases List.mem_cons.1 hm with rfl | hm
  · exact absurd rfl hn
  · exact ⟨v, clones, hm⟩

theorem coalesced_other {x' : Signal} (h : c.history.Allows ev) (hn : ev.state? ≠ some s)
    (hs : c.history.Made s .state) (hx' : (c.push ev h).world.signals.get? s = some x')
    (ih : ∀ x, c.world.signals.get? s = some x → c.history.Coalesced s x) :
    (c.push ev h).history.Coalesced s x' := by
  obtain ⟨x, hx, hvalue, hdirty, hcache⟩ := cell_push h hs hn hx'
  obtain ⟨hbatch, hcommitted⟩ := log_push (c := c) hn
  obtain ⟨hmem, hcount⟩ := queue_push h hn
  have hcomposing := composing_other h hn
  have hfold : (c.push ev h).history.fold s = c.history.fold s := by
    rw [History.fold, history_push, hbatch, hcommitted, History.fold]
  have hold := ih x hx
  constructor
  · rw [hvalue, history_push, hcommitted, hold.value]
  · rw [hdirty, hcomposing, history_push, hbatch, hold.dirty]
  · rw [hdirty]
    exact hcount.trans hold.queued
  · obtain ⟨v, hv, hcurrent, hpending⟩ := hold.folds
    refine ⟨v, hfold.trans hv, fun current hc => hcurrent current ((hmem current).1 hc), fun hc => ?_⟩
    rw [hcache, history_push, hbatch]
    exact hpending fun hc' => hc (hcomposing.2 hc')
  · rw [hcomposing, hcache]
    exact hold.taken

theorem coalesced_made {x' : Signal} {clones : Nat}
    (h : c.history.Allows (.signalMade s .state v clones))
    (hx' : (c.push _ h).world.signals.get? s = some x') : (c.push _ h).history.Coalesced s x' := by
  have hnew : ¬ c.history.Made s .state := by
    intro hs
    have hlt := made_lt hs
    rw [show s = c.world.next from h] at hlt
    exact Nat.lt_irrefl _ hlt
  have hx' : ({ c.world with
      next := c.world.next + 1
      signals := c.world.signals.put s ⟨v, clones, 0, false, false, none⟩ } : World).signals.get? s =
        some x' := hx'
  rw [Store.get?_put, if_pos rfl] at hx'
  obtain rfl := Option.some.inj hx'
  refine .clean (if_pos rfl).symm rfl rfl ?_ ?_ ?_
  · exact Classical.byContradiction fun hb => hnew (made_of_batch (c := c) hb)
  · intro hc
    rw [History.Composing, composing_push] at hc
    exact hnew (made_of_composing hc)
  · exact List.count_eq_zero.2 fun hc => hnew (made_of_queued (c := c) hc)

theorem coalesced_settled {x x' : Signal} (h : c.history.Allows ev) (hd : c.history.Disciplined)
    (hn : c.history.Next (.commit s)) (hcommits : ev.commits = List.tail)
    (hcomposings : ev.composings = id) (hbatch : (c.push ev h).history.batch s = [])
    (hvalue : x'.value = (c.push ev h).history.committed s) (hdirty : x'.dirty = false)
    (hcache : x'.cache = none) (ih : c.history.Coalesced s x) :
    (c.push ev h).history.Coalesced s x' := by
  obtain ⟨hnext, n, start, hframe⟩ := hn
  obtain ⟨tail, htail⟩ := List.head?_eq_some_iff.1 hnext
  have hqueue : c.world.commits = s :: tail.filterMap Task.commit? := by
    rw [World.commits, show c.world.tasks = _ from htail]
    rfl
  refine .clean hvalue hdirty hcache hbatch ?_ ?_
  · rw [History.Composing, composing_push, hcomposings, not_composing hd.undrained hframe]
    exact List.not_mem_nil
  · have hcount := ih.queued
    rw [show c.history.world.commits = _ from hqueue, List.count_cons_self] at hcount
    change (c.push ev h).world.commits.count s = 0
    rw [commits_push, hcommits, hqueue, List.tail_cons]
    split at hcount <;> omega

theorem coalesced_composing {x x' : Signal} {write : Write} {first : Bool}
    (h : c.history.Allows (.composing s write first v)) (hnot : ¬ c.history.Composing s)
    (hx : c.world.signals.get? s = some x) (hx' : (c.push _ h).world.signals.get? s = some x')
    (ih : c.history.Coalesced s x) : (c.push _ h).history.Coalesced s x' := by
  have hallowed := h
  obtain ⟨-, hfirst, hcurrent⟩ := hallowed
  change v = World.pendingValue ((c.world.signals.get? s).getD default) at hcurrent
  change first = !((c.world.signals.get? s).getD default).dirty at hfirst
  rw [hx, Option.getD_some] at hcurrent hfirst
  obtain ⟨u, hfold, -, hcache⟩ := ih.folds
  have hcell : x'.value = x.value ∧ x'.dirty = true ∧ x'.cache = none := by
    rw [world_push, Event.world, hx, Option.getD_some, World.opened_eq] at hx'
    simp only [Store.get?_modify, if_true, hx, Option.map_some, Option.some.injEq] at hx'
    subst hx'
    cases x.dirty <;> simp
  have hqueued : (c.push _ h).world.commits.count s = 1 := by
    rw [commits_push, Event.commits, hfirst]
    have hcount := ih.queued
    change c.world.commits.count s = _ at hcount
    cases hd : x.dirty <;> simp [hd] at hcount ⊢ <;> omega
  -- The function starts from the value that the batch has come to, or from the committed one if the
  -- batch is empty.
  have hv : u = v := by
    rw [hcurrent, World.pendingValue]
    cases hd : x.dirty with
    | true =>
      have hbatch : c.history.batch s ≠ [] := (ih.dirty.1 hd).resolve_left hnot
      simp [hcache hnot, hbatch]
    | false =>
      have hbatch : c.history.batch s = [] := by
        refine Classical.byContradiction fun hb => ?_
        rw [ih.dirty.2 (.inr hb)] at hd
        cases hd
      rw [History.fold, hbatch] at hfold
      rw [ih.value]
      exact (Option.some.inj hfold).symm
  have hcomposing : (c.push _ h).history.Composing s := by
    rw [History.Composing, composing_push]
    exact List.mem_cons_self
  refine ⟨hcell.1.trans ih.value, ?_, ?_, ⟨v, hv ▸ hfold, fun current hc => ?_, ?_⟩, fun _ => hcell.2.2⟩
  · exact iff_of_true hcell.2.1 (.inl hcomposing)
  · rw [if_pos hcell.2.1]
    exact hqueued
  · rw [composing_push] at hc
    rcases List.mem_cons.1 hc with hc | hc
    · exact (Prod.mk.inj hc).2
    · exact absurd (List.mem_map_of_mem hc) hnot
  · exact fun hc => absurd hcomposing hc

theorem coalesced_composed {x x' : Signal} {write : Write} {start : World}
    (h : c.history.Allows (.composed s write start v)) (hd : c.history.Disciplined)
    (hx : c.world.signals.get? s = some x) (hx' : (c.push _ h).world.signals.get? s = some x')
    (ih : c.history.Coalesced s x) : (c.push _ h).history.Coalesced s x' := by
  have hallowed := h
  obtain ⟨current, hc, hrun⟩ := hallowed
  obtain ⟨rest, hrest⟩ := List.head?_eq_some_iff.1 hc
  have hopen : c.history.composing = (s, current) :: rest.filterMap Frame.composing? := by
    rw [History.composing, hrest]
    rfl
  -- Only one function runs on a state at a time, so none is under way once this one has ended.
  have hcomposing : ¬ (c.push _ h).history.Composing s := by
    have hnodup := composing_nodup hd
    rw [hopen, List.map_cons, List.nodup_cons] at hnodup
    rw [History.Composing, composing_push, hopen]
    exact hnodup.1
  have hdirty : x.dirty = true := by
    refine ih.dirty.2 (.inl ?_)
    rw [History.Composing, hopen]
    exact List.mem_cons_self
  obtain ⟨u, hfold, hcurrent, -⟩ := ih.folds
  have hcurrent := hcurrent current (hopen ▸ List.mem_cons_self)
  have hbatch : (c.push _ h).history.batch s = c.history.batch s ++ [(write, start)] := if_pos rfl
  have hfold' : (c.push _ h).history.fold s = some v := by
    -- The function has been given what the batch had come to; its answer is where the longer batch
    -- comes to.
    have hlast : History.apply u (write, start) = some v := by
      rw [History.apply, ← hcurrent, hrun]
      rfl
    rw [History.fold, hbatch, List.foldlM_append]
    rw [show (c.push _ h).history.committed s = c.history.committed s from rfl]
    rw [show List.foldlM History.apply _ _ = some u from hfold]
    simp [hlast]
  rw [world_push, Event.world] at hx'
  simp only [Store.get?_modify, if_true, hx, Option.map_some, Option.some.injEq] at hx'
  subst hx'
  refine ⟨ih.value, iff_of_true hdirty (.inr ?_), ih.queued, ⟨v, hfold', fun u hc => ?_, fun _ => ?_⟩, ?_⟩
  · rw [hbatch]
    simp
  · exact absurd (List.mem_map_of_mem hc) hcomposing
  · rw [hbatch]
    simp
  · exact fun hc => absurd hc hcomposing

theorem coalesced {x : Signal} (hd : c.history.Disciplined) (hs : c.history.Made s .state)
    (hx : c.world.signals.get? s = some x) : c.history.Coalesced s x := by
  induction c using Course.induction generalizing x with
  | start => cases hx
  | push c ev hev ih =>
    -- Only a handful of steps are about the state; all others leave it and the writes to it alone.
    by_cases hn : ev.state? = some s
    · have hmade := hs
      have hx' := hx
      rw [world_push] at hx'
      cases ev with
      | signalMade k kind v clones =>
        obtain rfl := Option.some.inj hn
        obtain rfl : kind = .state := made_unique (c := c.push _ hev) ⟨v, clones, List.mem_cons_self⟩ hs
        exact coalesced_made hev hx
      | composing k write first current =>
        obtain rfl := Option.some.inj hn
        simp only [Event.world, World.opened_eq, Store.get?_modify, if_true] at hx'
        obtain ⟨y, hy, -⟩ := Option.map_eq_some_iff.1 hx'
        exact coalesced_composing hev hd.1 hy hx (ih hd.tail hev.1 hy)
      | composed k write start v =>
        obtain rfl := Option.some.inj hn
        simp only [Event.world, Store.get?_modify, if_true] at hx'
        obtain ⟨y, hy, -⟩ := Option.map_eq_some_iff.1 hx'
        obtain ⟨w, clones, hm⟩ := hs
        rcases List.mem_cons.1 hm with hm | hm
        · cases hm
        · exact coalesced_composed hev hd.tail hy hx (ih hd.tail ⟨w, clones, hm⟩ hy)
      | committed k v =>
        obtain rfl := Option.some.inj hn
        simp only [Event.world, World.committing, Store.get?_modify, if_true] at hx'
        obtain ⟨y, hy, rfl⟩ := Option.map_eq_some_iff.1 hx'
        obtain ⟨w, clones, hm⟩ := hs
        rcases List.mem_cons.1 hm with hm | hm
        · cases hm
        · exact coalesced_settled hev hd.tail hev.1 rfl rfl (if_pos rfl) (if_pos rfl).symm rfl rfl
            (ih hd.tail ⟨w, clones, hm⟩ hy)
      | lapsed k | refused k =>
        obtain rfl := Option.some.inj hn
        simp only [Event.world, Store.get?_modify, if_true] at hx'
        obtain ⟨y, hy, rfl⟩ := Option.map_eq_some_iff.1 hx'
        obtain ⟨w, clones, hm⟩ := hs
        rcases List.mem_cons.1 hm with hm | hm
        · cases hm
        · have hold := ih hd.tail ⟨w, clones, hm⟩ hy
          exact coalesced_settled hev hd.tail hev.1 rfl rfl (if_pos rfl) hold.value rfl rfl hold
      | _ => cases hn
    · have hs' := made_of_push hev hn hs
      exact coalesced_other hev hn hs' hx fun y hy => ih hd.tail hs' hy

end Course

end FineGrain
