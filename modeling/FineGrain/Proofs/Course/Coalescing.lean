import FineGrain.Proofs.Course.Batches
/-!
Coalescing. At every point of a run a state answers its last committed value, its pending value is the
fold of the writes since the last commit, and one commit is queued if there are any.
-/

namespace FineGrain

open Act

def Handle.state? : Handle → Option Nat
  | .state s | .reducer s _ => some s
  | _ => none

namespace Course

variable {c : Course} {s : Nat} {v : Value} {x : Signal}

theorem committed_fold (hd : c.history.Disciplined) (h : c.history.Allows (.committed s v)) :
    c.history.batch s ≠ [] ∧ c.history.fold s = some v := by
  obtain ⟨⟨hnext, n, start, hframe⟩, -, hcache⟩ := h
  have hqueued : s ∈ c.world.commits := by
    obtain ⟨tail, htail⟩ := List.head?_eq_some_iff.1 hnext
    rw [World.commits, show c.world.tasks = _ from htail]
    exact List.mem_cons_self
  obtain ⟨x, hx⟩ : ∃ x, c.world.signals.get? s = some x := by
    cases hs : c.world.signals.get? s with
    | none =>
      rw [show c.history.world.signals.get? s = none from hs] at hcache
      cases hcache
    | some x => exact ⟨x, rfl⟩
  rw [show c.history.world.signals.get? s = some x from hx, Option.getD_some] at hcache
  obtain ⟨u, hu, -, hpending⟩ := (coalesced hd (made_of_queued hqueued) hx).folds
  have hnot : ¬ c.history.Composing s := by
    rw [History.Composing, not_composing hd.undrained hframe]
    exact List.not_mem_nil
  have hpending := hpending hnot
  rw [hcache] at hpending
  split at hpending
  · cases hpending
  · rename_i hbatch
    exact ⟨hbatch, hu.trans hpending.symm⟩

theorem not_lapsed (hd : c.history.Disciplined) (hs : c.history.Made s .state)
    (hx : c.world.signals.get? s = some x) : ¬ c.history.Allows (.lapsed s) := by
  rintro ⟨⟨hnext, n, start, hframe⟩, hcache⟩
  have hold := coalesced hd hs hx
  have hnot : ¬ c.history.Composing s := by
    rw [History.Composing, not_composing hd.undrained hframe]
    exact List.not_mem_nil
  obtain ⟨tail, htail⟩ := List.head?_eq_some_iff.1 hnext
  have hcount := hold.queued
  rw [show c.history.world.commits = s :: tail.filterMap Task.commit? by
    rw [World.commits, show c.history.world.tasks = _ from htail]; rfl, List.count_cons_self] at hcount
  have hdirty : x.dirty = true := by
    cases hd : x.dirty with
    | true => rfl
    | false => simp [hd] at hcount
  have hbatch := (hold.dirty.1 hdirty).resolve_left hnot
  obtain ⟨u, -, -, hpending⟩ := hold.folds
  rw [show c.history.world.signals.get? s = some x from hx, Option.getD_some,
    hpending hnot, if_neg hbatch] at hcache
  cases hcache

theorem run_peek {handle : Handle} {host : Host} {eval : Expr → Act Value} {act : Act Value}
    (hd : c.history.Disciplined) (hs : c.history.Made s .state)
    (hx : c.world.signals.get? s = some x) (hh : handle.state? = some s)
    (hact : operation? host eval handle .peek = some act) :
    c.world.run act = (.ok (c.history.committed s), c.world) := by
  have hread : act = Act.read s := by
    cases handle with
    | state k | reducer k =>
      obtain rfl := Option.some.inj hh
      exact (Option.some.inj hact).symm
    | _ => cases hh
  rw [hread, World.run_read c.world (not_writing hs), hx, Option.getD_some,
    (coalesced hd hs hx).value]

theorem run_get {handle : Handle} {host : Host} {eval : Expr → Act Value} {act : Act Value}
    (hd : c.history.Disciplined) (hs : c.history.Made s .state)
    (hx : c.world.signals.get? s = some x) (hh : handle.state? = some s)
    (hact : operation? host eval handle .get = some act) :
    c.world.run act = (.ok (c.history.committed s), { c.world with graph := c.world.graph.track s }) := by
  have hread : act = (do track s; Act.read s) := by
    cases handle with
    | state k | reducer k =>
      obtain rfl := Option.some.inj hh
      exact (Option.some.inj hact).symm
    | _ => cases hh
  have hallowed : c.history.Allows (.tracked s (c.world.value s)) := rfl
  have htracked : (c.push _ hallowed).history.Made s .state := made_mono (le_push _) hs
  have htrack : c.world.run (track s) = (.ok ⟨⟩, (c.push _ hallowed).world) := rfl
  rw [hread, World.run_bind_ok htrack, World.run_read _ (not_writing htracked)]
  change (Except.ok ((c.world.signals.get? s).getD default).value, _) = _
  rw [hx, Option.getD_some, (coalesced hd hs hx).value]
  rfl

/-- A state goes with the writes made to it, and so do the operations on it.

* `peek`, `get`: reading answers the last committed value
* `pending`, `taken`: the pending value is the fold of the writes since the last commit, and is taken
  out while the next value is worked out
* `current`: the next value is worked out of that fold
* `dirty`, `queued`: there is one commit in the queue exactly if there are writes, or one begins
* `write`: a write is put down in the log
* `commit`, `kept`: a commit writes the fold -/
structure Batched (c : Course) (s : Nat) (x : Signal) : Prop where
  peek : ∀ host eval handle act, handle.state? = some s →
    operation? host eval handle .peek = some act →
      c.world.run act = (.ok (c.history.committed s), c.world)
  get : ∀ host eval handle act, handle.state? = some s →
    operation? host eval handle .get = some act →
      (c.world.run act).1 = .ok (c.history.committed s)
  pending : ¬ c.history.Composing s →
    x.cache = if c.history.batch s = [] then none else c.history.fold s
  taken : c.history.Composing s → x.cache = none
  current : ∀ v, (s, v) ∈ c.history.composing → c.history.fold s = some v
  dirty : x.dirty = true ↔ c.history.Composing s ∨ c.history.batch s ≠ []
  queued : c.world.commits.count s = if x.dirty then 1 else 0
  write : ∀ write : Write, ∃ d : Course,
    .composing s write (!x.dirty) (World.pendingValue x) :: c.history <:+ d.history ∧
      (c.world.run (Act.write s write.next)).2 = d.world ∧
      ((c.world.run (Act.write s write.next)).1 = .ok ⟨⟩ →
        ∃ start v, d.history.head? = some (.composed s write start v))
  commit : ∀ n v tail, c.history.Allows (.committed s v) → c.world.tasks = .commit s :: tail →
    c.history.batch s ≠ [] ∧ c.history.fold s = some v ∧ ∃ d : Course,
      .committed s v :: c.history <:+ d.history ∧
        (c.world.run (do modify fun w => { w with tasks := tail }; commit (.ofDepth n) s)).2 = d.world
  kept : ¬ c.history.Allows (.lapsed s)

theorem batched (hd : c.history.Disciplined) (hs : c.history.Made s .state)
    (hx : c.world.signals.get? s = some x) : c.Batched s x := by
  have hc := coalesced hd hs hx
  obtain ⟨v, hfold, hcurrent, hpending⟩ := hc.folds
  refine ⟨fun _ _ _ _ hh hact => run_peek hd hs hx hh hact, fun _ _ _ _ hh hact => ?_,
    fun hnot => hfold ▸ hpending hnot, hc.taken, fun u hu => hcurrent u hu ▸ hfold, hc.dirty,
    hc.queued, fun write => ?_, fun n v tail h ht => ?_, not_lapsed hd hs hx⟩
  · rw [run_get hd hs hx hh hact]
  · have hcomposing : c.history.Allows (.composing s write (!x.dirty) (World.pendingValue x)) := by
      refine ⟨hs, ?_, ?_⟩ <;>
        rw [show c.history.world.signals.get? s = some x from hx, Option.getD_some]
    have hwrites (v : Value) (d : Course) : d.Runs (write.next v) := by
      cases write with
      | set u => exact .pure _
      | update depth body => exact (lawful_ofDepth depth).call d _ _
      | dispatch depth reduce action => exact (lawful_ofDepth depth).call d _ _
    obtain ⟨d, hle, hw, hend⟩ := (Follows.compose write (fun v d _ => hwrites v d) hcomposing).reached
    have hrun := World.run_write_opened (not_writing hs) write.next
    rw [hx, Option.getD_some] at hrun
    rw [hrun]
    refine ⟨d, hle, ?_, fun hok => (hend ⟨⟩ ?_).2⟩
    · rw [← hw, world_push, Event.world, hx, Option.getD_some]
    · rw [← hok, world_push, Event.world, hx, Option.getD_some]
  · obtain ⟨hbatch, hfold⟩ := committed_fold hd h
    have hspread : (c.push _ h).Runs (do Act.notify (.ofDepth n) s; Act.giveUp [.signal s]) :=
      (Runs.notify (lawful_ofDepth n) s).bind fun _ _ _ _ => .giveUpSignal s
    obtain ⟨d, hle, hw, -⟩ := hspread.reached
    refine ⟨hbatch, hfold, d, hle, ?_⟩
    rw [World.run_committed ht h.2.2 h.2.1]
    exact hw

end Course

/-- At every point of every run of a program in which nothing interferes with a write that is being
worked out, the states go with the writes made to them, and the commits follow the first writes. -/
theorem coalesced_writes (n : Nat) (program : List Expr) :
    (∃ d : Course, d.Of (.ofDepth n) program) ∧
      ∀ d : Course, d.Of (.ofDepth n) program → ∀ c ≤ d, c.history.Disciplined →
        c.history.opened = c.history.settled ++ c.world.commits ∧
        ∀ s x, c.history.Made s .state → c.world.signals.get? s = some x → c.Batched s x := by
  refine ⟨Course.exists_of n program, fun d _ c _ hd => ⟨Course.opened_eq c, fun s x hs hx => ?_⟩⟩
  exact Course.batched hd hs hx

/-- While an updater is evaluated, the value that was written before it is not pending, though the
state waits for a commit. -/
theorem pending_taken_out :
    (Program.run [
      .create "s" (.state (.value (.integer 1))),
      .on "s" "set" (.set (.value (.integer 5))),
      .log [.on "s" "pending" .pending],
      .on "s" "update" (.update (.sequence [.log [.on "s" "pending" .pending, .pendingTasks],
        .value (.integer 7)]))]).map (·.log) = [[], [], ["5"], ["null1"]] := by
  decide +kernel

/-- A world with one state: its signal, the commits that wait, and how often the name is held. -/
def oneState (x : Signal) (tasks : List Task) (clones : Nat) : World :=
  { World.empty with
    tasks, next := 2, signals := ⟨[(0, x)]⟩, handles := ⟨[(1, ⟨.state 0, clones⟩)]⟩, names := [("s", 1)] }

theorem oneState_aside (x : Signal) (tasks : List Task) (m n : Nat) :
    (oneState x tasks m).Aside (oneState x tasks n) :=
  @World.Aside.putHandle (oneState x tasks m) 1 ⟨.state 0, m⟩ ⟨.state 0, n⟩ rfl rfl

/-- A state that is set and then updated waits for one commit, of what both writes have made. -/
theorem coalesced_writes_set :
    let program : List Expr := [
      .create "s" (.state (.value (.integer 1))),
      .on "s" "set" (.set (.value (.integer 5))),
      .on "s" "update" (.update (.arithmetic .add (.argument 0) (.value (.integer 1))))]
    ∃ d : Course, d.Of (.ofDepth 3) program ∧ d.history.Disciplined ∧ d.world.commits = [0] ∧
      d.history.committed 0 = .integer 1 ∧ (d.history.batch 0).length = 2 ∧
      ∃ x, d.world.signals.get? 0 = some x ∧ x.cache = some (.integer 6) ∧ d.Batched 0 x := by
  intro program
  let host : Host := .ofDepth 3
  let set : Write := .set (.integer 5)
  let update : Write := .update 2 (.arithmetic .add (.argument 0) (.value (.integer 1)))
  -- Only the signal, the queue and the clones change after the creation.
  let w₁ := oneState ⟨.integer 1, 2, 0, false, false, none⟩ []
  let w₂ := oneState ⟨.integer 1, 3, 0, false, true, some (.integer 5)⟩ [.commit 0]
  let w₃ := oneState ⟨.integer 1, 3, 0, false, true, some (.integer 6)⟩ [.commit 0]
  let c₁ := Course.start.push (.aside World.empty) (World.Aside.refl _)
  let c₂ := c₁.push (.signalMade 0 .state (.integer 1) 2) rfl
  have hs₂ : c₂.history.Made 0 .state := ⟨_, _, List.mem_cons_self⟩
  let c₃ := c₂.push (.bound 1 "s" (.state 0)) ⟨rfl, hs₂⟩
  let c₄ := c₃.push (.aside (w₁ 1)) (World.Aside.refl _)
  let c₅ := c₄.push (.aside (w₁ 2)) (oneState_aside _ _ 1 2)
  have hs₅ : c₅.history.Made 0 .state := Course.made_mono (c := c₂) ⟨[_, _, _], rfl⟩ hs₂
  let c₆ := c₅.push (.composing 0 set true (.integer 1)) ⟨hs₅, rfl, rfl⟩
  let c₇ := c₆.push (.composed 0 set c₆.world (.integer 5)) ⟨.integer 1, rfl, rfl⟩
  let c₈ := c₇.push (.aside (w₂ 1)) (oneState_aside _ _ 2 1)
  let c₉ := c₈.push (.aside (w₂ 1)) (World.Aside.refl _)
  let c₁₀ := c₉.push (.aside (w₂ 2)) (oneState_aside _ _ 1 2)
  have hs₁₀ : c₁₀.history.Made 0 .state := Course.made_mono (c := c₅) ⟨[_, _, _, _, _], rfl⟩ hs₅
  let c₁₁ := c₁₀.push (.composing 0 update false (.integer 5)) ⟨hs₁₀, rfl, rfl⟩
  let c₁₂ := c₁₁.push (.composed 0 update c₁₁.world (.integer 6)) ⟨.integer 5, rfl, rfl⟩
  let d := c₁₂.push (.aside (w₃ 1)) (oneState_aside _ _ 2 1)
  have hof : d.Of (.ofDepth 3) program := by
    have hone : (World.empty.run (Program.perform host (program.take 1))).2 = w₁ 1 := rfl
    have htwo : (World.empty.run (Program.perform host (program.take 2))).2 = w₂ 1 := rfl
    have hthree : (World.empty.run (Program.perform host program)).2 = w₃ 1 := rfl
    refine ⟨hthree, fun first hfirst => ?_⟩
    obtain ⟨n, hn, rfl⟩ : ∃ n ≤ 3, first = program.take n :=
      ⟨first.length, hfirst.length_le, List.prefix_iff_eq_take.1 hfirst⟩
    match n with
    | 0 => exact ⟨.start, List.nil_suffix, rfl⟩
    | 1 => exact ⟨c₄, ⟨[_, _, _, _, _, _, _, _, _], rfl⟩, hone⟩
    | 2 => exact ⟨c₈, ⟨[_, _, _, _, _], rfl⟩, htwo⟩
    | 3 => exact ⟨d, le_refl d, hthree⟩
  have hdisciplined : d.history.Disciplined := ⟨List.not_mem_nil, List.not_mem_nil, trivial⟩
  obtain ⟨-, hall⟩ := coalesced_writes 3 program
  obtain ⟨-, hstates⟩ := hall d hof d (le_refl d) hdisciplined
  have hs : d.history.Made 0 .state := Course.made_mono (c := c₁₀) ⟨[_, _, _], rfl⟩ hs₁₀
  have hbatched := hstates 0 _ hs rfl
  exact ⟨d, hof, hdisciplined, rfl, rfl, rfl, _, rfl, hbatched.pending List.not_mem_nil, hbatched⟩

end FineGrain
