import FineGrain.Proofs.Course.Batches
/-!
Commits that stand next to each other in the queue. While some of them have been made and others wait,
no deferred effect and no body of a hook runs: only what the commits themselves set off does, which are
render effects and factories, each right after the commit of what it reads.
-/

namespace FineGrain

open Act

namespace Frame

/-- Since the last drain or task was entered, it has been a drain or a commit, and neither deferred
effects nor bodies of hooks run. -/
def Calm (w : World) : List Frame → Prop
  | [] => False
  | .draining _ _ :: _ => True
  | .task t _ :: _ => t.commit?.isSome
  | .effect e _ _ _ _ :: rest => w.timing? e ≠ some .deferred ∧ Calm w rest
  | .hookBody _ _ _ :: _ => False
  | _ :: rest => Calm w rest

variable {w w' : World} {fs : List Frame}

theorem Calm.mono (h : Calm w fs) (ht : ∀ e before depth computation start,
    .effect e before depth computation start ∈ fs →
      w'.timing? e = some .deferred → w.timing? e = some .deferred) : Calm w' fs := by
  induction fs with
  | nil => exact h
  | cons f rest ih =>
    have hrest (h : Calm w rest) : Calm w' rest :=
      ih h fun e b d c s hm => ht e b d c s (List.mem_cons_of_mem _ hm)
    cases f with
    | effect e b d c s => exact ⟨fun hd => h.1 (ht e b d c s List.mem_cons_self hd), hrest h.2⟩
    | draining | task | hookBody => exact h
    | _ => exact hrest h

end Frame

namespace History

/-- How many tasks have been taken from the queue. -/
def taken : History → Nat
  | [] => 0
  | ev :: h => taken h + ev.taken.length

end History

namespace Course

variable {b c d : Course} {ev : Event} {n : Nat} {l : List Nat}

theorem tasks_since (hle : c ≤ b) : ∃ taken added, c.world.tasks ++ added = taken ++ b.world.tasks ∧
    b.history.taken = c.history.taken + taken.length := by
  induction hle using Course.le_induction with
  | start => exact ⟨[], [], by simp⟩
  | push b ev h hle ih =>
    obtain ⟨taken, added, htasks, hcount⟩ := ih
    refine ⟨taken ++ ev.taken, added ++ ev.added b.world, ?_, ?_⟩
    · rw [← List.append_assoc, htasks, List.append_assoc, tasks_step h, List.append_assoc]
    · rw [history_push, History.taken, hcount, List.length_append, Nat.add_assoc]

theorem eq_commits {tasks : List Task} (h : tasks.map Task.commit? = l.map some) :
    tasks = l.map Task.commit := by
  induction tasks generalizing l with
  | nil =>
    obtain rfl : l = [] := List.map_eq_nil_iff.1 h.symm
    rfl
  | cons t rest ih =>
    cases l with
    | nil => cases h
    | cons s l =>
      obtain ⟨ht, hrest⟩ := List.cons.inj h
      cases t with
      | commit s' =>
        cases ht
        rw [ih hrest]
        rfl
      | _ => cases ht

theorem exists_taken {m : Nat} (hle : c ≤ d) (hfirst : c.history.taken ≤ m)
    (hlast : m ≤ d.history.taken) : ∃ b, c ≤ b ∧ b ≤ d ∧ b.history.taken = m := by
  induction hle using Course.le_induction with
  | start => exact ⟨c, le_refl c, le_refl c, Nat.le_antisymm hfirst hlast⟩
  | push d ev h hle ih =>
    rcases Nat.lt_or_ge d.history.taken m with hm | hm
    · have hone : ev.taken.length ≤ 1 := by cases ev <;> simp [Event.taken]
      rw [history_push, History.taken] at hlast
      refine ⟨d.push ev h, hle.trans (le_push h), le_refl _, ?_⟩
      rw [history_push, History.taken]
      omega
    · obtain ⟨b, hb, hbd, htaken⟩ := ih hm
      exact ⟨b, hb, hbd.trans (le_push h), htaken⟩

/-- The states `l` wait for their commits, which stand next to each other behind `n` tasks. -/
def Adjoining (c : Course) (n : Nat) (l : List Nat) : Prop :=
  ∃ before after, c.world.tasks = before ++ (l.map Task.commit ++ after) ∧ before.length = n

theorem opened_push (h : c.history.Allows ev) (hcommit : ∀ t ∈ ev.added c.world, t.commit?.isSome) :
    ∃ l, (c.push ev h).history.opened = c.history.opened ++ l ∧
      ev.added c.world = l.map Task.commit := by
  cases ev with
  | composing s write first current =>
    obtain ⟨-, rfl, -⟩ := id h
    rw [history_push, History.opened]
    cases hd : ((c.history.world.signals.get? s).getD default).dirty with
    | true => exact ⟨[], by simp, if_pos hd⟩
    | false => exact ⟨[s], by simp, if_neg (Bool.eq_false_iff.1 hd)⟩
  | scheduled | jobQueued =>
    refine ⟨[], (List.append_nil _).symm, ?_⟩
    simpa [Event.added, Task.commit?] using hcommit
  | queued | firstRunQueued => simp [Event.added, Task.commit?] at hcommit
  | _ => exact ⟨[], (List.append_nil _).symm, rfl⟩

/-- If nothing but commits is queued from `c` to `d`, and none of them has been taken, then the states
that were first written meanwhile wait for commits that stand next to each other, behind what is left
of the tasks that waited before. -/
theorem adjoining_opened (hle : c ≤ d)
    (hcommits : ∀ b ev (h : b.history.Allows ev), c ≤ b → b.push ev h ≤ d →
      ∀ t ∈ ev.added b.world, t.commit?.isSome)
    (hn : d.history.taken + n = c.history.taken + c.world.tasks.length) :
    ∃ l, d.history.opened = c.history.opened ++ l ∧ d.Adjoining n l := by
  obtain ⟨l, taken, hopened, htasks, hcount⟩ : ∃ l taken, d.history.opened = c.history.opened ++ l ∧
      c.world.tasks ++ l.map Task.commit = taken ++ d.world.tasks ∧
        d.history.taken = c.history.taken + taken.length := by
    clear hn
    induction hle using Course.le_induction with
    | start => exact ⟨[], [], by simp⟩
    | push b ev h hle ih =>
      obtain ⟨l, taken, hopened, htasks, hcount⟩ := ih fun b' ev' h' hb' hle' =>
        hcommits b' ev' h' hb' (hle'.trans (le_push h))
      obtain ⟨more, hmore, hadded⟩ := opened_push h (hcommits b ev h hle (le_refl _))
      refine ⟨l ++ more, taken ++ ev.taken, ?_, ?_, ?_⟩
      · rw [hmore, hopened, List.append_assoc]
      · rw [List.map_append, ← List.append_assoc, htasks, ← hadded, List.append_assoc, tasks_step h,
          List.append_assoc]
      · rw [history_push, History.taken, hcount, List.length_append, Nat.add_assoc]
  refine ⟨l, hopened, c.world.tasks.drop taken.length, [], ?_, ?_⟩
  · have hdrop := congrArg (List.drop taken.length) htasks
    rw [List.drop_append_of_le_length (by omega), List.drop_left] at hdrop
    rw [List.append_nil, hdrop]
  · rw [List.length_drop]
    omega

/-- Of the commits of `l` that stood behind `n` tasks at `c`, some have been taken at `b` and others
wait. -/
def Torn (c b : Course) (n : Nat) (l : List Nat) : Prop :=
  c.history.taken + n < b.history.taken ∧ b.history.taken < c.history.taken + n + l.length

theorem Adjoining.next (h : c.Adjoining n l) (hle : c ≤ b)
    (hfirst : c.history.taken + n ≤ b.history.taken)
    (hlast : b.history.taken < c.history.taken + n + l.length) :
    ∃ s ∈ l, b.world.tasks.head? = some (.commit s) := by
  obtain ⟨before, after, htasks, hlength⟩ := h
  obtain ⟨taken, added, hsince, hcount⟩ := tasks_since hle
  have hat : b.world.tasks.head? = (c.world.tasks ++ added)[taken.length]? := by
    rw [hsince, List.getElem?_append_right (Nat.le_refl _), Nat.sub_self, List.head?_eq_getElem?]
  have hin : taken.length - n < l.length := by omega
  refine ⟨l[taken.length - n], List.getElem_mem hin, ?_⟩
  rw [hat, htasks, List.append_assoc, List.getElem?_append_right (by omega), hlength,
    List.append_assoc, List.getElem?_append_left (by simpa using hin), List.getElem?_map,
    List.getElem?_eq_getElem hin]
  rfl

theorem running_lt {e : NodeId} {before : List Provider} {depth : Nat} {computation : Computation}
    {start : World} (he : .effect e before depth computation start ∈ c.frames) :
    e < c.world.next := by
  induction c using Course.induction with
  | start => cases he
  | push c ev h ih =>
    refine Nat.lt_of_lt_of_le ?_ (next_le h)
    obtain ⟨_, _, rfl⟩ | he | ⟨n, _, ⟨⟩⟩ := (frames_step h).mem he
    · obtain ⟨-, x, hx, -⟩ := h
      exact effect_lt hx
    · exact ih he

theorem timing_push (h : c.history.Allows ev) {e : NodeId} (he : e < c.world.next)
    (ht : (c.push ev h).world.timing? e = some .deferred) : c.world.timing? e = some .deferred := by
  obtain ⟨x, hx, ht⟩ := Option.map_eq_some_iff.1 ht
  obtain ⟨y, hy, hyx⟩ := timing_step h he hx
  exact Option.map_eq_some_iff.2 ⟨y, hy, hyx.trans ht⟩

theorem calm_push (hb : b.Punctual) (h : b.history.Allows ev) (hdue : b.history.Due ev)
    (hcalm : Frame.Calm b.world b.frames) (htaken : ev.taken = []) (hwait : b.world.tasks ≠ []) :
    Frame.Calm (b.push ev h).world (b.push ev h).frames := by
  have hcalm' : Frame.Calm (b.push ev h).world b.frames :=
    hcalm.mono fun e _ _ _ _ he ht => timing_push h (running_lt he) ht
  have hstacked := stacked hb
  have hstep := frames_step h
  generalize hafter : (b.push ev h).frames = after at hstep ⊢
  generalize hbefore : b.frames = before at hstep hcalm hcalm' hstacked
  -- What is on top decides: a drain may go on, a body has a job below it, which is not calm, and a
  -- timed run can only start from a task that is no commit.
  cases hstep with
  | same => exact hcalm'
  | done _ =>
    obtain ⟨⟨n, began, hhead⟩, -⟩ := hstacked
    obtain ⟨rest, rfl⟩ := List.head?_eq_some_iff.1 hhead
    trivial
  | closed hby =>
    rename_i f
    cases f with
    | draining n start =>
      cases hby
      exact absurd h.2 hwait
    | task t start => exact absurd hby id
    | hookBody k providers start => exact absurd hcalm' id
    | effect => exact hcalm'.2
    | _ => exact hcalm'
  | opened hby =>
    rename_i f
    cases f with
    | draining n start => trivial
    | task t start => cases htaken.symm.trans hby
    | hookBody k providers start =>
      obtain ⟨_, _, rfl⟩ := hby
      have hready : b.history.Ready k := by
        cases hdue with
        | ordinary _ hord => cases hord
        | bodyBegun hready => exact hready
      obtain ⟨began, hjob⟩ := head_of_ready hready
      rw [hbefore] at hjob
      obtain ⟨rest, rfl⟩ := List.head?_eq_some_iff.1 hjob
      obtain ⟨⟨flush, hflush⟩, -⟩ := hstacked
      obtain ⟨below, rfl⟩ := List.head?_eq_some_iff.1 hflush
      exact absurd hcalm (by simp [Frame.Calm, Task.commit?])
    | effect e providers depth computation start =>
      obtain ⟨_, _, rfl⟩ := hby
      refine ⟨fun ht => ?_, hcalm'⟩
      have hmay : b.history.MayStart e := by
        cases hdue with
        | ordinary _ hord => exact hord
      obtain ⟨-, x, hx, -⟩ := id h
      obtain ⟨began, hframe⟩ := hmay (timing_push h (effect_lt hx) ht)
      rw [show b.history.frames = before from hbefore] at hframe
      obtain hframe | hframe := hframe <;> obtain ⟨rest, rfl⟩ := List.head?_eq_some_iff.1 hframe <;>
        exact absurd hcalm (by simp [Frame.Calm, Task.commit?])
    | _ => exact hcalm'

theorem Adjoining.calm (h : c.Adjoining n l) (hb : b.Punctual) (hle : c ≤ b) (htorn : c.Torn b n l) :
    Frame.Calm b.world b.frames := by
  induction hle using Course.le_induction with
  | start => exact absurd htorn.1 (by omega)
  | push b ev hev hle ih =>
    obtain ⟨hfirst, hlast⟩ := htorn
    rw [history_push, History.taken] at hfirst hlast
    have hnext (hfirst : c.history.taken + n ≤ b.history.taken) := h.next hle hfirst (by omega)
    -- While the commits are torn apart the next task is one of them, so whatever is taken is a commit.
    match htaken : ev.taken with
    | [] =>
      rw [htaken, List.length_nil] at hfirst hlast
      obtain ⟨s, -, hs⟩ := hnext (by omega)
      refine calm_push hb.1 hev hb.2 (ih hb.1 ⟨by omega, by omega⟩) htaken fun hnil => ?_
      rw [hnil] at hs
      cases hs
    | t :: more =>
      have hone : more = [] := by
        cases ev <;> cases htaken <;> rfl
      subst hone
      rw [htaken, List.length_singleton] at hfirst hlast
      obtain ⟨s, -, hs⟩ := hnext (by omega)
      have ht : b.world.tasks.head? = some t := (next_of_taken hev htaken).1
      obtain rfl : .commit s = t := Option.some.inj (hs.symm.trans ht)
      obtain ⟨start, hframes⟩ : ∃ start, (b.push ev hev).frames = .task (.commit s) start :: b.frames := by
        cases ev with
        | taskBegun t' =>
          obtain rfl : t' = .commit s := List.head_eq_of_cons_eq htaken
          cases hev.2
        | committed | lapsed | refused =>
          cases htaken
          exact ⟨_, rfl⟩
        | _ => cases htaken
      rw [hframes]
      rfl

end Course

/-- At every point of every run of a program: a commit writes its state once and spreads the change
once; and commits that stand next to each other in the queue, as those of first writes do by
`Course.adjoining_opened`, are made one after the other, and while some of them have been made and
others wait no deferred effect and no body of a hook runs. -/
theorem adjoining_commits (n : Nat) (program : List Expr) :
    (∃ d : Course, d.Of (.ofDepth n) program ∧ d.Punctual) ∧
      ∀ d : Course, d.Of (.ofDepth n) program → d.Punctual → ∀ c ≤ d,
        (∀ s v tail m, c.history.Allows (.committed s v) → c.world.tasks = .commit s :: tail →
          c.world.run (do modify fun w => { w with tasks := tail }; commit (.ofDepth m) s) =
            ((Event.committed s v).world c.world).run (do
              notify (.ofDepth m) s
              giveUp [.signal s])) ∧
        ∀ k l, c.Adjoining k l → ∀ b, c ≤ b → b ≤ d →
          (c.history.taken + k ≤ b.history.taken →
            b.history.taken < c.history.taken + k + l.length →
              ∃ s ∈ l, b.world.tasks.head? = some (.commit s)) ∧
          (c.Torn b k l → Frame.Calm b.world b.frames) := by
  refine ⟨Course.exists_punctual n program, fun d _ hd c _ => ⟨fun s v tail m h ht => ?_, ?_⟩⟩
  · exact World.run_committed ht h.2.2 h.2.1
  · exact fun k l hl b hle hbd => ⟨hl.next hle, hl.calm (hd.of_le hbd) hle⟩

/-- Two states are written in turn and committed by a drain: between their commits nothing but the
first one and the drain is under way. -/
theorem adjoining_commits_two :
    let program : List Expr := [
      .create "a" (.state (.value (.integer 1))),
      .create "b" (.state (.value (.integer 2))),
      .on "a" "set" (.set (.value (.integer 10))),
      .on "b" "set" (.set (.value (.integer 20))),
      .drain]
    ∃ d : Course, d.Of (.ofDepth 9) program ∧ d.Punctual ∧ ∃ c b, c ≤ b ∧ b ≤ d ∧
      c.Adjoining 0 [0, 2] ∧ c.Torn b 0 [0, 2] ∧ Frame.Calm b.world b.frames := by
  intro program
  obtain ⟨⟨d, hd, hpunctual⟩, hall⟩ := adjoining_commits 9 program
  obtain ⟨c, hcd, hc⟩ := hd.stages (program.take 4) (List.take_prefix 4 program)
  have hcommits : c.world.tasks.map Task.commit? = [some 0, some 2] := by
    rw [← hc]
    decide +kernel
  have hqueue := Course.eq_commits (l := [0, 2]) hcommits
  have hempty : d.world.tasks.length = 0 := by
    rw [← hd.world]
    decide +kernel
  have hl : c.Adjoining 0 [0, 2] := ⟨[], [], hqueue, rfl⟩
  obtain ⟨taken, added, htasks, hcount⟩ := Course.tasks_since hcd
  have hlength := congrArg List.length htasks
  rw [hqueue, List.length_append, List.length_append, hempty] at hlength
  obtain ⟨b, hcb, hbd, hb⟩ := Course.exists_taken (m := c.history.taken + 1) hcd (Nat.le_succ _)
    (by simp at hlength; omega)
  have htorn : c.Torn b 0 [0, 2] := by
    constructor <;> simp [hb]
  exact ⟨d, hd, hpunctual, c, b, hcb, hbd, hl, htorn, ((hall d hd hpunctual c hcd).2 0 _ hl b hcb hbd).2 htorn⟩

/-- Commits are torn apart for render effects and factories; for deferred effects, when a flush was
queued between the writes; and for bodies of hooks, when a flush of the phases was. -/
theorem commits_torn :
    (Program.run [
      .create "a" (.state (.value (.integer 1))),
      .create "b" (.state (.value (.integer 2))),
      .create "r" (.effect .render
        (.log [.on "a" "get" .get, .value (.string ","), .on "b" "get" .get])),
      .sequence [.on "a" "set" (.set (.value (.integer 10))),
        .on "b" "set" (.set (.value (.integer 20))), .drain]]).map (·.log) =
      [[], [], ["1,2"], ["10,2", "10,20"]] ∧
    (Program.run [
      .create "a" (.state (.value (.integer 1))),
      .create "b" (.state (.value (.integer 2))),
      .create "m" (.memo [.named "a", .named "b"]
        (.log [.on "a" "get" .get, .value (.string ","), .on "b" "get" .get])),
      .sequence [.on "a" "set" (.set (.value (.integer 10))),
        .on "b" "set" (.set (.value (.integer 20))), .drain]]).map (·.log) =
      [[], [], ["1,2"], ["10,2", "10,20"]] ∧
    (Program.run [
      .create "a" (.state (.value (.integer 1))),
      .create "g" (.signal (.value (.integer 0))),
      .create "b" (.state (.value (.integer 2))),
      .create "e" (.effect .deferred (.sequence [.on "g" "get" .get,
        .log [.on "a" "get" .get, .value (.string ","), .on "b" "get" .get]])),
      .drain,
      .sequence [.on "a" "set" (.set (.value (.integer 10))),
        .on "g" "set" (.set (.value (.integer 1))),
        .on "b" "set" (.set (.value (.integer 20))), .drain]]).map (·.log) =
      [[], [], [], [], ["1,2"], ["10,2", "10,20"]] ∧
    (Program.run [
      .create "s" (.state (.value (.integer 1))),
      .create "a" (.state (.value (.integer 1))),
      .create "b" (.state (.value (.integer 1))),
      .create "e" (.effect .deferred (.on "a" "set" (.set (.on "s" "get" .get)))),
      .create "h" (.hook .passive (some [.named "s"])
        (.log [.on "a" "peek" .peek, .value (.string ","), .on "b" "peek" .peek]) none),
      .create "f" (.effect .deferred (.on "b" "set" (.set (.on "s" "get" .get)))),
      .drain,
      .on "s" "set" (.set (.value (.integer 2))),
      .drain]).map (·.log) =
      [[], [], [], [], [], [], ["1,1"], [], ["2,1"]] := by
  decide +kernel

end FineGrain
