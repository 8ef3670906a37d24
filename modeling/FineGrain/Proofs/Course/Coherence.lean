import FineGrain.Proofs.Course.Programs
import FineGrain.Proofs.Program.Value
import Mathlib.Data.List.Nodup
/-!
What memos hold. The factory of a memo runs once in its creation, and the value that this run has
returned ends the creation. From then on the memo holds what the run of its factory that ended last has
returned; no two runs of one factory overlap.
-/

namespace FineGrain

open Act

namespace Event

def runsFactory (m : Nat) : Event → Bool
  | computing k | recomputing k => m == k
  | _ => false

/-- What a run of the factory of a memo returns where it ends. -/
def returned? (m : Nat) : Event → Option Cached
  | computed k v | recomputed k v => if m = k then some v else none
  | _ => none

theorem eq_of_returned {ev : Event} {m : Nat} {v : Cached} (h : ev.returned? m = some v) :
    ev = .computed m v ∨ ev = .recomputed m v := by
  cases ev with
  | computed k u =>
    obtain ⟨rfl, ⟨⟩⟩ := Option.ite_none_right_eq_some.1 h
    exact .inl rfl
  | recomputed k u =>
    obtain ⟨rfl, ⟨⟩⟩ := Option.ite_none_right_eq_some.1 h
    exact .inr rfl
  | _ => cases h

end Event

namespace History

/-- How many runs of the factory of a memo have begun. -/
def factoryRuns (h : History) (m : Nat) : Nat := h.countP (Event.runsFactory m)

/-- What the run of the factory of a memo that ended last has returned. -/
def lastReturned? (h : History) (m : Nat) : Option Cached := h.findSome? (Event.returned? m)

theorem factoryRuns_cons (h : History) (m : Nat) (ev : Event) :
    factoryRuns (ev :: h) m = h.factoryRuns m + (if ev.runsFactory m then 1 else 0) := List.countP_cons

theorem lastReturned?_cons (h : History) (m : Nat) (ev : Event) :
    lastReturned? (ev :: h) m = (ev.returned? m).or (h.lastReturned? m) := by
  rw [lastReturned?, List.findSome?_cons]
  cases ev.returned? m <;> rfl

end History

namespace Frame

variable {m : Nat} {fs : List Frame}

/-- A run of the factory of a memo is under way. -/
def isFactory (m : Nat) : Frame → Bool
  | .factory k _ => m == k
  | _ => false

theorem Seated.mem (h : Seated fs) {produced : World} (hm : .factory m produced ∈ fs) :
    ∃ e before depth start, .effect e before depth (.memo m) start ∈ fs := by
  induction fs with
  | nil => cases hm
  | cons f rest ih =>
    rcases List.mem_cons.1 hm with rfl | hm
    · obtain ⟨e, before, depth, start, hhead⟩ := h.1
      exact ⟨e, before, depth, start, List.mem_cons_of_mem _ (List.mem_of_head? hhead)⟩
    · obtain ⟨e, before, depth, start, hmem⟩ := ih h.tail hm
      exact ⟨e, before, depth, start, List.mem_cons_of_mem _ hmem⟩

theorem Seated.count_le {e : NodeId} (h : Seated fs)
    (heffects : ∀ k before depth start, .effect k before depth (.memo m) start ∈ fs → k = e) :
    fs.countP (isFactory m) ≤ (effects fs).count e ∧
      fs.tail.countP (isFactory m) ≤ (effects fs.tail).count e := by
  induction fs with
  | nil => exact ⟨Nat.le_refl _, Nat.le_refl _⟩
  | cons f rest ih =>
    obtain ⟨hrest, hbelow⟩ := ih h.tail fun k _ _ _ hk => heffects k _ _ _ (List.mem_cons_of_mem _ hk)
    refine ⟨?_, hrest⟩
    cases f with
    | factory k produced =>
      by_cases hk : m = k
      · subst hk
        -- A factory sits directly on the run of its effect, so counting it counts that run as well.
        obtain ⟨⟨e', before, depth, start, hhead⟩, -⟩ := h
        obtain ⟨below, rfl⟩ := List.head?_eq_some_iff.1 hhead
        obtain rfl := heffects e' _ _ _ (List.mem_cons_of_mem _ List.mem_cons_self)
        have hone : (.factory m produced :: .effect e' before depth (.memo m) start :: below).countP
            (isFactory m) = below.countP (isFactory m) + 1 := by simp [isFactory]
        have htwo : (effects (.factory m produced :: .effect e' before depth (.memo m) start ::
            below)).count e' = (effects below).count e' + 1 := List.count_cons_self
        rw [hone, htwo]
        exact Nat.succ_le_succ hbelow
      · rw [List.countP_cons_of_neg (by simp [isFactory, hk])]
        exact hrest
    | effect k =>
      refine Nat.le_trans hrest ?_
      exact (List.sublist_cons_self k (effects rest)).count_le e
    | _ => exact hrest

end Frame

namespace Course

variable {c d : Course} {ev : Event} {m : Nat} {v : Cached}

theorem exists_started (hev : c.history.Allows ev) (hc : (c.push ev hev).Faithful)
    (h : ev.runsFactory m = true) : ∃ (b : Course) (e : NodeId) (depth : Nat)
      (providers before : List Provider) (hstarted : b.history.Allows (.started e depth providers before))
      (x : Effect), c = b.push _ hstarted ∧ b.world.effects.get? e = some x ∧ x.computation = .memo m := by
  cases ev with
  | computing k =>
    obtain rfl : m = k := beq_iff_eq.1 h
    obtain ⟨e, depth, providers, before, x, rest, hhistory, hx, hcomputation⟩ := hc.2
    obtain ⟨b, hstarted, rfl⟩ := exists_push hhistory
    obtain rfl := (List.cons.inj hhistory).2
    exact ⟨b, e, depth, providers, before, hstarted, x, rfl, hx, hcomputation⟩
  | recomputing k => exact absurd hev (not_recomputing hc.1 hc.2)
  | _ => cases h

theorem made_of_runs (hc : c.Faithful) (h : c.history.factoryRuns m ≠ 0) : c.history.MemoMade m := by
  induction c using Course.induction with
  | start => exact absurd rfl h
  | push c ev hev ih =>
    rw [history_push, History.factoryRuns_cons] at h
    refine memoMade_mono (le_push hev) ?_
    by_cases hbegins : ev.runsFactory m = true
    · obtain ⟨b, e, depth, providers, before, hstarted, x, rfl, hx, hcomputation⟩ :=
        exists_started hev hc hbegins
      exact memoMade_mono (le_push hstarted) (memo_of_effect hx hcomputation).2
    · exact ih hc.1 (by simpa [hbegins] using h)

theorem factoryRuns_next (hc : c.Faithful) : c.history.factoryRuns c.world.next = 0 := by
  refine Decidable.byContradiction fun hruns => ?_
  have := memoMade_lt (made_of_runs hc hruns)
  omega

theorem began_of_frame {start : World} (h : .factory m start ∈ c.frames) :
    c.history.factoryRuns m ≠ 0 := by
  induction c using Course.induction with
  | start => cases h
  | push c ev hev ih =>
    rw [history_push, History.factoryRuns_cons]
    obtain hby | hold | ⟨n, _, ⟨⟩⟩ := (frames_step hev).mem h
    · obtain rfl | rfl := hby <;> simp [Event.runsFactory]
    · have := ih hold
      omega

theorem began_of_returned (h : c.history.lastReturned? m = some v) : c.history.factoryRuns m ≠ 0 := by
  induction c using Course.induction with
  | start => cases h
  | push c ev hev ih =>
    rw [history_push, History.lastReturned?_cons] at h
    have hbegan : c.history.factoryRuns m ≠ 0 := by
      cases hreturned : ev.returned? m with
      | none =>
        rw [hreturned] at h
        exact ih h
      | some u =>
        obtain ⟨start, hhead, -⟩ : ∃ start, c.history.frames.head? = some (.factory m start) ∧
            c.history.Completes start
              (produce · ((start.memos.get? m).getD default).factory) u := by
          obtain rfl | rfl := Event.eq_of_returned hreturned
          · exact hev.1
          · exact hev
        exact began_of_frame (List.mem_of_head? hhead)
    rw [history_push, History.factoryRuns_cons]
    omega

theorem never_recomputing (hc : c.Faithful) : .recomputing m ∉ c.history := by
  induction c using Course.induction with
  | start => exact nofun
  | push c ev hev ih =>
    intro h
    rcases List.mem_cons.1 h with rfl | h
    · exact not_recomputing hc.1 hc.2 hev
    · exact ih hc.1 h

theorem factoryRuns_le_one (hc : c.Faithful) (h : ¬ c.history.Born m) : c.history.factoryRuns m ≤ 1 := by
  induction c using Course.induction with
  | start => exact Nat.zero_le 1
  | push c ev hev ih =>
    have hunborn : ¬ c.history.Born m := fun hborn => h (born_mono (le_push hev) hborn)
    rw [history_push, History.factoryRuns_cons]
    by_cases hbegins : ev.runsFactory m = true
    · obtain ⟨b, e, depth, providers, before, hstarted, x, rfl, hx, hcomputation⟩ :=
        exists_started hev hc hbegins
      obtain hborn | ⟨factory, ds, hhead⟩ := hc.1.2 x m hx hcomputation
      · exact absurd (born_mono (le_push hstarted) hborn) hunborn
      -- The effect starts directly behind the making of the memo, which no factory can run before.
      obtain ⟨g, hg⟩ := List.head?_eq_some_iff.1 hhead
      obtain ⟨a, hmade, rfl⟩ := exists_push hg
      have hm : m = a.world.next := hmade
      have hnone : a.history.factoryRuns m = 0 := hm ▸ factoryRuns_next hc.1.1.1
      rw [if_pos hbegins]
      simp [History.factoryRuns_cons, hnone, Event.runsFactory]
    · simpa [hbegins] using ih hc.1 hunborn

theorem cache_eq (hc : c.Faithful) {x : Memo} (hx : c.world.memos.get? m = some x) :
    x.cache = c.history.lastReturned? m := by
  induction c using Course.induction generalizing x with
  | start => cases hx
  | push c ev hev ih =>
    rw [history_push, History.lastReturned?_cons]
    obtain ⟨ds, rfl, hnone, -⟩ | ⟨y, hy, -, -, hcache, -⟩ := memo_step hev hx
    · obtain rfl : m = c.world.next := hev
      rw [hnone]
      cases hreturned : c.history.lastReturned? c.world.next with
      | none => rfl
      | some v => exact absurd (factoryRuns_next hc.1) (began_of_returned hreturned)
    · have ih := ih hc.1 hy
      rw [hcache]
      cases ev with
      | computed k v =>
        by_cases hk : m = k
        · simp [Event.cached, Event.returned?, hk]
        · simpa [Event.cached, Event.returned?, hk] using ih
      | recomputed k v =>
        -- A run for want of a first value does not end, for it never begins.
        exact absurd hc.2 (tended hc.1).not_recomputed
      | memoBound k v =>
        by_cases hk : m = k
        · subst hk
          have hv := (tried_of_bound hc.1 hc.2).2
          rw [hy] at hv
          simp only [Event.cached, Event.returned?, if_true, Option.none_or]
          rw [← ih]
          exact hv.symm
        · simpa [Event.cached, Event.returned?, hk] using ih
      | _ => exact ih

theorem returned_of_tried (hc : c.Faithful) (h : c.history.Tried m) :
    ¬ c.history.Born m ∧ c.history.factoryRuns m = 1 ∧
      ∃ v, c.history.lastReturned? m = some v ∧ (c.world.memos.get? m).bind (·.cache) = some v := by
  obtain ⟨e, before, depth, start, x, rest, hhistory, -⟩ := id h
  obtain ⟨b, hfinished, rfl⟩ := exists_push hhistory
  obtain ⟨-, -, hunborn, v, hv⟩ := (tended hc.1).tried hfinished h
  have hunborn : ¬ (b.push _ hfinished).history.Born m := fun hborn =>
    hunborn ((born_cons.1 hborn).resolve_left nofun)
  obtain ⟨y, hy, hcache⟩ := Option.bind_eq_some_iff.1 hv
  have hlast : (b.push _ hfinished).history.lastReturned? m = some v := by
    rw [← cache_eq hc (show (b.push _ hfinished).world.memos.get? m = some y from hy)]
    exact hcache
  have hle := factoryRuns_le_one hc hunborn
  have hpos := began_of_returned hlast
  exact ⟨hunborn, by omega, v, hlast, hv⟩

theorem returned_of_born (hc : c.Faithful) (h : c.history.Born m) :
    ∃ v, c.history.lastReturned? m = some v := by
  induction c using Course.induction with
  | start =>
    obtain ⟨v, h⟩ := h
    cases h
  | push c ev hev ih =>
    rw [history_push, History.lastReturned?_cons]
    cases ev.returned? m with
    | some v => exact ⟨v, rfl⟩
    | none =>
      obtain hbinds | hborn := born_cons.1 h
      · cases ev with
        | memoBound k v =>
          obtain rfl : m = k := beq_iff_eq.1 hbinds
          have htried := (tried_of_bound hc.1 hc.2).1
          obtain ⟨-, -, v, hlast, -⟩ := returned_of_tried hc.1 htried
          exact ⟨v, hlast⟩
        | _ => cases hbinds
      · exact ih hc.1 hborn

theorem made_with {x : Memo} (hx : c.world.memos.get? m = some x) :
    ∃ ds, .memoMade m x.factory ds ∈ c.history := by
  induction c using Course.induction generalizing x with
  | start => cases hx
  | push c ev hev ih =>
    obtain ⟨ds, rfl, -⟩ | ⟨y, hy, hfactory, -⟩ := memo_step hev hx
    · exact ⟨ds, List.mem_cons_self⟩
    · obtain ⟨ds, hmade⟩ := ih hy
      exact ⟨ds, hfactory ▸ List.mem_cons_of_mem _ hmade⟩

/-- A memo holds one thing at a time, and its factory has one run at a time.

* `fallback`: its factory has never run for want of a first value
* `creation`: until it is bound its factory has run once at most
* `tried`: where the run of its effect that belongs to its creation has ended, its factory has run once;
  what is left of the creation keeps the value that this run has returned, and runs nothing
* `once`: it is bound once, to the value that the only run of its factory until then has returned
* `factory`: its factory is the one that it was made with
* `returned`: what a run of its factory returns is what the factory evaluates to in that run
* `cached`: from the end of its creation on some run has returned a value, and it holds the value that the
  run that ended last has returned
* `alone`: no two runs of its factory are under way
* `triggered`: while its factory runs, a run of its effect that something sets off does nothing -/
structure Coherent (c : Course) (m : Nat) : Prop where
  fallback : .recomputing m ∉ c.history
  creation : ¬ c.history.Born m → c.history.factoryRuns m ≤ 1
  tried : c.history.Tried m → c.history.factoryRuns m = 1 ∧ ∃ v, c.history.lastReturned? m = some v ∧
    ∀ host, c.world.run (bindMemo host m) = (.ok ⟨⟩, (Event.memoBound m v).world c.world)
  once : ∀ (b : Course) v h, b.push (.memoBound m v) h ≤ c →
    ¬ b.history.Born m ∧ b.history.factoryRuns m = 1 ∧ b.history.lastReturned? m = some v
  factory : ∀ x, c.world.memos.get? m = some x → ∃ ds, .memoMade m x.factory ds ∈ c.history
  returned : ∀ (b : Course) v h, b.push (.computed m v) h ≤ c → b.history.Answers m v
  cached : c.history.Born m → ∃ v, c.history.lastReturned? m = some v ∧
    ∀ x, c.world.memos.get? m = some x → x.cache = some v
  alone : c.frames.countP (Frame.isFactory m) ≤ 1
  triggered : ∀ start, .factory m start ∈ c.frames → ∀ host e x, c.world.effects.get? e = some x →
    x.computation = .memo m → c.world.run (runEffect host e) = (.ok ⟨⟩, c.world)

theorem coherent (hc : c.Faithful) (m : Nat) : c.Coherent m where
  fallback := never_recomputing hc
  creation h := factoryRuns_le_one hc h
  tried h := by
    obtain ⟨-, hone, v, hlast, hv⟩ := returned_of_tried hc h
    exact ⟨hone, v, hlast, fun host => World.run_bindMemo hv⟩
  once b v hev hle := by
    have hb : (b.push _ hev).Faithful := hc.of_le hle
    obtain ⟨htried, hv⟩ := tried_of_bound hb.1 hb.2
    obtain ⟨hunborn, hone, u, hlast, hu⟩ := returned_of_tried hb.1 htried
    obtain rfl := Option.some.inj (hu.symm.trans hv)
    exact ⟨hunborn, hone, hlast⟩
  factory x hx := made_with hx
  returned b v hev hle := (hc.of_le hle).2
  cached h := by
    obtain ⟨v, hv⟩ := returned_of_born hc h
    exact ⟨v, hv, fun x hx => (cache_eq hc hx).trans hv⟩
  alone := by
    have heffects := (tended hc).runs
    have hcount := ((tended hc).seated.count_le fun e before depth start he =>
      (heffects e before depth m start he).1).1
    exact Nat.le_trans hcount (List.nodup_iff_count_le_one.1 (effects_under_way c).1 (m + 1))
  triggered start h host e x hx hcomputation := by
    obtain ⟨e', before, depth, start, hframe⟩ := (tended hc).seated.mem h
    obtain ⟨rfl, -⟩ := (tended hc).runs _ _ _ _ _ hframe
    obtain ⟨rfl, -⟩ := memo_of_effect hx hcomputation
    have hrunning := (((effects_under_way c).2 _ _ _ _ _ hframe).2 x hx).1
    simp [runEffect, World.run_bind, hx, hrunning]

end Course

/-- At every point of every run of a program every memo is coherent. -/
theorem memos_coherent (n : Nat) (program : List Expr) :
    (∃ d : Course, d.Of (.ofDepth n) program ∧ d.Punctual ∧ d.Faithful) ∧
      ∀ d : Course, d.Of (.ofDepth n) program → d.Faithful → ∀ c ≤ d, ∀ m, c.Coherent m :=
  ⟨Course.exists_faithful n program, fun _ _ hd _ hle m => Course.coherent (hd.of_le hle) m⟩

/-- A factory reads a signal, makes another memo and writes the signal that it has read: the write sets its
effect off again, which does nothing, and the memo holds what the factory returns. -/
theorem memos_coherent_writing :
    let program : List Expr := [
      .create "a" (.signal (.value (.integer 1))),
      .create "m" (.memo [] (.sequence [
        .create "inner" (.memo [] (.arithmetic .mul (.on "a" "peek" .peek) (.value (.integer 2)))),
        .on "a" "set" (.set (.arithmetic .add (.on "a" "get" .get) (.value (.integer 1)))),
        .on "inner" "get" .get])),
      .on "a" "set" (.set (.value (.integer 10)))]
    ∃ d : Course, d.Of (.ofDepth 12) program ∧ d.Punctual ∧ d.Faithful ∧
      d.history.lastReturned? 2 = some (.value (.integer 20)) ∧ ∀ c ≤ d, ∀ m, c.Coherent m := by
  intro program
  obtain ⟨⟨d, hd, hpunctual, hfaithful⟩, hall⟩ := memos_coherent 12 program
  have hvalue : ((d.world.memos.get? 2).bind (·.cache)).bind (fun held => match held with
      | .value v => some v
      | .function _ => none) = some (.integer 20) := by
    rw [← hd.world]
    decide +kernel
  obtain ⟨held, hheld, hvalue⟩ := Option.bind_eq_some_iff.1 hvalue
  obtain ⟨x, hx, hcache⟩ := Option.bind_eq_some_iff.1 hheld
  refine ⟨d, hd, hpunctual, hfaithful, ?_, hall d hd hfaithful⟩
  rw [← Course.cache_eq hfaithful hx, hcache]
  cases held with
  | value v => rw [Option.some.inj hvalue]
  | function body => cases hvalue

end FineGrain
