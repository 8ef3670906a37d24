import FineGrain.Proofs.Course.UnderWay
/-!
Where the steps of memos stand in a course. The effect of a memo starts directly behind the making of the
memo, and not again before the memo is bound; each run starts with a run of the factory, which ends with
what the factory answers; and a memo goes away only after it was bound.
-/

namespace FineGrain

open Act

namespace History

def MemoMade (h : History) (m : Nat) : Prop := ∃ factory ds, .memoMade m factory ds ∈ h

/-- The creation of a memo is over. -/
def Born (h : History) (m : Nat) : Prop := ∃ v, .memoBound m v ∈ h

/-- The factory of a memo, which an effect runs, has come to an answer. -/
def Answers (h : History) (m : Nat) (v : Cached) : Prop :=
  ∃ (produced : World) (e : NodeId) (before : List Provider) (depth : Nat) (start : World)
      (rest : List Frame) (x : Memo),
    h.frames = .factory m produced :: .effect e before depth (.memo m) start :: rest ∧
    start.memos.get? m = some x ∧
    start.run (produce (.ofDepth depth) x.factory) = (.ok v, h.world)

/-- The run of an effect that a memo was made with has just ended. -/
def Tried (h : History) (m : Nat) : Prop :=
  ∃ (e : NodeId) (before : List Provider) (depth : Nat) (start : World) (x : Memo) (rest : History),
    h = .finished e before :: rest ∧
    rest.frames.head? = some (.effect e before depth (.memo m) start) ∧
    start.memos.get? m = some x ∧ x.bound = false

/-- A step of a memo stands in its place. -/
def Placed (h : History) : Event → Prop
  | .started e _ _ _ => ∀ x m, h.world.effects.get? e = some x → x.computation = .memo m →
      h.Born m ∨ ∃ factory ds, h.head? = some (.memoMade m factory ds)
  | .computing m => ∃ e depth providers before x, ∃ rest : History,
      h = .started e depth providers before :: rest ∧
      rest.world.effects.get? e = some x ∧ x.computation = .memo m
  | .computed m v => h.Answers m v
  | .recomputing m => ∃ observers, ∃ rest : History, h = .hidden observers :: rest ∧ rest.Tried m
  | .recomputed m _ => ∃ start observers rest,
      h.frames = .factory m start :: .untracked observers :: rest
  | .memoBound m v => (h.Tried m ∧ (h.world.memos.get? m).bind (·.cache) = some v) ∨
      ∃ observers rest, h = .shown observers :: .recomputed m v :: rest
  | .memoGone m => h.Born m
  | _ => True

/-- The steps of memos stand in their places. -/
def Faithful : History → Prop
  | [] => True
  | ev :: h => Faithful h ∧ Placed h ev

end History

namespace Event

/-- What a memo holds after a step. -/
def cached (m : Nat) (held : Option Cached) : Event → Option Cached
  | computed k v | memoBound k v => if m = k then some v else held
  | _ => held

/-- A step ends the creation of a memo. -/
def binds (m : Nat) : Event → Bool
  | memoBound k _ => m == k
  | _ => false

end Event

namespace Frame

variable {fs : List Frame}

def effect? : Frame → Option NodeId
  | .effect e _ _ _ _ => some e
  | _ => none

/-- The effects of which runs are under way. -/
def effects (fs : List Frame) : List NodeId := fs.filterMap effect?

theorem effects_count (fs : List Frame) : effects (count fs) = effects fs := by
  unfold count
  split <;> rfl

theorem mem_effects {e : NodeId} {before : List Provider} {depth : Nat} {computation : Computation}
    {start : World} (h : .effect e before depth computation start ∈ fs) : e ∈ effects fs :=
  List.mem_filterMap.2 ⟨_, h, rfl⟩

theorem Step.effects {ev : Event} {before after : List Frame} (h : Step ev before after)
    (hstarted : ∀ e depth providers saved, ev ≠ .started e depth providers saved) :
    (effects after).Sublist (effects before) ∧ ∀ e saved depth computation start,
      .effect e saved depth computation start ∈ after →
        .effect e saved depth computation start ∈ before := by
  cases h with
  | same => exact ⟨.refl _, fun _ _ _ _ _ h => h⟩
  | closed _ => exact ⟨(List.sublist_cons_self _ _).filterMap _, fun _ _ _ _ _ => List.mem_cons_of_mem _⟩
  | done _ =>
    refine ⟨?_, fun _ _ _ _ _ h => ?_⟩
    · rw [effects_count]
      exact .refl _
    · rcases mem_of_mem_count h with h | ⟨n, _, ⟨⟩⟩
      exact List.mem_cons_of_mem _ h
  | @opened f fs hby =>
    cases f with
    | effect e saved depth computation start =>
      obtain ⟨depth, providers, rfl⟩ := hby
      exact absurd rfl (hstarted e depth providers saved)
    | _ =>
      exact ⟨.refl _, fun _ _ _ _ _ hmem => (List.mem_cons.1 hmem).resolve_left nofun⟩

/-- A run of a factory is the beginning of a run of the effect. -/
def Seated : List Frame → Prop
  | [] => True
  | .factory m _ :: rest =>
      (∃ e before depth start, rest.head? = some (.effect e before depth (.memo m) start)) ∧ Seated rest
  | _ :: rest => Seated rest

theorem Seated.tail {f : Frame} (h : Seated (f :: fs)) : Seated fs := by
  cases f <;> first | exact h | exact h.2

theorem seated_count (h : Seated fs) : Seated (count fs) := by
  unfold count
  split <;> exact h

theorem Seated.step {ev : Event} {before after : List Frame} (hstep : Step ev before after)
    (h : Seated before) (hopen : ∀ m, ev = .computing m ∨ ev = .recomputing m →
      ∃ e saved depth start, before.head? = some (.effect e saved depth (.memo m) start)) :
    Seated after := by
  cases hstep with
  | same => exact h
  | closed _ => exact h.tail
  | done _ => exact seated_count h.tail
  | @opened f fs hby =>
    cases f with
    | factory m _ => exact ⟨hopen m hby, h⟩
    | _ => exact h

end Frame

namespace World

variable {w w' : World} {m : Nat}

theorem cached_of_compute {host : Host} {x : Memo} (hx : w.memos.get? m = some x)
    (h : w.run (compute host (.memo m)) = (.ok ⟨⟩, w')) :
    ∃ v, ∀ y, w'.memos.get? m = some y → y.cache = some v := by
  have hcompute : w.run (compute host (.memo m)) =
      w.run (produce host x.factory >>= storeComputed m) := by
    rw [compute, run_bind_ok w.run_get, hx]
  rw [hcompute, run_bind] at h
  rcases hproduce : w.run (produce host x.factory) with ⟨_ | v, u⟩
  · rw [hproduce] at h
    cases h
  · rw [hproduce] at h
    refine ⟨v, fun y hy => ?_⟩
    dsimp only at h
    rw [storeComputed, run_bind_ok u.run_get] at h
    cases hu : u.memos.get? m with
    | none =>
      rw [hu] at h
      cases h
      cases hu.symm.trans hy
    | some z =>
      rw [hu] at h
      dsimp only at h
      split at h
      · cases h
      · cases h
        simp only [Store.get?_modify, hu, if_true, Option.map_some, Option.some.injEq] at hy
        rw [← hy]

end World

namespace Course

variable {c d : Course} {ev : Event} {e m : Nat} {v : Cached}

/-- The steps of memos stand in their places. -/
def Faithful (c : Course) : Prop := c.history.Faithful

theorem born_mono (h : c ≤ d) (hm : c.history.Born m) : d.history.Born m := by
  obtain ⟨v, hmem⟩ := hm
  exact ⟨v, List.IsSuffix.subset h hmem⟩

theorem Faithful.of_le (hd : d.Faithful) (hle : c ≤ d) : c.Faithful := by
  induction d using Course.induction with
  | start =>
    rw [Faithful, List.suffix_nil.1 (show c.history <:+ [] from hle)]
    trivial
  | push d ev h ih =>
    rcases List.suffix_cons_iff.1 (show c.history <:+ ev :: d.history from hle) with heq | hle
    · rw [Faithful, heq]
      exact hd
    · exact ih hd.1 hle

/-! ### The effects of memos -/

theorem memoMade_mono (h : c ≤ d) (hm : c.history.MemoMade m) : d.history.MemoMade m := by
  obtain ⟨factory, ds, hmem⟩ := hm
  exact ⟨factory, ds, List.IsSuffix.subset h hmem⟩

theorem memoMade_lt (h : c.history.MemoMade m) : m + 1 < c.world.next := by
  induction c using Course.induction with
  | start =>
    obtain ⟨factory, ds, h⟩ := h
    cases h
  | push c ev hev ih =>
    obtain ⟨factory, ds, h⟩ := h
    rcases List.mem_cons.1 h with rfl | h
    · obtain rfl : m = c.world.next := hev
      exact Nat.lt_succ_self _
    · exact Nat.lt_of_lt_of_le (ih ⟨factory, ds, h⟩) (next_le hev)

theorem memo_of_effect {x : Effect} (h : c.world.effects.get? e = some x)
    (hx : x.computation = .memo m) : e = m + 1 ∧ c.history.MemoMade m := by
  induction c using Course.induction generalizing x with
  | start => cases h
  | push c ev hev ih =>
    obtain ⟨-, -, hmade⟩ | ⟨y, hy, hxy, -⟩ := effect_step hev h
    · obtain ⟨rfl, factory, ds, rfl⟩ := hmade m hx
      exact ⟨rfl, factory, ds, List.mem_cons_self⟩
    · rw [hxy] at hx
      obtain ⟨rfl, hmade⟩ := ih hy hx
      exact ⟨rfl, memoMade_mono (le_push hev) hmade⟩

/-! ### Effects under way -/

variable {before : List Provider} {depth : Nat} {computation : Computation} {start : World}

/-- A run of an effect that is under way: the effect counts as running, unless it is gone. -/
def Busy (c : Course) (e : NodeId) (computation : Computation) : Prop :=
  e < c.world.next ∧
    ∀ x, c.world.effects.get? e = some x → x.running = true ∧ x.computation = computation

theorem Busy.push (h : c.Busy e computation) (hev : c.history.Allows ev)
    (hfinished : ∀ providers, ev ≠ .finished e providers) : (c.push ev hev).Busy e computation := by
  refine ⟨Nat.lt_of_lt_of_le h.1 (next_le hev), fun x hx => ?_⟩
  obtain ⟨hle, -⟩ | ⟨y, hy, hxy, hrunning⟩ := effect_step hev hx
  · exact absurd h.1 (Nat.not_lt_of_le hle)
  obtain ⟨hy, hcomputation⟩ := h.2 y hy
  refine ⟨?_, by rw [hxy, ← hcomputation]⟩
  obtain hsame | ⟨hstarted, -⟩ | ⟨providers, hends⟩ := hrunning
  · exact hsame.trans hy
  · exact hstarted
  · exact absurd hends (hfinished providers)

theorem frames_started {x : Effect} {providers : List Provider}
    (h : c.history.Allows (.started e depth providers before)) (hx : c.world.effects.get? e = some x) :
    (c.push _ h).frames = .effect e before depth x.computation (c.push _ h).world :: c.frames := by
  have hstarts : (c.push _ h).world.effects.get? e = some { x with running := true } := by
    simp [Event.world, World.starting, Store.get?_modify, hx]
  have hcomputation : (((c.push _ h).world.effects.get? e).getD default).computation = x.computation := by
    rw [hstarts]
    rfl
  rw [← hcomputation]
  rfl

theorem effects_under_way (c : Course) : (Frame.effects c.frames).Nodup ∧
    ∀ e before depth computation start, .effect e before depth computation start ∈ c.frames →
      c.Busy e computation := by
  induction c using Course.induction with
  | start => exact ⟨.nil, nofun⟩
  | push c ev hev ih =>
    obtain ⟨hnodup, hbusy⟩ := ih
    have hkeep {fs : List Frame} (hsub : (Frame.effects fs).Sublist (Frame.effects c.frames))
        (hmem : ∀ e before depth computation start, .effect e before depth computation start ∈ fs →
          .effect e before depth computation start ∈ c.frames)
        (hfinished : ∀ e providers, ev = .finished e providers → e ∉ Frame.effects fs) :
        (Frame.effects fs).Nodup ∧ ∀ e before depth computation start,
          .effect e before depth computation start ∈ fs → (c.push ev hev).Busy e computation :=
      ⟨hnodup.sublist hsub, fun e before depth computation start he =>
        (hbusy e before depth computation start (hmem _ _ _ _ _ he)).push hev fun providers hends =>
          hfinished e providers hends (Frame.mem_effects he)⟩
    -- A run only starts where the effect is marked as idle, so none of its runs is under way by then.
    by_cases hstarted : ∃ e depth providers before, ev = .started e depth providers before
    · obtain ⟨e, depth, providers, before, rfl⟩ := hstarted
      obtain ⟨-, x, hx, hrunning, -⟩ := id hev
      have hx : c.world.effects.get? e = some x := hx
      have hnew : e ∉ Frame.effects c.frames := fun he => by
        obtain ⟨f, hf, hfe⟩ := List.mem_filterMap.1 he
        cases f <;> cases hfe
        rw [((hbusy _ _ _ _ _ hf).2 x hx).1] at hrunning
        cases hrunning
      obtain ⟨hnodup', hbusy'⟩ := hkeep (.refl _) (fun _ _ _ _ _ h => h) (by rintro _ _ ⟨⟩)
      rw [frames_started hev hx]
      refine ⟨List.nodup_cons.2 ⟨hnew, hnodup'⟩, fun e' before' depth' computation start he => ?_⟩
      rcases List.mem_cons.1 he with he | he
      · cases he
        refine ⟨Nat.lt_of_lt_of_le (effect_lt hx) (next_le hev), fun y hy => ?_⟩
        have hstarts : (c.world.starting e providers).effects.get? e = some y := hy
        simp only [World.starting, Store.get?_modify, hx, if_true, Option.map_some,
          Option.some.injEq] at hstarts
        exact hstarts ▸ ⟨rfl, rfl⟩
      · exact hbusy' _ _ _ _ _ he
    · have hstep := (frames_step hev).effects fun e depth providers before h =>
        hstarted ⟨e, depth, providers, before, h⟩
      refine hkeep hstep.1 hstep.2 fun e providers hends => ?_
      subst hends
      obtain ⟨depth, computation, start, hhead, -⟩ := id hev
      rw [frames_closed hev hhead rfl] at hnodup
      exact (List.nodup_cons.1 hnodup).1

/-! ### What a memo holds -/

theorem memo_step (hev : c.history.Allows ev) {x : Memo}
    (h : (ev.world c.world).memos.get? m = some x) :
    (∃ ds, ev = .memoMade m x.factory ds ∧ x.cache = none ∧ x.bound = false ∧ x.dependencies = ds) ∨
    ∃ y, c.world.memos.get? m = some y ∧ x.factory = y.factory ∧ x.dependencies = y.dependencies ∧
      x.cache = ev.cached m y.cache ∧ x.bound = (y.bound || ev.binds m) := by
  cases ev with
  | aside w =>
    have hsame := World.Aside.memos hev m
    rw [show w.memos.get? m = some x from h] at hsame
    obtain ⟨y, hy, hyx⟩ := Option.map_eq_some_iff.1 hsame.symm
    simp only [Memo.mk.injEq] at hyx
    obtain ⟨hfactory, hcache, hbound, hdependencies, -⟩ := hyx
    exact .inr ⟨y, hy, hfactory.symm, hdependencies.symm, hcache.symm,
      hbound.symm.trans (Bool.or_false _).symm⟩
  | memoMade k factory ds =>
    rcases Store.of_put h with ⟨rfl, rfl⟩ | h
    · exact .inl ⟨ds, rfl, rfl, rfl, rfl⟩
    · exact .inr ⟨x, h, rfl, rfl, rfl, (Bool.or_false _).symm⟩
  | computed k v =>
    obtain ⟨y, hy, rfl⟩ := Store.of_modify h
    refine .inr ⟨y, hy, ?_⟩
    by_cases hk : m = k <;> simp [hk, Event.cached, Event.binds]
  | memoBound k v =>
    obtain ⟨y, hy, rfl⟩ := Store.of_modify h
    refine .inr ⟨y, hy, ?_⟩
    by_cases hk : m = k <;> simp [hk, Event.cached, Event.binds]
  | memoGone k => exact .inr ⟨x, Store.of_erase h, rfl, rfl, rfl, (Bool.or_false _).symm⟩
  | composing s =>
    exact .inr ⟨x, by simpa [Event.world, World.opened_eq] using h, rfl, rfl, rfl, (Bool.or_false _).symm⟩
  | _ => exact .inr ⟨x, h, rfl, rfl, rfl, (Bool.or_false _).symm⟩

theorem memo_stays (hev : c.history.Allows ev) (hgone : ev ≠ .memoGone m)
    (h : (c.world.memos.get? m).isSome) : ((ev.world c.world).memos.get? m).isSome := by
  cases ev with
  | aside w =>
    have hsame := congrArg Option.isSome (World.Aside.memos hev m)
    rw [Option.isSome_map, Option.isSome_map] at hsame
    exact hsame.trans h
  | memoMade k =>
    simp only [Event.world, Store.get?_put]
    split
    · rfl
    · exact h
  | computed k | memoBound k =>
    simp only [Event.world, Store.get?_modify]
    split
    · rwa [Option.isSome_map]
    · exact h
  | memoGone k =>
    have hk : m ≠ k := fun hk => hgone (hk ▸ rfl)
    simpa only [Event.world, Store.get?_erase, if_neg hk] using h
  | composing s => simpa [Event.world, World.opened_eq] using h
  | _ => exact h

/-! ### Faithful courses -/

/-- What faithful courses keep.

* `made`: a memo was made before it was bound
* `present`: until it is bound, it is there
* `bound`: from then on it counts as bound
* `runs`: a run of its effect has begun where it was there, and bound or not as it is now
* `seated`: a run of its factory is the beginning of a run of its effect -/
structure Tended (c : Course) : Prop where
  made : ∀ m, c.history.Born m → c.history.MemoMade m
  present : ∀ m, c.history.MemoMade m → ¬ c.history.Born m → (c.world.memos.get? m).isSome
  bound : ∀ m x, c.world.memos.get? m = some x → (x.bound = true ↔ c.history.Born m)
  runs : ∀ e before depth m start, .effect e before depth (.memo m) start ∈ c.frames →
    e = m + 1 ∧ c.history.MemoMade m ∧ (¬ c.history.Born m → (start.memos.get? m).isSome) ∧
      ∀ x, start.memos.get? m = some x → x.bound = false → ¬ c.history.Born m
  seated : Frame.Seated c.frames

theorem tended_start : Course.start.Tended where
  made _ h := by
    obtain ⟨v, hv⟩ := h
    cases hv
  present _ h := by
    obtain ⟨factory, ds, h⟩ := h
    cases h
  bound _ _ h := by cases h
  runs _ _ _ _ _ h := by cases h
  seated := trivial

theorem born_cons {h : History} : History.Born (ev :: h) m ↔ ev.binds m = true ∨ h.Born m := by
  constructor
  · rintro ⟨v, hv⟩
    rcases List.mem_cons.1 hv with rfl | hv
    · exact .inl (beq_self_eq_true m)
    · exact .inr ⟨v, hv⟩
  · rintro (hbinds | ⟨v, hv⟩)
    · cases ev with
      | memoBound k v =>
        obtain rfl : m = k := beq_iff_eq.1 hbinds
        exact ⟨v, List.mem_cons_self⟩
      | _ => cases hbinds
    · exact ⟨v, List.mem_cons_of_mem _ hv⟩

theorem memoMade_cons {h : History} (hm : History.MemoMade (ev :: h) m) :
    (∃ factory ds, ev = .memoMade m factory ds) ∨ h.MemoMade m := by
  obtain ⟨factory, ds, hm⟩ := hm
  rcases List.mem_cons.1 hm with rfl | hm
  · exact .inl ⟨factory, ds, rfl⟩
  · exact .inr ⟨factory, ds, hm⟩

theorem Tended.tried {b : Course} (hb : b.Tended) (hev : b.history.Allows (.finished e before))
    (htried : (b.push _ hev).history.Tried m) :
    e = m + 1 ∧ b.history.MemoMade m ∧ ¬ b.history.Born m ∧
      ∃ v, (b.world.memos.get? m).bind (·.cache) = some v := by
  obtain ⟨e, before, depth, start, x, rest, heq, hhead, hx, hbound⟩ := htried
  cases heq
  obtain ⟨depth', computation, start', hhead', hrun⟩ := hev
  cases hhead.symm.trans hhead'
  obtain ⟨rest, hrest⟩ := frames_cons hhead
  have hmem : .effect e before depth (.memo m) start ∈ b.frames := hrest ▸ List.mem_cons_self
  obtain ⟨he, hmade, -, hunborn⟩ := hb.runs _ _ _ _ _ hmem
  have hunborn := hunborn x hx hbound
  obtain ⟨y, hy⟩ := Option.isSome_iff_exists.1 (hb.present m hmade hunborn)
  obtain ⟨v, hv⟩ := World.cached_of_compute hx hrun
  refine ⟨he, hmade, hunborn, v, ?_⟩
  rw [hy]
  exact hv y hy

theorem Tended.not_recomputing {b : Course} (hb : b.Tended)
    (hfinished : b.history.Allows (.finished e before)) {observers : List NodeId}
    (hhidden : (b.push _ hfinished).history.Allows (.hidden observers))
    (htried : (b.push _ hfinished).history.Tried m) :
    ¬ ((b.push _ hfinished).push _ hhidden).history.Allows (.recomputing m) := by
  intro hallowed
  obtain ⟨-, -, -, v, hv⟩ := hb.tried hfinished htried
  have hnone : ((b.world.memos.get? m).bind (·.cache)).isNone = true := hallowed
  rw [hv] at hnone
  cases hnone

/-- A run of a factory that nothing but an untracked evaluation is around does not end. -/
theorem Tended.not_recomputed (hc : c.Tended) : ¬ c.history.Placed (.recomputed m v) := by
  rintro ⟨start, observers, rest, hframes⟩
  have hseated := hc.seated
  rw [show c.frames = .factory m start :: .untracked observers :: rest from hframes] at hseated
  obtain ⟨⟨_, _, _, _, hhead⟩, -⟩ := hseated
  cases hhead

theorem tried_of_placed (hall : ∀ b ≤ c, b.Tended) (hc : c.Faithful)
    (h : c.history.Placed (.memoBound m v)) :
    c.history.Tried m ∧ (c.world.memos.get? m).bind (·.cache) = some v := by
  obtain htried | ⟨observers, rest, hhistory⟩ := h
  · exact htried
  obtain ⟨b, hshown, rfl⟩ := exists_push hhistory
  obtain ⟨b, hrecomputed, rfl⟩ := exists_push (List.cons.inj hhistory).2
  exact absurd hc.1.2 (hall b ((le_push hrecomputed).trans (le_push hshown))).not_recomputed

theorem idle_of_tried (hall : ∀ b ≤ c, b.Tended) (h : c.history.Tried m) :
    c.history.MemoMade m ∧ ¬ c.history.Born m ∧ m + 1 ∉ Frame.effects c.frames := by
  obtain ⟨e, before, depth, start, x, rest, hhistory, htried⟩ := id h
  obtain ⟨b, hfinished, rfl⟩ := exists_push hhistory
  obtain ⟨rfl, hmade, hunborn, -⟩ := (hall b (le_push hfinished)).tried hfinished h
  refine ⟨memoMade_mono (le_push hfinished) hmade, ?_, ?_⟩
  · rintro hborn
    obtain hbinds | hborn := born_cons.1 hborn
    · cases hbinds
    · exact hunborn hborn
  · obtain ⟨depth, computation, start, hhead, -⟩ := id hfinished
    have hnodup := (effects_under_way b).1
    rw [frames_closed hfinished hhead rfl] at hnodup
    exact (List.nodup_cons.1 hnodup).1

section Push

variable (hall : ∀ b ≤ c, b.Tended) (hc : c.Faithful) (hev : c.history.Allows ev)
  (hplaced : c.history.Placed ev)

include hall hc hplaced

theorem idle_of_binds (h : ev.binds m = true) :
    c.history.MemoMade m ∧ m + 1 ∉ Frame.effects c.frames := by
  cases ev with
  | memoBound k v =>
    obtain rfl : m = k := beq_iff_eq.1 h
    obtain ⟨hmade, -, hidle⟩ := idle_of_tried hall (tried_of_placed hall hc hplaced).1
    exact ⟨hmade, hidle⟩
  | _ => cases h

theorem memoMade_push (h : (c.push ev hev).history.Born m) : (c.push ev hev).history.MemoMade m := by
  refine memoMade_mono (le_push hev) ?_
  obtain hbinds | hborn := born_cons.1 h
  · exact (idle_of_binds hall hc hplaced hbinds).1
  · exact (hall c (le_refl c)).made m hborn

omit hc in
theorem present_push (hm : (c.push ev hev).history.MemoMade m) (h : ¬ (c.push ev hev).history.Born m) :
    ((c.push ev hev).world.memos.get? m).isSome := by
  have hunborn : ¬ c.history.Born m := fun hborn => h (born_mono (le_push hev) hborn)
  obtain ⟨factory, ds, rfl⟩ | hm := memoMade_cons hm
  · simp [Event.world, Store.get?_put]
  · refine memo_stays hev ?_ ((hall c (le_refl c)).present m hm hunborn)
    rintro rfl
    exact hunborn hplaced

omit hc hplaced in
theorem bound_push {x : Memo} (hx : (c.push ev hev).world.memos.get? m = some x) :
    x.bound = true ↔ (c.push ev hev).history.Born m := by
  have ih := hall c (le_refl c)
  obtain ⟨ds, rfl, -, hunbound, -⟩ | ⟨y, hy, -, -, -, hxy⟩ := memo_step hev hx
  · obtain rfl : m = c.world.next := hev
    refine iff_of_false (by simp [hunbound]) fun hborn => ?_
    have hlt := memoMade_lt (ih.made _ ((born_cons.1 hborn).resolve_left nofun))
    omega
  · rw [hxy, history_push, born_cons, Bool.or_eq_true, ih.bound m y hy, or_comm]

theorem runs_kept (he : .effect e before depth (.memo m) start ∈ c.frames) :
    e = m + 1 ∧ (c.push ev hev).history.MemoMade m ∧
      (¬ (c.push ev hev).history.Born m → (start.memos.get? m).isSome) ∧
      ∀ x, start.memos.get? m = some x → x.bound = false → ¬ (c.push ev hev).history.Born m := by
  obtain ⟨rfl, hm, hthere, hnot⟩ := (hall c (le_refl c)).runs _ _ _ _ _ he
  refine ⟨rfl, memoMade_mono (le_push hev) hm, fun h => hthere fun hborn => ?_, fun x hx hxb hborn => ?_⟩
  · exact h (born_mono (le_push hev) hborn)
  · obtain hbinds | hborn := born_cons.1 hborn
    · exact (idle_of_binds hall hc hplaced hbinds).2 (Frame.mem_effects he)
    · exact hnot x hx hxb hborn

theorem runs_push (he : .effect e before depth (.memo m) start ∈ (c.push ev hev).frames) :
    e = m + 1 ∧ (c.push ev hev).history.MemoMade m ∧
      (¬ (c.push ev hev).history.Born m → (start.memos.get? m).isSome) ∧
      ∀ x, start.memos.get? m = some x → x.bound = false → ¬ (c.push ev hev).history.Born m := by
  cases ev with
  | started k depth' providers before' =>
    obtain ⟨-, x, hx, -⟩ := id hev
    rw [frames_started hev hx] at he
    rcases List.mem_cons.1 he with he | he
    · simp only [Frame.effect.injEq] at he
      obtain ⟨rfl, -, -, hcomputation, rfl⟩ := he
      obtain ⟨rfl, hm⟩ := memo_of_effect hx hcomputation.symm
      have hm := memoMade_mono (le_push hev) hm
      refine ⟨rfl, hm, present_push hall hev hplaced hm, fun x hx hxb hborn => ?_⟩
      rw [(bound_push hall hev hx).2 hborn] at hxb
      cases hxb
    · exact runs_kept hall hc hev hplaced he
  | _ => exact runs_kept hall hc hev hplaced (((frames_step hev).effects nofun).2 _ _ _ _ _ he)

omit hc in
theorem seated_push : Frame.Seated (c.push ev hev).frames := by
  refine (hall c (le_refl c)).seated.step (frames_step hev) ?_
  rintro m (rfl | rfl)
  · obtain ⟨e, depth, providers, before, x, rest, hhistory, hx, hcomputation⟩ := hplaced
    obtain ⟨b, hstarted, rfl⟩ := exists_push hhistory
    obtain rfl := (List.cons.inj hhistory).2
    exact ⟨e, before, depth, _, by rw [frames_started hstarted hx, hcomputation]; rfl⟩
  · obtain ⟨observers, rest, hhistory, htried⟩ := hplaced
    obtain ⟨b, hhidden, rfl⟩ := exists_push hhistory
    obtain rfl := (List.cons.inj hhistory).2
    obtain ⟨e, before, depth, start, x, rest, hhistory, -⟩ := id htried
    obtain ⟨b, hfinished, rfl⟩ := exists_push hhistory
    have hb := hall b ((le_push hfinished).trans (le_push hhidden))
    exact absurd hev (hb.not_recomputing hfinished hhidden htried)

theorem Tended.push : (c.push ev hev).Tended where
  made _ h := memoMade_push hall hc hev hplaced h
  present _ hm h := present_push hall hev hplaced hm h
  bound _ _ hx := bound_push hall hev hx
  runs _ _ _ _ _ he := runs_push hall hc hev hplaced he
  seated := seated_push hall hev hplaced

end Push

theorem tended (hc : c.Faithful) : c.Tended := by
  -- A step needs the invariant of all courses before it, not just of the last one.
  have hall : ∀ b ≤ c, b.Tended := by
    induction c using Course.induction with
    | start =>
      intro b hb
      obtain ⟨h, hlawful⟩ := b
      obtain rfl : h = [] := List.suffix_nil.1 hb
      exact tended_start
    | push c ev hev ih =>
      intro b hb
      rcases List.suffix_cons_iff.1 (show b.history <:+ ev :: c.history from hb) with heq | hle
      · obtain rfl : b = c.push ev hev := by
          obtain ⟨h, hlawful⟩ := b
          obtain rfl : h = ev :: c.history := heq
          rfl
        exact .push (ih hc.1) hc.1 hev hc.2
      · exact ih hc.1 b hle
  exact hall c (le_refl c)

theorem tried_of_bound (hc : c.Faithful) (h : c.history.Placed (.memoBound m v)) :
    c.history.Tried m ∧ (c.world.memos.get? m).bind (·.cache) = some v :=
  tried_of_placed (fun _ hb => tended (hc.of_le hb)) hc h

theorem not_recomputing (hc : c.Faithful) (h : c.history.Placed (.recomputing m)) :
    ¬ c.history.Allows (.recomputing m) := by
  obtain ⟨observers, rest, hhistory, htried⟩ := h
  obtain ⟨b, hhidden, rfl⟩ := exists_push hhistory
  obtain rfl := (List.cons.inj hhistory).2
  obtain ⟨e, before, depth, start, x, rest, hhistory, -⟩ := id htried
  obtain ⟨b, hfinished, rfl⟩ := exists_push hhistory
  exact (tended hc.1.1).not_recomputing hfinished hhidden htried

end Course

end FineGrain
