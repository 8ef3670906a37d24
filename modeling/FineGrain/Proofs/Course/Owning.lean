import FineGrain.Proofs.Course.Reading
/-!
Taking a part in something shared and giving it up follow every course. Whatever goes away with its
last owner goes away in a step of its own.
-/

namespace FineGrain

open Act

namespace Course

variable {c d : Course} {p : Prop} {w : World}

/-- The course can go on, with everything closed, until the world is the given one. Under the condition `p`
a neat course stays neat. -/
def Becomes (c : Course) (p : Prop) (w : World) : Prop :=
  ∃ d, c ≤ d ∧ (c.Settled → c.Punctual → d.Punctual) ∧ (p → c.Neat → d.Neat) ∧
    (c.Settled → d.Settled) ∧ d.world = w ∧ d.frames = c.frames

theorem Becomes.refl : c.Becomes p c.world :=
  ⟨c, le_refl c, fun _ hc => hc, fun _ hc => hc, id, rfl, rfl⟩

theorem Becomes.stepNeat (ev : Event) (h : c.history.Allows ev) (hord : c.history.Ordinary ev)
    (hneat : p → c.Neat → (c.push ev h).Neat)
    (hframes : ev.frames c.world (ev.world c.world) c.frames = c.frames) (hw : ev.world c.world = w) :
    c.Becomes p w :=
  ⟨c.push ev h, le_push h, fun hs hc => hc.push (.ordinary hs hord), hneat, fun _ => hord.settled, hw,
    hframes⟩

theorem Becomes.step (ev : Event) (h : c.history.Allows ev) (hev : c.history.Common ev)
    (hframes : ev.frames c.world (ev.world c.world) c.frames = c.frames) (hw : ev.world c.world = w) :
    c.Becomes p w :=
  .stepNeat ev h hev.ordinary (fun _ => .push hev.routine) hframes hw

theorem Becomes.trans {w w' : World} {q : Course → Prop} (h : c.Becomes p w)
    (h' : ∀ d : Course, c ≤ d → d.world = w → d.Becomes (q d) w')
    (hq : ∀ d, c ≤ d → p → c.Neat → q d) : c.Becomes p w' := by
  obtain ⟨d, hle, hd, hneat, hs, hw, hf⟩ := h
  obtain ⟨e, hle', he, hneat', hs', hw', hf'⟩ := h' d hle hw
  exact ⟨e, hle.trans hle', fun h hc => he (hs h) (hd h hc),
    fun hp hc => hneat' (hq d hle hp hc) (hneat hp hc), fun h => hs' (hs h), hw', hf'.trans hf⟩

theorem Becomes.aside (h : c.world.Aside w) (hprobes : w.probes = c.world.probes) : c.Becomes p w :=
  .step (.aside w) h hprobes rfl rfl

theorem Runs.of_becomes {f : World → World} (hp : c.Neat → p) (h : c.Becomes p (f c.world)) :
    c.Runs (modify f : Act Unit) := by
  obtain ⟨d, hle, hd, hneat, hs, hw, hf⟩ := h
  exact ⟨d, hle, fun h => ⟨hd h, fun hc => hneat (hp hc) hc⟩, hw.symm, fun _ _ => ⟨hs, hf⟩⟩

theorem becomes_dropSignal (s : Nat) : c.Becomes p (c.world.dropSignal s) := by
  unfold World.dropSignal
  split
  · exact .refl
  · rename_i x hx
    split
    · rename_i hn
      exact .step (.signalGone s) ⟨x, hx, hn⟩ trivial rfl rfl
    · exact .aside { World.Aside.refl c.world with signals := fun _ => Store.map_get?_put hx rfl } rfl

theorem becomes_dropMemo (m : Nat) : c.Becomes (c.history.Born m) (c.world.dropMemo m).2 := by
  unfold World.dropMemo
  split
  · exact .refl
  · rename_i x hx
    split
    · rename_i hn
      exact .stepNeat (.memoGone m) ⟨x, hx, hn⟩ trivial (fun hborn hc => hc.place trivial hborn) rfl rfl
    · exact .aside { World.Aside.refl c.world with memos := fun _ => Store.map_get?_put hx rfl } rfl

theorem Neat.onProbes (hc : c.Neat) (h : c.world.Aside w)
    (hprobes : ∀ k y ds, w.probes.get? k = some y → y.dependencies = some ds →
      c.history.Knows ds ∨ ∃ i x, c.world.probes.get? i = some x ∧ x.dependencies = some ds) :
    (c.push (.aside w) h).Neat := by
  refine .of_founded (hc.toFounded.push _ trivial nofun ?_) hc nofun nofun
  rintro l ⟨k, y, hy, hds⟩
  obtain hknows | ⟨i, x, hx, hds⟩ := hprobes k y l hy hds
  · exact hknows
  · exact hc.lists l (.probe hx hds)

theorem Becomes.onProbes (h : c.world.Aside w)
    (hprobes : ∀ k y ds, w.probes.get? k = some y → y.dependencies = some ds →
      c.history.Knows ds ∨ ∃ i x, c.world.probes.get? i = some x ∧ x.dependencies = some ds) :
    c.Becomes p w :=
  .stepNeat (.aside w) h trivial (fun _ hc => hc.onProbes h hprobes) rfl rfl

theorem becomes_dropProbe (k : Nat) : c.Becomes p (c.world.dropProbe k).2 := by
  unfold World.dropProbe
  split
  · exact .refl
  · rename_i x hx
    split
    · refine .onProbes { World.Aside.refl c.world with } fun i y ds hy hds => .inr ?_
      exact ⟨i, y, Store.of_erase hy, hds⟩
    · refine .onProbes { World.Aside.refl c.world with } fun i y ds hy hds => ?_
      rcases Store.of_put hy with ⟨-, rfl⟩ | hy
      · exact .inr ⟨k, x, hx, hds⟩
      · exact .inr ⟨i, y, hy, hds⟩

theorem becomes_dropEffect (e : NodeId) : c.Becomes p (c.world.dropEffect e).2 := by
  unfold World.dropEffect
  split
  · exact .refl
  · rename_i x hx
    exact .step (.effectGone e) (by rw [History.Allows]; exact Option.isSome_of_mem hx)
      trivial rfl rfl

theorem becomes_dropOne (o : Owned) : c.Becomes (c.history.Owns [o]) (c.world.dropOne o).2 := by
  cases o with
  | signal s => exact becomes_dropSignal s
  | memo m =>
    obtain ⟨d, hle, hd, hneat, hrest⟩ := becomes_dropMemo (c := c) m
    exact ⟨d, hle, hd, fun howns => hneat (howns m (List.mem_singleton_self _)), hrest⟩
  | probe p => exact becomes_dropProbe p
  | effect e => exact becomes_dropEffect e

theorem Neat.owns_dropOne (hc : c.Neat) (o : Owned) : c.history.Owns (c.world.dropOne o).1 := by
  -- Only a last handle releases anything: the list that the thing was declared with.
  cases o with
  | signal s => exact History.owns_nil
  | memo m =>
    simp only [World.dropOne, World.dropMemo]
    split
    · exact History.owns_nil
    · rename_i x hx
      split
      · exact History.owns_append (History.owns_allOwned (hc.lists _ (.memo hx)))
          (History.owns_single fun _ h => by cases h)
      · exact History.owns_nil
  | probe k =>
    simp only [World.dropOne, World.dropProbe]
    split
    · exact History.owns_nil
    · rename_i x hx
      split
      · cases hds : x.dependencies with
        | none => exact History.owns_nil
        | some ds => exact History.owns_allOwned (hc.lists _ (.probe hx hds))
      · exact History.owns_nil
  | effect e =>
    simp only [World.dropOne, World.dropEffect]
    split
    · exact History.owns_nil
    · rename_i x hx
      cases x.computation with
      | hook k =>
        refine History.owns_allOwned ?_
        cases hk : c.world.hooks.get? k with
        | none => exact History.knows_nil
        | some y =>
          cases hds : y.dependencies with
          | none => simp [hds, History.knows_nil]
          | some ds => simpa [hds] using hc.lists ds (.hook hk hds)
      | _ => exact History.owns_nil

theorem becomes_giveUpSteps (n : Nat) : ∀ (c : Course) (things : List Owned),
    c.Becomes (c.history.Owns things) (World.giveUpSteps n things c.world) := by
  -- What one thing gives up goes in front of the rest, and the course owns both.
  induction n with
  | zero => exact fun _ _ => .refl
  | succ n ih =>
    intro c things
    cases things with
    | nil => exact .refl
    | cons o rest =>
      obtain ⟨d, hle, hd, hneat, hrest⟩ := becomes_dropOne (c := c) o
      have hfirst : c.Becomes (c.history.Owns (o :: rest)) (c.world.dropOne o).2 :=
        ⟨d, hle, hd, fun howns => hneat (History.owns_single fun m ho => howns m (ho ▸ List.mem_cons_self)),
          hrest⟩
      refine hfirst.trans (q := fun d => d.history.Owns ((c.world.dropOne o).1 ++ rest)) (fun d _ hw => ?_)
        fun d hle howns hc => ?_
      · have hmore := ih d ((c.world.dropOne o).1 ++ rest)
        rwa [hw] at hmore
      · refine owns_mono hle (History.owns_append (hc.owns_dropOne o) fun m hm => ?_)
        exact howns m (List.mem_cons_of_mem _ hm)

theorem Runs.giveUp {things : List Owned} (h : c.Neat → c.history.Owns things) : c.Runs (giveUp things) :=
  .of_becomes h (becomes_giveUpSteps _ c things)

theorem Runs.retain (o : Owned) : c.Runs (retain o) := by
  cases o with
  | signal s => exact .aside (.onSignal s fun _ => rfl) rfl
  | memo m => exact .aside (.onMemo m fun _ => rfl) rfl
  | probe k =>
    refine .asideNeat { World.Aside.refl c.world with } fun hc => hc.onProbes _ fun i y ds hy hds => ?_
    obtain ⟨x, hx, rfl⟩ := Store.of_modify hy
    refine .inr ⟨i, x, hx, ?_⟩
    split at hds <;> exact hds
  | effect e => exact .aside (World.Aside.refl c.world) rfl

theorem Runs.giveUpSignal (s : Nat) : c.Runs (Act.giveUp [.signal s]) :=
  .giveUp fun _ => History.owns_single nofun

theorem Runs.disposeEffect (e : NodeId) : c.Runs (disposeEffect e) :=
  .giveUp fun _ => History.owns_single nofun

theorem Runs.dropDispatcher (k : Nat) : c.Runs (dropDispatcher k) := by
  refine .get ?_
  split
  · exact .pure _
  · rename_i x hx
    split
    · refine Runs.bind (.aside { World.Aside.refl c.world with dispatchers := ?_ } rfl)
        fun _ _ _ _ => .giveUpSignal _
      intro i y hy
      rw [Store.get?_erase] at hy
      split at hy
      · cases hy
      · exact ⟨y, hy, rfl, rfl⟩
    · refine .aside { World.Aside.refl c.world with dispatchers := ?_ } rfl
      intro i y hy
      rw [Store.get?_put] at hy
      split at hy
      · rename_i hi
        cases hy
        exact ⟨x, hi ▸ hx, rfl, rfl⟩
      · exact ⟨y, hy, rfl, rfl⟩

end Course

end FineGrain
