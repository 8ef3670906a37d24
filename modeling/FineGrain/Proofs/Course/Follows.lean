import FineGrain.Proofs.Course.Neat
/-!
Acts along a course. An act follows a course if what it does is a sequence of allowed steps, also when
it stops short, and each of them is made in its time and in its place if that was so before; an act that
ends has closed what it has opened.
-/

namespace FineGrain

open Act

namespace Course

variable {α β : Type} {p : Prop} {c d : Course} {a b : Act α} {f : α → Act β} {ev : Event}
  {post post' : α → Course → Prop}

/-- What an act does continues the course, and what it answers has a property there. Under the
condition `p` a punctual course stays punctual, and a neat one neat. -/
def Leads (c : Course) (p : Prop) (a : Act α) (post : α → Course → Prop) : Prop :=
  ∃ d, c ≤ d ∧ (p → c.Keeps d) ∧ (c.world.run a).2 = d.world ∧
    ∀ v, (c.world.run a).1 = .ok v → post v d

theorem Leads.of_run_eq (h : c.world.run a = c.world.run b) (hb : c.Leads p b post) :
    c.Leads p a post := by
  rwa [Leads, h]

theorem Leads.of_run {v : α} (h : c.world.run a = (.ok v, c.world)) (hv : post v c) :
    c.Leads p a post := by
  refine ⟨c, le_refl c, fun _ => .refl c, by rw [h], ?_⟩
  rw [h]
  rintro _ ⟨⟩
  exact hv

theorem Leads.pure {v : α} (hv : post v c) : c.Leads p (pure v) post := .of_run rfl hv

theorem Leads.of_error {e : Abort} (h : c.world.run a = (.error e, c.world)) : c.Leads p a post :=
  ⟨c, le_refl c, fun _ => .refl c, by rw [h], fun _ hv => by rw [h] at hv; cases hv⟩

theorem Leads.mono (h : c.Leads p a post) (hpost : ∀ v d, c ≤ d → post v d → post' v d) :
    c.Leads p a post' := by
  obtain ⟨d, hle, hd, hw, hv⟩ := h
  exact ⟨d, hle, hd, hw, fun v h => hpost v d hle (hv v h)⟩

theorem Leads.bind {post' : β → Course → Prop} (ha : c.Leads p a post)
    (hf : ∀ v d, c ≤ d → post v d → d.Leads p (f v) post') : c.Leads p (a >>= f) post' := by
  obtain ⟨d, hle, hd, hw, hv⟩ := ha
  rw [Leads, World.run_bind]
  rcases hr : c.world.run a with ⟨_ | v, w⟩
  · refine ⟨d, hle, hd, by rw [← hw, hr], fun _ h => by cases h⟩
  · obtain ⟨e, hle', he, hw', hu⟩ := hf v d hle (hv v (by rw [hr]))
    obtain rfl : w = d.world := by rw [← hw, hr]
    exact ⟨e, hle.trans hle', fun h => (hd h).trans (he h), hw', hu⟩

theorem Leads.get {f : World → Act α} (hf : c.Leads p (f c.world) post) :
    c.Leads p (get >>= f) post :=
  .of_run_eq (World.run_bind_ok c.world.run_get f) hf

theorem Leads.answered (h : c.Leads p a post) :
    c.Leads p a fun v d => post v d ∧ c.world.run a = (.ok v, d.world) := by
  obtain ⟨d, hle, hd, hw, hv⟩ := h
  exact ⟨d, hle, hd, hw, fun v h => ⟨hv v h, Prod.ext h hw⟩⟩

theorem Leads.begin (hle : c ≤ d) (hkeeps : p → c.Keeps d) (hrun : c.world.run a = d.world.run b)
    (hb : d.Leads p b post) : c.Leads p a post := by
  obtain ⟨e, hle', he, hw, hv⟩ := hb
  rw [Leads, hrun]
  exact ⟨e, hle.trans hle', fun hp => (hkeeps hp).trans (he hp), hw, hv⟩

theorem Leads.step (ev : Event) (h : c.history.Allows ev) (hdue : p → c.history.Due ev)
    (hroutine : ev.Routine c.world) (hrun : c.world.run a = (ev.world c.world).run b)
    (hb : (c.push ev h).Leads p b post) : c.Leads p a post :=
  .begin (le_push h) (fun hp => ⟨fun hc => hc.push (hdue hp), .push hroutine⟩) hrun hb

theorem Leads.after (ev : α → Event) (ha : c.Leads p a post)
    (hstep : ∀ v d, c ≤ d → post v d → ∃ h : d.history.Allows (ev v),
      (p → d.history.Due (ev v)) ∧ (ev v).world d.world = d.world ∧ post' v (d.push (ev v) h))
    (hroutine : ∀ v w, (ev v).Routine w) : c.Leads p a post' := by
  refine .of_run_eq (b := a >>= fun v => Pure.pure v) (by simp) (ha.bind fun v d hle hv => ?_)
  obtain ⟨h, hdue, hw, hpost⟩ := hstep v d hle hv
  refine .step (ev v) h hdue (hroutine v _) (b := Pure.pure v) ?_ (.pure hpost)
  rw [hw]

/-- What an act does continues the course, and what it answers has a property there. -/
def Follows (c : Course) (a : Act α) (post : α → Course → Prop) : Prop :=
  c.Leads c.Settled a fun v d => (c.Settled → d.Settled) ∧ post v d

theorem Follows.leads (hp : p → c.Settled) (h : c.Follows a post) :
    c.Leads p a fun v d => (p → d.Settled) ∧ post v d := by
  obtain ⟨d, hle, hd, hw, hv⟩ := h
  exact ⟨d, hle, fun h => hd (hp h), hw, fun v h => ⟨fun h' => (hv v h).1 (hp h'), (hv v h).2⟩⟩

theorem Follows.reached (h : c.Follows a post) :
    ∃ d, c ≤ d ∧ (c.world.run a).2 = d.world ∧ ∀ v, (c.world.run a).1 = .ok v → post v d := by
  obtain ⟨d, hle, -, hw, hv⟩ := h
  exact ⟨d, hle, hw, fun v h => (hv v h).2⟩

theorem Follows.of_run_eq (h : c.world.run a = c.world.run b) (hb : c.Follows b post) :
    c.Follows a post :=
  Leads.of_run_eq h hb

theorem Follows.of_run {v : α} (h : c.world.run a = (.ok v, c.world)) (hv : post v c) :
    c.Follows a post :=
  Leads.of_run h ⟨id, hv⟩

theorem Follows.pure {v : α} (hv : post v c) : c.Follows (pure v) post := .of_run rfl hv

theorem Follows.conflict : c.Follows conflict post := Leads.of_error rfl

theorem Follows.exhausted : c.Follows exhausted post := Leads.of_error rfl

theorem Follows.mono (h : c.Follows a post) (hpost : ∀ v d, c ≤ d → post v d → post' v d) :
    c.Follows a post' :=
  Leads.mono h fun v d hle hv => ⟨hv.1, hpost v d hle hv.2⟩

theorem Follows.bind {post' : β → Course → Prop} (ha : c.Follows a post)
    (hf : ∀ v d, c ≤ d → post v d → d.Follows (f v) post') : c.Follows (a >>= f) post' :=
  Leads.bind ha fun v d hle hv => (Follows.leads hv.1 (hf v d hle hv.2)).mono fun _ _ _ he => he

theorem Follows.map {g : α → β} {post' : β → Course → Prop} (ha : c.Follows a post)
    (hg : ∀ v d, c ≤ d → post v d → post' (g v) d) : c.Follows (g <$> a) post' := by
  rw [map_eq_pure_bind]
  exact ha.bind fun v d hle hv => .pure (hg v d hle hv)

theorem Follows.answered (h : c.Follows a post) :
    c.Follows a fun v d => post v d ∧ c.world.run a = (.ok v, d.world) :=
  (Leads.answered h).mono fun _ _ _ hv => ⟨hv.1.1, hv.1.2, hv.2⟩

theorem Follows.stepNeat (ev : Event) (h : c.history.Allows ev) (hord : c.history.Ordinary ev)
    (hneat : c.Neat → (c.push ev h).Neat) (hrun : c.world.run a = (ev.world c.world).run b)
    (hb : (c.push ev h).Follows b post) : c.Follows a post :=
  Leads.begin (le_push h) (fun hs => ⟨fun hc => hc.push (.ordinary hs hord), hneat⟩) hrun
    ((Follows.leads (c := c.push ev h) (fun _ => hord.settled) hb).mono fun _ _ _ hv => hv)

theorem Follows.step (ev : Event) (h : c.history.Allows ev) (hev : c.history.Common ev)
    (hrun : c.world.run a = (ev.world c.world).run b) (hb : (c.push ev h).Follows b post) :
    c.Follows a post :=
  .stepNeat ev h hev.ordinary (.push hev.routine) hrun hb

/-- An act that ends, and leaves everything closed. -/
def Runs (c : Course) (a : Act α) : Prop := c.Follows a fun _ d => d.frames = c.frames

theorem Runs.of_run_eq (h : c.world.run a = c.world.run b) (hb : c.Runs b) : c.Runs a :=
  Follows.of_run_eq h hb

theorem Runs.pure (v : α) : c.Runs (pure v) := Follows.pure rfl

theorem Runs.look {v : α} (h : c.world.run a = (.ok v, c.world)) : c.Runs a := Follows.of_run h rfl

theorem Runs.bind (ha : c.Runs a) (hf : ∀ v d, c ≤ d → d.frames = c.frames → d.Runs (f v)) :
    c.Runs (a >>= f) :=
  Follows.bind ha fun v d hle hd => (hf v d hle hd).mono fun _ _ _ he => he.trans hd

theorem Runs.map {g : α → β} (ha : c.Runs a) : c.Runs (g <$> a) :=
  Follows.map ha fun _ _ _ h => h

theorem Runs.get {f : World → Act β} (hf : c.Runs (f c.world)) : c.Runs (get >>= f) :=
  Runs.of_run_eq (World.run_bind_ok c.world.run_get f) hf

theorem Runs.step {v : α} (ev : Event) (h : c.history.Allows ev) (hev : c.history.Common ev)
    (hframes : ev.frames c.world (ev.world c.world) c.frames = c.frames)
    (hrun : c.world.run a = (.ok v, ev.world c.world)) : c.Runs a :=
  Follows.step ev h hev (b := Pure.pure v) hrun (.pure hframes)

theorem Runs.asideNeat {g : World → World} (h : c.world.Aside (g c.world))
    (hneat : c.Neat → (c.push (.aside (g c.world)) h).Neat) : c.Runs (modify g : Act Unit) :=
  Follows.stepNeat (b := Pure.pure PUnit.unit) (.aside (g c.world)) h trivial hneat
    (World.run_modify c.world g) (.pure rfl)

theorem Runs.aside {g : World → World} (h : c.world.Aside (g c.world))
    (hprobes : (g c.world).probes = c.world.probes) : c.Runs (modify g : Act Unit) :=
  .asideNeat h (.push hprobes)

theorem head_frames {frame : Frame} {rest : List Frame} (h : c.frames = frame :: rest) :
    c.history.frames.head? = some frame := by
  rw [show c.history.frames = frame :: rest from h]
  rfl

/-- An act that opens something, goes on, and closes it again. -/
theorem Runs.bracket (ev : Event) (frame : Frame) (inner : Act β) (close : β → Act α)
    (h : c.history.Allows ev) (hev : c.history.Common ev)
    (hopen : ev.frames c.world (ev.world c.world) c.frames = frame :: c.frames)
    (hrun : c.world.run a = (ev.world c.world).run (inner >>= close))
    (hinner : (c.push ev h).Runs inner)
    (hclose : ∀ v d, c ≤ d → d.frames = frame :: c.frames →
      (ev.world c.world).run inner = (.ok v, d.world) →
        d.Follows (close v) fun _ e => e.frames = c.frames) : c.Runs a :=
  Follows.step ev h hev hrun ((Follows.answered hinner).bind fun v d hle hd =>
    hclose v d ((le_push h).trans hle) (hd.1.trans hopen) hd.2)

theorem Leads.bracket (ev : Event) (frame : Frame) (inner : Act β) (close : β → Act α)
    (h : c.history.Allows ev) (hdue : p → c.history.Due ev) (hroutine : ev.Routine c.world)
    (hev : ¬ ev.Urgent)
    (hopen : ev.frames c.world (ev.world c.world) c.frames = frame :: c.frames)
    (hrun : c.world.run a = (ev.world c.world).run (inner >>= close))
    (hinner : (c.push ev h).Runs inner)
    (hclose : ∀ v d, c ≤ d → (p → d.Settled) → d.frames = frame :: c.frames →
      (ev.world c.world).run inner = (.ok v, d.world) → d.Leads p (close v) post) :
    c.Leads p a post := by
  refine .step ev h hdue hroutine hrun ?_
  refine (Follows.leads (c := c.push ev h) (fun _ => History.settled_cons hev)
    (Follows.answered hinner)).bind fun v d hle hd => ?_
  exact hclose v d ((le_push h).trans hle) hd.1 (hd.2.1.trans hopen) hd.2.2

theorem Follows.close {frame : Frame} {rest : List Frame} {v : α} (ev : Event)
    (h : c.history.Allows ev) (hev : c.history.Common ev) (hc : c.frames = frame :: rest)
    (hclose : ev.frames c.world (ev.world c.world) c.frames = c.frames.tail)
    (hrun : c.world.run a = (.ok v, ev.world c.world)) : c.Follows a fun _ d => d.frames = rest :=
  Follows.step ev h hev (b := Pure.pure v) hrun (.pure (hclose.trans (by rw [hc]; rfl)))

end Course

/-- Whatever a host of the tower evaluates follows every course. -/
structure Host.Lawful (host : Host) : Prop where
  tower : ∃ n, host = .ofDepth n
  call : ∀ (c : Course) (e : Body) (arguments : List Value), c.Runs (host.call e arguments)

namespace World

variable {w : World}

theorem Aside.refl (w : World) : w.Aside w :=
  ⟨rfl, rfl, rfl, rfl, rfl, rfl, Nat.le_refl _, fun _ => rfl, fun _ => rfl,
    fun _ y h => ⟨y, h, rfl, rfl⟩, fun _ y h => ⟨y, h, rfl⟩⟩

end World

end FineGrain
