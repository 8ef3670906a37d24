import FineGrain.Proofs.Course.States
import FineGrain.Program.Eval
/-!
Programs follow every course: whatever an expression does is a sequence of allowed steps.
-/

namespace FineGrain

open Act

namespace World.Aside

variable {w : World} {k : Nat}

theorem onHandle (k : Nat) {f : Held → Held} (hf : ∀ x, (f x).handle = x.handle) :
    w.Aside { w with handles := w.handles.modify k f } := by
  refine { refl w with handles := fun i y hy => ?_ }
  rw [Store.get?_modify] at hy
  split at hy
  · obtain ⟨x, hx, rfl⟩ := Option.map_eq_some_iff.1 hy
    exact ⟨x, hx, hf x⟩
  · exact ⟨y, hy, rfl⟩

theorem putHandle {x y : Held} (hx : w.handles.get? k = some x) (h : y.handle = x.handle) :
    w.Aside { w with handles := w.handles.put k y } := by
  refine { refl w with handles := fun i z hz => ?_ }
  rw [Store.get?_put] at hz
  split at hz
  · rename_i hi
    cases hz
    exact ⟨x, hi ▸ hx, h⟩
  · exact ⟨z, hz, rfl⟩

end World.Aside

namespace Course

variable {α : Type} {c d : Course} {host : Host} {s k n : Nat} {v : Value} {handle : Handle}
  {eval : Expr → Act Value} {arguments : List Value}

/-! ### Names and handles -/

theorem Runs.release (hh : host.Lawful) {handle : Handle} (hhandle : c.Neat → c.history.Grants handle) :
    c.Runs (release host handle) := by
  cases handle with
  | reducer s d => exact (Runs.giveUpSignal s).bind fun _ _ _ _ => .dropDispatcher _
  | hook h => exact .disposeHook hh h
  | effect e => exact .disposeEffect e
  | context | snapshot | ref => exact .pure _
  | memo m | callback m =>
    refine .giveUp fun hc => History.owns_single ?_
    rintro k ⟨⟩
    exact hhandle hc
  | signal s => exact .giveUpSignal s
  | signalPair s | state s => exact .giveUp fun _ => by simp [History.Owns]
  | probe p => exact .giveUp fun _ => History.owns_single nofun

theorem Runs.hold (k : Nat) : c.Runs (hold k) := .aside (.onHandle k fun _ => rfl) rfl

theorem Runs.letGo (hh : host.Lawful) (k : Nat) : c.Runs (letGo host k) := by
  refine .get ?_
  cases hx : c.world.handles.get? k with
  | none => exact .pure _
  | some x =>
    dsimp only
    split
    · refine Runs.bind (.aside { World.Aside.refl c.world with handles := fun i y hy => ?_ } rfl)
        fun _ d hd _ => .release hh fun hd' => hd'.grants (refers_mono hd (refers_of_handle hx))
      rw [Store.get?_erase] at hy
      split at hy
      · cases hy
      · exact ⟨y, hy, rfl⟩
    · exact .aside (.putHandle hx rfl) rfl

theorem Runs.unbind (name : String) : c.Runs (unbind name) :=
  Follows.of_run_eq (b := do
      modify fun w => { w with names := w.names.filter (·.1 != name) }
      return c.world.names.lookup name) rfl <|
    Runs.bind (.aside { World.Aside.refl c.world with } rfl) fun _ _ _ _ => .pure _

theorem Runs.bindName (hh : host.Lawful) (name : String) (hf : c.history.Fits handle)
    (hg : c.Neat → c.history.Grants handle) : c.Runs (Act.bind host name handle) := by
  let number := c.world.next
  have hbound : c.history.Allows (.bound number name handle) := ⟨rfl, hf⟩
  have hrun (a : Act Unit) (h : c.world.names.lookup name = none ∧ a = Pure.pure ⟨⟩ ∨
      ∃ old, c.world.names.lookup name = some old ∧ a = Act.letGo host old) :
      c.world.run (Act.bind host name handle) =
        ((Event.bound number name handle).world c.world).run a := by
    obtain ⟨hn, rfl⟩ | ⟨old, hn, rfl⟩ := h <;>
      simp [Act.bind, Act.unbind, World.run_bind, hn, Event.world, number]
  have hneat (hc : c.Neat) : (c.push _ hbound).Neat := by
    refine .of_founded (hc.toFounded.push hbound trivial ?_ nofun) hc nofun nofun
    rintro _ _ _ ⟨⟩
    exact hg hc
  cases hn : c.world.names.lookup name with
  | none => exact Follows.stepNeat _ hbound trivial hneat (hrun _ (.inl ⟨hn, rfl⟩)) (.pure rfl)
  | some old =>
    exact Follows.stepNeat _ hbound trivial hneat (hrun _ (.inr ⟨old, hn, rfl⟩)) (Runs.letGo hh old)

theorem Runs.dropName (hh : host.Lawful) (name : String) : c.Runs (dropName host name) := by
  refine (Runs.unbind name).bind fun old d _ _ => ?_
  cases old with
  | none => exact .pure _
  | some number => exact (Runs.letGo hh number).bind fun _ _ _ _ => .pure _

/-- The memos of a dependency list have had names. -/
def Cites (c : Course) (ds : List Dependency) : Prop := ∀ m, .memo m ∈ ds → c.history.Named m

theorem Cites.mono {ds : List Dependency} (h : c.Cites ds) (hle : c ≤ d) : d.Cites ds :=
  fun m hm => named_mono hle (h m hm)

theorem Cites.knows {ds : List Dependency} (h : c.Cites ds) (hc : c.Neat) : c.history.Knows ds :=
  fun m hm => hc.named m (h m hm)

theorem Follows.dependency (entry : DependencyEntry) : c.Follows (dependency entry) fun x d =>
    d.frames = c.frames ∧ d.Cites [x] := by
  have hother {d : Course} {x : Dependency} (hx : ∀ m, x ≠ .memo m) : d.Cites [x] :=
    fun m hm => absurd (List.mem_singleton.1 hm).symm (hx m)
  cases entry with
  | plain v => exact .pure ⟨rfl, hother nofun⟩
  | named name =>
    refine .of_run_eq (World.run_bind_ok (v := do
      let number ← c.world.names.lookup name
      let held ← c.world.handles.get? number
      return (number, held.handle)) rfl _) ?_
    have hretain (o : Owned) {x : Dependency} (hx : c.Cites [x]) :
        c.Follows (do Act.retain o; return x) fun x d => d.frames = c.frames ∧ d.Cites [x] :=
      Follows.bind (Runs.retain o) fun _ _ hle hd => .pure ⟨hd, hx.mono hle⟩
    cases hn : c.world.names.lookup name with
    | none => exact .pure ⟨rfl, hother nofun⟩
    | some number =>
      cases hx : c.world.handles.get? number with
      | none =>
        simp only [hx, Option.bind_eq_bind, Option.bind_some, Option.bind_none]
        exact .pure ⟨rfl, hother nofun⟩
      | some x =>
        have hrefers := refers_of_handle hx
        simp only [hx, Option.bind_eq_bind, Option.bind_some, Option.pure_def]
        cases hhandle : x.handle with
        | state s | reducer s => exact hretain _ (hother nofun)
        | probe p => exact hretain _ (hother nofun)
        | memo m | callback m =>
          rw [hhandle] at hrefers
          refine hretain _ fun k hk => ?_
          obtain rfl : k = m := by simpa using hk
          exact hrefers
        | _ => exact .pure ⟨rfl, hother nofun⟩

theorem Follows.dependencies (entries : List DependencyEntry) : c.Follows (dependencies entries) fun ds d =>
    d.frames = c.frames ∧ d.Cites ds := by
  induction entries generalizing c with
  | nil => exact .pure ⟨rfl, nofun⟩
  | cons entry rest ih =>
    refine (Follows.dependency entry).bind fun x d _ hx => ih.bind fun ds e hle hds => ?_
    refine .pure ⟨hds.1.trans hx.1, fun m hm => ?_⟩
    rcases List.mem_cons.1 hm with rfl | hm
    · exact hx.2.mono hle _ List.mem_cons_self
    · exact hds.2 m hm

theorem Runs.giveUpDependencies {ds : List Dependency} (h : c.Cites ds) :
    c.Runs (giveUpDependencies ds) :=
  .giveUp fun hc => History.owns_allOwned (h.knows hc)

theorem Runs.compareDependencies (a b : Dependency) : c.Runs (compareDependencies a b) := by
  have hpeek : c.Runs (peekDependency a) := by
    cases a with
    | plain v => cases v <;> exact .pure _
    | state s => exact .read
    | memo m => exact .cachedValue
    | probe p => exact .look rfl
  exact hpeek.bind fun _ _ _ _ => .get (.pure _)

/-! ### Operations -/

theorem Runs.inside (hh : host.Lawful) (body : Option Body) (v : Value) :
    c.Runs (inside host body v) := by
  cases body with
  | none => exact .pure _
  | some body => exact hh.call c _ _

theorem Runs.quietly {act : Act Unit} (h : c.Runs act) : c.Runs (quietly act) :=
  h.bind fun _ _ _ _ => .pure _

variable {op : Operation} {act : Act Value}

theorem Runs.readOperation (hh : host.Lawful) (h : readOperation? host s op = some act) :
    c.Runs act := by
  cases op with
  | get =>
    obtain rfl := Option.some.inj h
    exact Runs.track.bind fun _ _ _ _ => .read
  | peek =>
    obtain rfl := Option.some.inj h
    exact .read
  | borrow body =>
    obtain rfl := Option.some.inj h
    exact Runs.track.bind fun _ _ _ _ => .borrowing fun _ _ _ => .inside hh _ _
  | subscriberCount | hasNode =>
    obtain rfl := Option.some.inj h
    exact .look rfl
  | _ => cases h

theorem Runs.signalOperation (hh : host.Lawful) (heval : ∀ d e, c ≤ d → d.Runs (eval e))
    (hs : c.history.Made s .plain) (h : signalOperation? host eval s op = some act) :
    c.Runs act := by
  unfold signalOperation? at h
  split at h
  · obtain rfl := Option.some.inj h
    exact (heval c _ (le_refl c)).bind fun v d hd _ => .quietly (.setSignal hh (made_mono hd hs))
  · obtain rfl := Option.some.inj h
    exact .quietly (.updateSignal hh hs _)
  · exact .readOperation hh h

theorem Runs.stateOperation (hh : host.Lawful) {setter : String}
    (h : stateOperation? host s setter op = some act) : c.Runs act := by
  unfold stateOperation? at h
  split at h
  · obtain rfl := Option.some.inj h
    exact Runs.track.bind fun _ _ _ _ => .borrowing fun _ _ _ => .pure _
  · obtain rfl := Option.some.inj h
    exact Runs.track.bind fun _ _ _ _ => .borrowing fun _ _ _ => .pure _
  · obtain rfl := Option.some.inj h
    exact .pure _
  · obtain rfl := Option.some.inj h
    exact Runs.read.bind fun _ _ _ _ => .pure _
  · exact .readOperation hh h

theorem Runs.memoOperation (hh : host.Lawful) (h : memoOperation? host k op = some act) :
    c.Runs act := by
  cases op with
  | get =>
    obtain rfl := Option.some.inj h
    exact Runs.trackMemo.bind fun _ _ _ _ => .cachedValue
  | peek =>
    obtain rfl := Option.some.inj h
    exact .cachedValue
  | borrow body =>
    obtain rfl := Option.some.inj h
    exact .borrowingMemo fun _ _ _ => .inside hh _ _
  | dependencyCount =>
    obtain rfl := Option.some.inj h
    exact .look rfl
  | debug =>
    obtain rfl := Option.some.inj h
    exact Runs.cachedValue.bind fun _ _ _ _ => .look rfl
  | _ => cases h

theorem Runs.callbackOperation (hh : host.Lawful) (heval : ∀ d e, c ≤ d → d.Runs (eval e))
    (h : callbackOperation? host eval k op = some act) : c.Runs act := by
  cases op with
  | call e =>
    obtain rfl := Option.some.inj h
    exact (heval c e (le_refl c)).bind fun _ _ _ _ =>
      Runs.trackMemo.bind fun _ _ _ _ => .callCached hh _
  | callUntracked e =>
    obtain rfl := Option.some.inj h
    exact (heval c e (le_refl c)).bind fun _ _ _ _ => .callCached hh _
  | dependencyCount | debug =>
    obtain rfl := Option.some.inj h
    exact .look rfl
  | _ => cases h

theorem Runs.effectOperation (h : effectOperation? k op = some act) : c.Runs act := by
  cases op with
  | dispose =>
    obtain rfl := Option.some.inj h
    exact .quietly (.disposeEffect _)
  | isDisposed | hasNode =>
    obtain rfl := Option.some.inj h
    exact .look rfl
  | _ => cases h

theorem Runs.hookOperation (hh : host.Lawful) (h : hookOperation? host k op = some act) :
    c.Runs act := by
  cases op with
  | dispose =>
    obtain rfl := Option.some.inj h
    exact .quietly (.disposeHook hh _)
  | isDisposed | phase | debug =>
    obtain rfl := Option.some.inj h
    exact .look rfl
  | _ => cases h

theorem Runs.contextOperation (hh : host.Lawful) (heval : ∀ d e, c ≤ d → d.Runs (eval e))
    (h : contextOperation? host eval k v op = some act) : c.Runs act := by
  cases op with
  | provide e inside =>
    obtain rfl := Option.some.inj h
    exact (heval c e (le_refl c)).bind fun _ d hd _ =>
      .get (.providing fun d' hd' => heval d' _ (hd.trans hd'))
  | useContext | tryContext | defaultValue =>
    obtain rfl := Option.some.inj h
    exact .look rfl
  | consumer body =>
    obtain rfl := Option.some.inj h
    exact Runs.bind (.look rfl) fun _ _ _ _ => .inside hh _ _
  | _ => cases h

theorem Runs.snapshotOperation (heval : ∀ d e, c ≤ d → d.Runs (eval e)) {providers : List Provider}
    (h : snapshotOperation? eval providers op = some act) : c.Runs act := by
  cases op with
  | runIn e =>
    obtain rfl := Option.some.inj h
    exact .providing fun d hd => heval d e hd
  | debug =>
    obtain rfl := Option.some.inj h
    exact .pure _
  | _ => cases h

theorem Runs.replaceRef (v : Option Value) : c.Runs (replaceRef k v) := by
  refine Runs.bind (.look rfl) fun x d _ _ => ?_
  split
  · exact .conflict
  · exact Runs.bind (.aside { World.Aside.refl d.world with } rfl) fun _ _ _ _ => .pure _

theorem Runs.refOperation (hh : host.Lawful) (heval : ∀ d e, c ≤ d → d.Runs (eval e))
    (h : refOperation? host eval k op = some act) : c.Runs act := by
  cases op with
  | current | debug =>
    obtain rfl := Option.some.inj h
    exact .look rfl
  | take =>
    obtain rfl := Option.some.inj h
    exact (Runs.replaceRef _).bind fun _ _ _ _ => .pure _
  | setCurrent e | attach e =>
    obtain rfl := Option.some.inj h
    exact (heval c e (le_refl c)).bind fun _ _ _ _ => (Runs.replaceRef _).bind fun _ _ _ _ => .pure _
  | borrow body =>
    obtain rfl := Option.some.inj h
    refine Runs.bind (.look rfl) fun x d _ _ => ?_
    refine Runs.bind (.aside { World.Aside.refl d.world with } rfl) fun _ d' _ _ => ?_
    refine (Runs.inside hh _ _).bind fun _ e _ _ => ?_
    exact Runs.bind (.aside { World.Aside.refl e.world with } rfl) fun _ _ _ _ => .pure _
  | _ => cases h

theorem Runs.probeOperation (h : probeOperation? k op = some act) : c.Runs act := by
  cases op with
  | declareDependencies entries =>
    obtain rfl := Option.some.inj h
    have hdeclared : c.Runs (declareProbe k entries) := by
      refine (Follows.dependencies entries).bind fun ds d _ hans => .get ?_
      obtain ⟨hd, hds⟩ := hans
      split
      · rename_i x hx
        refine Follows.bind (Runs.asideNeat { World.Aside.refl d.world with } fun hc => ?_)
          fun _ _ _ he => .pure (he.trans hd)
        refine hc.onProbes _ fun i y l hy hl => ?_
        obtain ⟨z, hz, rfl⟩ := Store.of_modify hy
        split at hl
        · cases hl
          exact .inl (hds.knows hc)
        · exact .inr ⟨i, z, hz, hl⟩
      · exact Follows.bind (Runs.giveUpDependencies hds) fun _ _ _ he => .pure (he.trans hd)
    exact Runs.bind hdeclared fun _ _ _ _ => .pure _
  | _ => cases h

theorem Follows.duplicate : c.Follows (duplicate handle) fun second d => d.frames = c.frames ∧
    ∀ h, second = some h → h = handle := by
  have hsome {a : Act Unit} (ha : c.Runs a) : c.Follows (do a; return some handle) fun second d =>
      d.frames = c.frames ∧ ∀ h, second = some h → h = handle :=
    Follows.bind ha fun _ _ _ hd => .pure ⟨hd, fun _ hh => (Option.some.inj hh).symm⟩
  cases handle with
  | signal s => exact hsome (.retain _)
  | signalPair s | state s => exact hsome ((Runs.retain _).bind fun _ _ _ _ => .retain _)
  | reducer s k =>
    have hboth : c.Runs (do
        Act.retain (.signal s)
        modify fun w => { w with
          dispatchers := w.dispatchers.modify k fun x => { x with owners := x.owners + 1 } }) := by
      refine (Runs.retain _).bind fun _ d _ _ => Runs.aside ?_ rfl
      refine { World.Aside.refl d.world with dispatchers := fun i y hy => ?_ }
      rw [Store.get?_modify] at hy
      split at hy
      · obtain ⟨x, hx, rfl⟩ := Option.map_eq_some_iff.1 hy
        exact ⟨x, hx, rfl, rfl⟩
      · exact ⟨y, hy, rfl, rfl⟩
    exact hsome hboth
  | memo m | callback m => exact hsome (.retain _)
  | context | ref => exact hsome (.pure ⟨⟩)
  | effect | hook | snapshot | probe => exact .pure ⟨rfl, fun h hh => by cases hh⟩

theorem Runs.clone (hh : host.Lawful) (name : String) (hf : c.history.Fits handle)
    (hr : c.history.Refers handle) : c.Runs (do
      match ← Act.duplicate handle with
      | some second =>
          Act.bind host name second
          return Value.boolean true
      | none => return .boolean false) := by
  refine Follows.duplicate.bind fun second d hle hans => ?_
  obtain ⟨hd, hsame⟩ := hans
  cases second with
  | none => exact .pure hd
  | some second =>
    obtain rfl := hsame second rfl
    exact Follows.bind (Runs.bindName hh name (fits_mono hle hf) fun hc => hc.grants (refers_mono hle hr))
      fun _ _ _ he => .pure (he.trans hd)

theorem Runs.operation (hh : host.Lawful) (heval : ∀ d e, c ≤ d → d.Runs (eval e))
    (hf : c.history.Fits handle) (hr : c.history.Refers handle)
    (h : operation? host eval handle op = some act) : c.Runs act := by
  -- Cloning is the same for every kind of handle; all else depends on the kind.
  unfold operation? at h
  split at h
  · obtain rfl := Option.some.inj h
    exact .clone hh _ hf hr
  cases handle with
  | signal s =>
    dsimp only at h
    split at h
    · obtain rfl := Option.some.inj h
      exact .borrowing fun _ _ _ => .inside hh _ _
    · exact .signalOperation hh heval hf h
  | signalPair s => exact .signalOperation hh heval hf h
  | state s =>
    dsimp only at h
    split at h
    · obtain rfl := Option.some.inj h
      exact (heval c _ (le_refl c)).bind fun v d hd _ =>
        .quietly (.write (made_mono hd hf) (.set v) fun _ _ _ => .pure _)
    · rename_i body _
      obtain rfl := Option.some.inj h
      obtain ⟨n, rfl⟩ := hh.tower
      exact .quietly (.write hf (.update n body) fun _ d _ => hh.call d _ _)
    · obtain rfl := Option.some.inj h
      exact .look rfl
    · exact .stateOperation hh h
  | reducer s k =>
    dsimp only at h
    split at h
    · obtain rfl := Option.some.inj h
      exact (heval c _ (le_refl c)).bind fun v d hd _ => .quietly (.dispatch hh _ _)
    · exact .stateOperation hh h
  | memo m => exact .memoOperation hh h
  | callback m => exact .callbackOperation hh heval h
  | effect e => exact .effectOperation h
  | hook k => exact .hookOperation hh h
  | context k v => exact .contextOperation hh heval h
  | snapshot providers => exact .snapshotOperation heval h
  | ref r => exact .refOperation hh heval h
  | probe p => exact .probeOperation h

theorem Runs.operate (hh : host.Lawful) (heval : ∀ d e, c ≤ d → d.Runs (eval e))
    (name word : String) (op : Operation) : c.Runs (operate host eval name word op) := by
  have hunknown (line : String) : c.Runs (do Act.log line; return Value.null) :=
    (Runs.log line).bind fun _ _ _ _ => .pure _
  refine Follows.of_run_eq (World.run_bind_ok (v := do
    let number ← c.world.names.lookup name
    let held ← c.world.handles.get? number
    return (number, held.handle)) rfl _) ?_
  cases hn : c.world.names.lookup name with
  | none => exact hunknown _
  | some number =>
    cases hx : c.world.handles.get? number with
    | none =>
      simp only [hx, Option.bind_eq_bind, Option.bind_some, Option.bind_none]
      exact hunknown _
    | some x =>
      simp only [hx, Option.bind_eq_bind, Option.bind_some, Option.pure_def]
      cases hop : operation? host eval x.handle op with
      | none => exact hunknown _
      | some act =>
        refine (Runs.hold number).bind fun _ d hd _ => ?_
        refine (Runs.operation hh (fun e a he => heval e a (hd.trans he))
          (fits_mono hd (handles_fit hx)) (refers_mono hd (refers_of_handle hx)) hop).bind
            fun v _ _ _ => ?_
        exact (Runs.letGo hh number).bind fun _ _ _ _ => .pure v

/-! ### Expressions -/

theorem Runs.fresh : c.Runs fresh :=
  Follows.step (.aside { c.world with next := c.world.next + 1 })
    { World.Aside.refl c.world with next := Nat.le_succ _ } rfl (b := return c.world.next) rfl (.pure rfl)

theorem Follows.create (hh : host.Lawful) (heval : ∀ d e, c ≤ d → d.Runs (eval e))
    (name : String) (made : Creation) :
    c.Follows (create host eval name made) fun h d =>
      d.frames = c.frames ∧ d.history.Fits h ∧ d.history.Grants h := by
  have heval' (e : Expr) : c.Runs (eval e) := heval c e (le_refl c)
  -- Whatever is made, the code that makes it follows the steps up to there, and then makes one
  -- more.
  cases made with
  | signal e =>
    refine Follows.bind (heval' e) fun v d _ hd => (Follows.newSignal .plain v 1).bind ?_
    exact fun s e _ hans => .pure ⟨hans.1.trans hd, hans.2, trivial⟩
  | signalPair e =>
    refine Follows.bind (heval' e) fun v d _ hd => (Follows.newSignal .plain v 2).bind ?_
    exact fun s e _ hans => .pure ⟨hans.1.trans hd, hans.2, trivial⟩
  | state e =>
    refine Follows.bind (heval' e) fun v d _ hd => (Follows.newSignal .state v 2).bind ?_
    exact fun s e _ hans => .pure ⟨hans.1.trans hd, hans.2, trivial⟩
  | reducer e reduce =>
    refine Follows.bind (heval' e) fun v d _ hd => (Follows.newReducer v reduce).bind ?_
    exact fun p e _ hans => .pure ⟨hans.1.trans hd, hans.2, trivial⟩
  | reducerFrom seed init reduce =>
    refine Follows.bind (heval' seed) fun v d _ hd => Follows.bind (hh.call d init [v]) fun u d' _ hd' => ?_
    refine (Follows.newReducer u reduce).bind fun p e _ hans => .pure ⟨?_, hans.2, trivial⟩
    exact hans.1.trans (hd'.trans hd)
  | effect timing body =>
    refine (Follows.newEffect hh timing body).mono fun h d _ hans => ?_
    obtain ⟨hd, rfl⟩ := hans
    exact ⟨hd, trivial, trivial⟩
  | context e =>
    refine Follows.bind (heval' e) fun v d _ hd => ?_
    refine Follows.bind (Runs.fresh) fun k e _ he => .pure ⟨he.trans hd, trivial, trivial⟩
  | snapshot => exact Follows.of_run rfl ⟨rfl, trivial, trivial⟩
  | memo entries compute =>
    refine (Follows.dependencies entries).bind fun ds d _ hd => ?_
    refine (Follows.newMemo hh _ fun hc => hd.2.knows hc).bind fun m e _ he => .pure ?_
    exact ⟨he.1.trans hd.1, trivial, he.2⟩
  | callback entries body =>
    refine (Follows.dependencies entries).bind fun ds d _ hd => ?_
    refine (Follows.newMemo hh _ fun hc => hd.2.knows hc).bind fun m e _ he => .pure ?_
    exact ⟨he.1.trans hd.1, trivial, he.2⟩
  | hook phase entries body cleanup =>
    have hnew (d : Course) (ds : Option (List Dependency)) (hd : d.frames = c.frames)
        (hds : ∀ l, ds = some l → d.Cites l) :
        d.Follows (do return Handle.hook (← newHook host phase body cleanup ds)) fun h e =>
          e.frames = c.frames ∧ e.history.Fits h ∧ e.history.Grants h :=
      Follows.bind (Runs.newHook phase body cleanup fun hc l hl => (hds l hl).knows hc)
        fun k e _ he => .pure ⟨he.trans hd, trivial, trivial⟩
    cases entries with
    | none => exact hnew c none rfl nofun
    | some entries =>
      refine (Follows.dependencies entries).bind fun ds d _ hd => hnew d (some ds) hd.1 ?_
      rintro _ ⟨⟩
      exact hd.2
  | ref e =>
    refine Follows.bind (heval' e) fun v d _ hd => Follows.bind Runs.fresh fun k d' _ hd' => ?_
    refine Follows.bind (Runs.aside ?_ rfl) fun _ e _ he => .pure ⟨he.trans (hd'.trans hd), trivial, trivial⟩
    exact { World.Aside.refl d'.world with }
  | probe key =>
    refine Follows.bind Runs.fresh fun k d _ hd => ?_
    refine Follows.bind (Runs.asideNeat { World.Aside.refl d.world with } fun hc => ?_) fun _ e _ he =>
      .pure ⟨he.trans hd, trivial, trivial⟩
    refine hc.onProbes _ fun i y l hy hl => ?_
    rcases Store.of_put hy with ⟨-, rfl⟩ | hy
    · cases hl
    · exact .inr ⟨i, y, hy, hl⟩

theorem Runs.mapM {β : Type} {f : α → Act β} {l : List α} (h : ∀ d a, c ≤ d → d.Runs (f a)) :
    c.Runs (l.mapM f) := by
  induction l generalizing c with
  | nil => exact .pure _
  | cons a rest ih =>
    rw [List.mapM_cons]
    exact (h c a (le_refl c)).bind fun b d hd _ =>
      (ih fun e a he => h e a (hd.trans he)).bind fun _ _ _ _ => .pure _

theorem Runs.evalStep (hh : host.Lawful) (arguments : List Value) (e : Expr) :
    c.Runs (evalStep host arguments e) := by
  have heval (d : Course) (e : Expr) : d.Runs (host.call e arguments) := hh.call d e arguments
  -- One case for each form of code; those that have parts run them one after another from where the
  -- last one ended.
  cases e with
  | value v => exact .pure _
  | argument index => exact .pure _
  | sequence all => exact Runs.bind (.mapM fun d e _ => heval d e) fun _ _ _ _ => .pure _
  | list items => exact Runs.bind (.mapM fun d e _ => heval d e) fun _ _ _ _ => .pure _
  | concat parts => exact Runs.bind (.mapM fun d e _ => heval d e) fun _ _ _ _ => .pure _
  | log parts =>
    exact Runs.bind (.mapM fun d e _ => heval d e) fun _ _ _ _ =>
      (Runs.log _).bind fun _ _ _ _ => .pure _
  | arithmetic op a b | equal a b | less a b =>
    exact (heval c a).bind fun _ d _ _ => (heval d b).bind fun _ _ _ _ => .pure _
  | branch test yes no =>
    refine (heval c test).bind fun v d _ _ => ?_
    split
    · exact heval d yes
    · exact heval d no
  | create name made =>
    refine Follows.bind (Follows.create hh (fun d e _ => heval d e) name made) fun h d _ hans => ?_
    exact Follows.bind (Runs.bindName hh name hans.2.1 fun _ => hans.2.2) fun _ _ _ he =>
      .pure (he.trans hans.1)
  | drop name => exact (Runs.dropName hh name).bind fun _ _ _ _ => .pure _
  | untrack e => exact .untracked fun d _ => heval d e
  | queue body => exact .quietly (.step (.queued body) trivial trivial rfl rfl)
  | drain => exact (Runs.drain hh).bind fun _ _ _ _ => .pure _
  | pendingTasks | observing => exact .look rfl
  | trackAll entries =>
    refine (Follows.dependencies entries).bind fun ds d _ hds => ?_
    refine Follows.bind (Runs.trackAll ds) fun _ e hle he => ?_
    refine Follows.bind (Runs.giveUpDependencies (hds.2.mono hle)) fun _ _ _ hf => .pure ?_
    exact hf.trans (he.trans hds.1)
  | compare a b =>
    refine (Follows.dependency a).bind fun x d₁ _ hx => ?_
    refine (Follows.dependency b).bind fun y d₂ hle₂ hy => ?_
    refine Follows.bind (Runs.compareDependencies x y) fun v d₃ hle₃ h₃ => ?_
    have hxy : d₃.Cites [x, y] := by
      intro m hm
      rcases List.mem_cons.1 hm with rfl | hm
      · exact hx.2.mono (hle₂.trans hle₃) _ List.mem_cons_self
      · exact hy.2.mono hle₃ _ hm
    refine Follows.bind (Runs.giveUpDependencies hxy) fun _ _ _ h₄ => .pure ?_
    exact h₄.trans (h₃.trans (hy.1.trans hx.1))
  | on name word op => exact .operate hh (fun d e _ => heval d e) name word op

/-- Programs follow every course, however deep evaluations may be nested. -/
theorem lawful_ofDepth (n : Nat) : (Host.ofDepth n).Lawful := by
  refine ⟨⟨n, rfl⟩, ?_⟩
  induction n with
  | zero => exact fun _ _ _ => .exhausted
  | succ n ih => exact fun _ e arguments => .evalStep ⟨⟨n, rfl⟩, ih⟩ arguments e

end Course

/-! ### Programs -/

namespace Program

/-- Evaluate the expressions of a program in turn, each with a log of its own. -/
def perform (host : Host) : List Expr → Act Unit
  | [] => return
  | e :: rest => do
      modify fun w => { w with log := [] }
      let _ ← host.call e []
      perform host rest

end Program

namespace Course

variable {c d : Course} {host : Host} {program : List Expr}

/-- A course of a run of a program: it passes through the worlds between the expressions, and ends
where the program ends or stops short. -/
structure Of (d : Course) (host : Host) (program : List Expr) : Prop where
  world : (World.empty.run (Program.perform host program)).2 = d.world
  stages : ∀ first, first <+: program →
    ∃ c ≤ d, (World.empty.run (Program.perform host first)).2 = c.world

theorem exists_stages (hh : host.Lawful) (program : List Expr) : ∀ c : Course, ∃ d, c ≤ d ∧
    (c.Settled → c.Keeps d) ∧
    (c.world.run (Program.perform host program)).2 = d.world ∧
    ∀ first, first <+: program →
      ∃ e, c ≤ e ∧ e ≤ d ∧ (c.world.run (Program.perform host first)).2 = e.world := by
  induction program with
  | nil =>
    intro c
    refine ⟨c, le_refl c, fun _ => .refl c, rfl, fun first hfirst => ⟨c, le_refl c, le_refl c, ?_⟩⟩
    rw [List.prefix_nil.1 hfirst]
    rfl
  | cons e rest ih =>
    intro c
    have hone : c.Runs (do modify fun w => { w with log := [] }; host.call e []) :=
      Runs.bind (.aside { World.Aside.refl c.world with } rfl) fun _ d _ _ => hh.call d e []
    -- The first expression may stop short; then the program is over, whatever would have come next.
    obtain ⟨d, hle, hd, hw, hans⟩ := hone
    have hrun (more : List Expr) : c.world.run (Program.perform host (e :: more)) =
        c.world.run ((do modify fun w => { w with log := [] }; host.call e []) >>=
          fun _ => Program.perform host more) := by
      simp [Program.perform]
    rcases hr : c.world.run (do modify fun w => { w with log := [] }; host.call e []) with
      ⟨x | v, w⟩ <;> rw [hr] at hw hans <;> obtain rfl : w = d.world := hw
    · have hstop (more : List Expr) :
          (c.world.run (Program.perform host (e :: more))).2 = d.world := by
        rw [hrun, World.run_bind, hr]
      refine ⟨d, hle, hd, hstop rest, fun first hfirst => ?_⟩
      cases first with
      | nil => exact ⟨c, le_refl c, hle, rfl⟩
      | cons e' more =>
        obtain rfl := (List.cons_prefix_cons.1 hfirst).1
        exact ⟨d, hle, le_refl d, hstop more⟩
    · obtain ⟨u, hle', hu, hw', hstages⟩ := ih d
      have hgo (more : List Expr) : (c.world.run (Program.perform host (e :: more))).2 =
          (d.world.run (Program.perform host more)).2 := by
        rw [hrun, World.run_bind, hr]
      refine ⟨u, hle.trans hle', fun hs => (hd hs).trans (hu ((hans v rfl).1 hs)),
        (hgo rest).trans hw', fun first hfirst => ?_⟩
      cases first with
      | nil => exact ⟨c, le_refl c, hle.trans hle', rfl⟩
      | cons e' more =>
        obtain ⟨rfl, hmore⟩ := List.cons_prefix_cons.1 hfirst
        obtain ⟨x, hx, hx', hwx⟩ := hstages more hmore
        exact ⟨x, hle.trans hx, hx', (hgo more).trans hwx⟩

/-- Whatever a program does is a punctual course, in which the steps of memos stand in their places. -/
theorem exists_faithful (n : Nat) (program : List Expr) :
    ∃ d : Course, d.Of (.ofDepth n) program ∧ d.Punctual ∧ d.Faithful := by
  obtain ⟨d, -, hd, hw, hstages⟩ := exists_stages (lawful_ofDepth n) program start
  have hkeeps := hd settled_start
  refine ⟨d, ⟨hw, fun first hfirst => ?_⟩, hkeeps.punctual punctual_start, (hkeeps.neat neat_start).faithful⟩
  obtain ⟨c, -, hle, hc⟩ := hstages first hfirst
  exact ⟨c, hle, hc⟩

theorem exists_punctual (n : Nat) (program : List Expr) :
    ∃ d : Course, d.Of (.ofDepth n) program ∧ d.Punctual := by
  obtain ⟨d, hd, hpunctual, -⟩ := exists_faithful n program
  exact ⟨d, hd, hpunctual⟩

theorem exists_of (n : Nat) (program : List Expr) : ∃ d : Course, d.Of (.ofDepth n) program := by
  obtain ⟨d, hd, -⟩ := exists_punctual n program
  exact ⟨d, hd⟩

end Course

end FineGrain
