import FineGrain.Proofs.Memo.Tidy
/-!
The creation of a memo and the commit of a state keep a family of memos tidy.
-/

namespace FineGrain

open Act

namespace World

variable {host : Host} {w w' : World} {members : List Member} {m : Member} {l : List Nat}
  {s : Nat}

/-- A world in which a memo has been created but has not run. -/
def declaring (w : World) (factory : Factory) (dependencies : List Dependency) : World :=
  { w with
    memos := w.memos.put w.next ⟨factory, none, false, dependencies, w.next + 1, 1, 0⟩
    effects := w.effects.put (w.next + 1) ⟨.memo w.next, .render, w.providers, false⟩
    next := w.next + 2 }

theorem Idle.declaring {factory : Factory} {ds : List Dependency} (hi : w.Idle) :
    (w.declaring factory ds).Idle := by
  refine ⟨hi.calm, hi.probes, hi.sound, fun p hp => ?_, hi.observers⟩
  rcases Store.mem_put hp with rfl | hp
  · rfl
  · exact hi.rest p hp

/-- A world in which the creation of a memo is over. -/
def binding (w : World) (k : Nat) : World :=
  { w with memos := w.memos.modify k fun x => { x with bound := true } }

theorem run_newMemo {body : Body} (hm : m.memo = w.next) (he : m.effect = w.next + 1)
    (hidle : (w.declaring (.compute body) m.dependencies).Idle)
    (hholds : (w.declaring (.compute body) m.dependencies).Holds host m) :
    w.run (newMemo host (.compute body) m.dependencies) =
      (.ok w.next, ((w.declaring (.compute body) m.dependencies).rerun m).binding m.memo) := by
  have hrun := run_rerun hidle hholds
  rw [he] at hrun
  let first := Cached.value (m.reads.eval (w.declaring (.compute body) m.dependencies).look)
  obtain ⟨x, hcache⟩ : ∃ x : Memo, ((w.declaring (.compute body) m.dependencies).rerun m).memos.get? w.next =
      some { x with cache := some first } := by
    refine ⟨⟨.compute body, none, false, m.dependencies, w.next + 1, 1, 0⟩, ?_⟩
    simp [rerun, hm, Store.get?_modify, declaring, Store.get?_put, first]
  simp only [newMemo, newEffect, run_bind, run_fresh, run_modify, run_pure]
  rw [show ({ w with
      memos := w.memos.put w.next ⟨.compute body, none, false, m.dependencies, w.next + 1, 1, 0⟩
      effects := w.effects.put (w.next + 1) ⟨.memo w.next, .render, w.providers, false⟩
      next := w.next + 1 + 1 } : World) = w.declaring (.compute body) m.dependencies from rfl, hrun]
  simp only [bindMemo, memo, run_bind, run_get, run_pure, hcache, Option.getD_some, modifyMemo,
    run_modify]
  simp [binding, rerun, hm, Store.modify_modify, Function.comp_def, first]

theorem Tidy.declaring {body : Body} (h : Tidy host w members l) (hm : m.memo = w.next)
    (he : m.effect = w.next + 1) (hc : w.Closed members m)
    (hact : ReadsAs w.scope m.lines m.reads (host.call body [])) :
    let u := w.declaring (.compute body) m.dependencies
    u.Idle ∧ u.Family host (m :: members) ∧ u.Current w.committed members ∧
      u.Covered (m :: members) := by
  intro u
  have hmemo (k : Nat) : u.memos.get? k = if k = w.next then
      some ⟨.compute body, none, false, m.dependencies, w.next + 1, 1, 0⟩ else w.memos.get? k :=
    Store.get?_put ..
  have heffect (e : NodeId) : u.effects.get? e = if e = w.next + 1 then
      some ⟨.memo w.next, .render, w.providers, false⟩ else w.effects.get? e :=
    Store.get?_put ..
  -- The new entries have numbers that were unused, so all members are as they were.
  have hkept : w.Kept u := by
    refine ⟨fun k x hx => ?_, fun e x hx => ?_, fun _ ht => ht⟩
    · have hne : k ≠ w.next := by
        rintro rfl
        simp [(h.unused w.next (Nat.le_refl _)).2.1] at hx
      exact ⟨x.owners, x.bound, by simp [hmemo, hne, hx]⟩
    · have hne : e ≠ w.next + 1 := by
        rintro rfl
        simp [(h.unused (w.next + 1) (by omega)).2.2] at hx
      simp [heffect, hne, hx]
  have hlt : ∀ k ∈ members, k.memo < m.memo ∧ k.effect < m.effect := by
    intro k hk
    obtain ⟨⟨x, _, hx, _⟩, y, hy, _⟩ := h.family.holds hk
    constructor
    · rw [hm]
      refine Nat.lt_of_not_le fun hle => ?_
      simp [(h.unused k.memo hle).2.1] at hx
    · rw [he]
      refine Nat.lt_of_not_le fun hle => ?_
      simp [(h.unused k.effect (by omega)).2.2] at hy
  have hholds : u.Holds host m :=
    ⟨⟨_, body, by rw [hmemo, if_pos hm], rfl, rfl, rfl, hact⟩,
      _, by rw [heffect, if_pos he], by rw [hm], rfl⟩
  refine ⟨h.idle.declaring, .cons hholds (hc.kept hkept) hlt (h.family.kept hkept h.family.renamed),
    h.current.kept h.family hkept fun _ _ _ => Iff.rfl, fun e x hx => ?_⟩
  rcases Store.of_put hx with ⟨hnew, -⟩ | hx
  · exact ⟨m, List.mem_cons_self, he.trans hnew.symm⟩
  · obtain ⟨k, hk, rfl⟩ := h.covered e x hx
    exact ⟨k, List.mem_cons_of_mem _ hk, rfl⟩

theorem Tidy.memo {body : Body} (h : Tidy host w members l) (hm : m.memo = w.next)
    (he : m.effect = w.next + 1) (hc : w.Closed members m)
    (hact : ReadsAs w.scope m.lines m.reads (host.call body [])) :
    Tidy host (w.run (newMemo host (.compute body) m.dependencies)).2 (m :: members) l := by
  obtain ⟨hidle, hfamily, hcurrent, hcovered⟩ := h.declaring hm he hc hact
  cases hfamily with
  | cons hholds hclosed hlt hfamily =>
    rw [run_newMemo hm he hidle hholds]
    -- The new memo is declared, then computed once, then bound; the system with it is tidy from the
    -- computation on.
    let u := w.declaring (.compute body) m.dependencies
    have hfresh := Fresh.of_rerun hidle hfamily hholds hclosed hcurrent
    have hfamily' := (Family.cons hholds hclosed hlt hfamily).rerun m
    have hcurrent' : (u.rerun m).Current w.committed (m :: members) :=
      ⟨hcurrent.rerun hidle.sound hholds hlt, hfresh⟩
    have hidle' := hidle.rerun m
    have hget (k : Nat) : ((u.rerun m).binding m.memo).memos.get? k = if k = m.memo then
        ((u.rerun m).memos.get? k).map fun x => { x with bound := true }
          else (u.rerun m).memos.get? k := Store.get?_modify ..
    have hkept : (u.rerun m).Kept ((u.rerun m).binding m.memo) := by
      refine ⟨fun k x hx => ?_, fun _ _ he => he, fun _ ht => ht⟩
      by_cases hk : k = m.memo
      · subst hk
        exact ⟨x.owners, true, by simp [hget, hx]⟩
      · exact ⟨x.owners, x.bound, by simp [hget, hk, hx]⟩
    refine ⟨⟨hidle'.calm, hidle'.probes, hidle'.sound, hidle'.rest, hidle'.observers⟩,
      hfamily'.kept hkept hfamily'.renamed, hcurrent'.kept hfamily' hkept fun _ _ _ => Iff.rfl,
      hcovered, ⟨h.queued.nodup, h.queued.dirty, h.queued.steady⟩, h.tasks, fun k hk => ?_⟩
    have hk' : w.next + 2 ≤ k := hk
    obtain ⟨hs, hmemo, heffect⟩ := h.unused k (by omega)
    refine ⟨hs, ?_, ?_⟩
    · have hne : k ≠ w.next := by omega
      rw [hget, hm, if_neg hne]
      simp [u, rerun, World.declaring, hm, Store.get?_modify, Store.get?_put, hne, hmemo]
    · have hne : k ≠ w.next + 1 := by omega
      simp [rerun, binding, World.declaring, Store.get?_put, hne, heffect]

section Committing

variable {x : Signal} {v : Value} {σ : Nat → Value}

theorem committed_committing (hx : w.signals.get? s = some x) (t : Nat) :
    (w.committing s v).committed t = if t = s then v else w.committed t := by
  simp only [World.committed, get?_committing]
  split
  · rename_i ht
    simp [ht, hx]
  · rfl

theorem Idle.committing (hi : w.Idle) : (w.committing s v).Idle :=
  ⟨hi.calm.committing s v, hi.probes, hi.sound, hi.rest, hi.observers⟩

theorem kept_committing : w.Kept (w.committing s v) := by
  refine .of_eq rfl rfl fun t ht => ?_
  rw [get?_committing]
  split
  · rwa [Option.isSome_map]
  · exact ht

theorem Family.committing (hf : w.Family host members) : (w.committing s v).Family host members :=
  hf.kept kept_committing hf.renamed

theorem Current.committing (hf : w.Family host members) (hc : w.Current σ members) :
    (w.committing s v).Current σ members :=
  hc.kept hf kept_committing fun _ _ _ => Iff.rfl

/-- The world in which a value has been written and the memos that depend on it have run. -/
def spreading (w : World) (members : List Member) (s : Nat) (v : Value) : World :=
  (w.committing s v).reruns (w.affected s members).reverse

theorem signals_spreading : (w.spreading members s v).signals = (w.committing s v).signals :=
  signals_reruns _

theorem Family.run_spreading (hf : w.Family host members) (hi : w.Idle) (hcovered : w.Covered members)
    (hc : w.Current w.committed members) (hx : w.signals.get? s = some x) :
    (w.committing s v).run (notify host s) = (.ok ⟨⟩, w.spreading members s v) ∧
      (w.spreading members s v).Current (w.committing s v).committed members := by
  have hf' : (w.committing s v).Family host members := hf.committing
  obtain ⟨hrun, hcurrent⟩ := hf'.refresh hi.committing (hc.committing hf) (s := s)
    fun t ht => by rw [committed_committing hx, if_neg ht]
  exact ⟨(hf'.run_notify hi.committing hcovered s).trans hrun, hcurrent⟩

/-- The world in which a commit is over. -/
def settling (w : World) (members : List Member) (s : Nat) (x : Signal) (v : Value) : World :=
  { w.spreading members s v with
    signals := (w.spreading members s v).signals.put s (x.released v) }

theorem get?_settling (t : Nat) : (w.settling members s x v).signals.get? t =
    if t = s then some (x.released v) else w.signals.get? t :=
  get?_committed signals_spreading t

theorem committed_settling (t : Nat) :
    (w.settling members s x v).committed t = if t = s then v else w.committed t := by
  simp only [World.committed, get?_settling]
  split <;> rfl

theorem effects_settling : (w.settling members s x v).effects = w.effects :=
  effects_reruns (w := w.committing s v) _

theorem next_settling : (w.settling members s x v).next = w.next :=
  next_reruns (w := w.committing s v) _

theorem kept_settling : (w.spreading members s v).Kept (w.settling members s x v) := by
  refine .of_eq rfl rfl fun t ht => ?_
  rw [get?_settling]
  split
  · rfl
  · rename_i hne
    rwa [signals_spreading, get?_committing, if_neg hne] at ht

theorem Idle.settling (hi : w.Idle) (hcalm : (w.settling members s x v).Calm) :
    (w.settling members s x v).Idle :=
  have hi' : (w.spreading members s v).Idle := hi.committing.reruns _
  ⟨hcalm, hi'.probes, hi'.sound, hi'.rest, hi'.observers⟩

theorem Family.settling (hf : w.Family host members) :
    (w.settling members s x v).Family host members :=
  have hf' : (w.spreading members s v).Family host members := hf.committing.reruns _
  hf'.kept kept_settling hf'.renamed

theorem Current.settling (hf : w.Family host members) (hx : w.signals.get? s = some x)
    (hc : (w.spreading members s v).Current (w.committing s v).committed members) :
    (w.settling members s x v).Current (w.settling members s x v).committed members := by
  have hvalues : (w.settling members s x v).committed = (w.committing s v).committed := by
    funext t
    rw [committed_settling, committed_committing hx]
  have hf' : (w.spreading members s v).Family host members := hf.committing.reruns _
  rw [hvalues]
  exact hc.kept hf' kept_settling fun _ _ _ => Iff.rfl

theorem Covered.settling (hc : w.Covered members) : (w.settling members s x v).Covered members := by
  intro e y hy
  rw [effects_settling] at hy
  exact hc e y hy

theorem unused_settling (hx : w.signals.get? s = some x) (hunused : ∀ k, w.next ≤ k →
    w.signals.get? k = none ∧ w.memos.get? k = none ∧ w.effects.get? k = none) (k : Nat)
    (hk : (w.settling members s x v).next ≤ k) : (w.settling members s x v).signals.get? k = none ∧
      (w.settling members s x v).memos.get? k = none ∧
      (w.settling members s x v).effects.get? k = none := by
  rw [next_settling] at hk
  obtain ⟨hsignal, hmemo, heffect⟩ := hunused k hk
  have hne : k ≠ s := by
    rintro rfl
    simp [hsignal] at hx
  refine ⟨?_, memos_reruns_eq_none (w := w.committing s v) hmemo _, ?_⟩
  · rw [get?_settling, if_neg hne, hsignal]
  · rw [effects_settling, heffect]

end Committing

/-- What a commit does to a system. -/
structure Spread (w w' : World) (members : List Member) (s : Nat) (v : Value) : Prop where
  committed : ∀ t, w'.committed t = if t = s then v else w.committed t
  log : w'.log = w.log ++ (w.affected s members).reverse.flatMap (·.lines)

theorem Tidy.commit (h : Tidy host w members (s :: l)) :
    ∃ x v w', w.signals.get? s = some x ∧ x.cache = some v ∧
      { w with tasks := l.map .commit }.run (commit host s) = (.ok ⟨⟩, w') ∧
      Tidy host w' members l ∧ w.Spread w' members s v := by
  obtain ⟨x, v, hx, hv, -, -⟩ := h.queued.head
  let u : World := { w with tasks := l.map .commit }
  have hkept : w.Kept u := .of_eq rfl rfl fun _ => id
  have hidle : u.Idle := ⟨h.idle.calm, h.idle.probes, h.idle.sound, h.idle.rest, h.idle.observers⟩
  have hfamily : u.Family host members := h.family.kept hkept h.family.renamed
  have hcurrent : u.Current u.committed members := h.current.kept h.family hkept fun _ _ _ => Iff.rfl
  have hqueued : u.Queued (s :: l) := ⟨h.queued.nodup, h.queued.dirty, h.queued.steady⟩
  obtain ⟨hnotify, hafter⟩ := hfamily.run_spreading hidle h.covered hcurrent hx (v := v)
  have hqueued' : (u.settling members s x v).Queued l := hqueued.tail hx get?_settling
  exact ⟨x, v, u.settling members s x v, hx, hv, hqueued.run_commit hx hv hnotify signals_spreading,
    ⟨hidle.settling hqueued'.calm, hfamily.settling, hafter.settling hfamily hx, Covered.settling h.covered,
      hqueued', tasks_reruns (w := u.committing s v) _, unused_settling hx h.unused⟩,
    committed_settling, log_reruns _⟩

end World

end FineGrain
