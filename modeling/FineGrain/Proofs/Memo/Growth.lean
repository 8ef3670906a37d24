import FineGrain.Proofs.Memo.Refresh
/-!
Growing worlds. A world may gain states, memos and owners; what a family has stays as it is, and so do
the values of its members.
-/

namespace FineGrain

open Act

namespace Store

variable {α : Type}

theorem mem_put {s : Store α} {key : Nat} {a : α} {p : Nat × α}
    (h : p ∈ (s.put key a).entries) : p = (key, a) ∨ p ∈ s.entries := by
  obtain ⟨entries⟩ := s
  induction entries with
  | nil => simpa [put, putEntry] using h
  | cons e rest ih =>
    obtain ⟨k, b⟩ := e
    by_cases hk : k = key
    · simp only [put, putEntry, hk, if_true, List.mem_cons] at h ⊢
      exact h.imp_right .inr
    · simp only [put, putEntry, hk, if_false, List.mem_cons] at h ⊢
      rcases h with h | h
      · exact .inr (.inl h)
      · exact (ih h).imp_right .inr

end Store

namespace World

variable {host : Host} {w w' : World} {members older : List Member} {m : Member}
  {σ σ' : Nat → Value} {s : Nat}

/-- What is in a world is still there, though memos may have other owners. -/
structure Kept (w w' : World) : Prop where
  memos : ∀ k x, w.memos.get? k = some x →
    ∃ owners bound, w'.memos.get? k = some { x with owners := owners, bound := bound }
  effects : ∀ e x, w.effects.get? e = some x → w'.effects.get? e = some x
  signals : ∀ s, (w.signals.get? s).isSome → (w'.signals.get? s).isSome

theorem Kept.of_eq (hm : w'.memos = w.memos) (he : w'.effects = w.effects)
    (hs : ∀ s, (w.signals.get? s).isSome → (w'.signals.get? s).isSome) : w.Kept w' :=
  ⟨fun _ x hx => ⟨x.owners, x.bound, hm ▸ hx⟩, fun _ _ hx => he ▸ hx, hs⟩

/-- Under new names, the factories of a family do what they did. -/
def Renamed (host : Host) (w : World) (members : List Member)
    (scope : List (String × Nat) × Store Held) : Prop :=
  ∀ m ∈ members, ∀ x body, w.memos.get? m.memo = some x → x.factory = .compute body →
    ReadsAs scope m.lines m.reads (host.call body [])

theorem Family.renamed (hf : w.Family host members) : w.Renamed host members w.scope := by
  intro m hm x body hx hbody
  obtain ⟨y, body', hy, hbody', _, _, hact⟩ := (hf.holds hm).memo
  obtain rfl : x = y := by simpa [hx] using hy
  obtain rfl : body = body' := by simpa [hbody] using hbody'
  exact hact

theorem Closed.kept (h : w.Closed older m) (hk : w.Kept w') : w'.Closed older m := by
  refine ⟨h.listed, fun d hd => ?_⟩
  have hn := h.names d hd
  cases d with
  | state t => exact hk.signals t hn
  | plain v => trivial
  | memo k => exact hn
  | probe p => exact hn

theorem Holds.kept (h : w.Holds host m) (hk : w.Kept w')
    (hr : w.Renamed host [m] w'.scope) : w'.Holds host m := by
  obtain ⟨⟨x, body, hx, hfactory, hd, hreaders, _⟩, y, hy, hcomp, htiming⟩ := h
  obtain ⟨owners, bound, hx'⟩ := hk.memos _ _ hx
  exact ⟨⟨_, body, hx', hfactory, hd, hreaders, hr m (by simp) x body hx hfactory⟩,
    y, hk.effects _ _ hy, hcomp, htiming⟩

theorem Family.kept (hf : w.Family host members) (hk : w.Kept w')
    (hr : w.Renamed host members w'.scope) : w'.Family host members := by
  induction hf with
  | nil => exact .nil
  | cons hm hc hlt _ ih =>
    refine .cons (hm.kept hk fun j hj => hr j ?_) (hc.kept hk) hlt (ih fun j hj => hr j ?_)
    · simp_all
    · simp_all

theorem Names.mono {d : Dependency} (h : w.Names older d) (hsub : ∀ k ∈ older, k ∈ members) :
    w.Names members d := by
  cases d with
  | memo k =>
    obtain ⟨j, hj, rfl⟩ := h
    exact ⟨j, hsub j hj, rfl⟩
  | _ => exact h

theorem Family.names (hf : w.Family host members) (hm : m ∈ members) :
    ∀ d ∈ m.dependencies, w.Names members d := by
  induction hf with
  | nil => simp at hm
  | @cons k older _ hc _ _ ih =>
    intro d hd
    rcases List.mem_cons.1 hm with rfl | hm
    · exact (hc.names d hd).mono (by simp +contextual)
    · exact (ih hm d hd).mono (by simp +contextual)

theorem Family.isSome_of_reaches (hf : w.Family host members) {ds : List Dependency}
    (hd : ∀ d ∈ ds, w.Names members d) (h : w.Reaches ds s) : (w.signals.get? s).isSome := by
  induction h with
  | state hs => exact hd _ hs
  | memo hm _ ih =>
    obtain ⟨j, hj, rfl⟩ := hd _ hm
    rw [(hf.holds hj).declared] at ih
    exact ih (hf.names hj)

theorem Holds.declared_kept (h : w.Holds host m) (hk : w.Kept w') :
    w'.declared (.memo m.memo) = m.dependencies := by
  obtain ⟨x, _, hx, _, hd, _⟩ := h.memo
  obtain ⟨owners, bound, hx'⟩ := hk.memos _ _ hx
  simp [World.declared, hx', hd]

theorem Family.reaches_kept (hf : w.Family host members) (hk : w.Kept w')
    {ds : List Dependency} (hd : ∀ d ∈ ds, w.Names members d) :
    w'.Reaches ds s ↔ w.Reaches ds s := by
  constructor
  · intro h
    induction h with
    | state hs => exact .state hs
    | memo hm _ ih =>
      obtain ⟨j, hj, rfl⟩ := hd _ hm
      rw [(hf.holds hj).declared_kept hk] at ih
      exact .memo hm ((hf.holds hj).declared ▸ ih (hf.names hj))
  · intro h
    induction h with
    | state hs => exact .state hs
    | memo hm _ ih =>
      obtain ⟨j, hj, rfl⟩ := hd _ hm
      rw [(hf.holds hj).declared] at ih
      exact .memo hm ((hf.holds hj).declared_kept hk ▸ ih (hf.names hj))

theorem Family.feeds_kept (hf : w.Family host members) (hk : w.Kept w') {source : Source}
    (hn : w.Names members source.entry) : w'.Feeds source s ↔ w.Feeds source s := by
  cases source with
  | state t => exact Iff.rfl
  | memo k =>
    obtain ⟨j, hj, rfl⟩ := hn
    rw [Feeds, Feeds, (hf.holds hj).declared_kept hk, (hf.holds hj).declared]
    exact hf.reaches_kept hk (hf.names hj)

theorem Fresh.kept (hf : w.Family host older) (hm : w.Holds host m) (hc : w.Closed older m)
    (hk : w.Kept w')
    (hg : ∀ s, m.effect ∈ w'.graph.subscribers s ↔ m.effect ∈ w.graph.subscribers s)
    (h : w.Fresh m (settle σ older)) : w'.Fresh m (settle σ older) := by
  refine ⟨?_, fun s => ?_⟩
  · obtain ⟨x, _, hx, _⟩ := hm.memo
    obtain ⟨owners, bound, hx'⟩ := hk.memos _ _ hx
    rw [← h.value]
    simp [look, hx, hx']
  · rw [hg, h.subscribed]
    constructor <;> rintro ⟨source, hsource, hfeeds⟩ <;> refine ⟨source, hsource, ?_⟩
    · exact (hf.feeds_kept hk (hc.names _ (hc.listed σ _ hsource))).2 hfeeds
    · exact (hf.feeds_kept hk (hc.names _ (hc.listed σ _ hsource))).1 hfeeds

theorem Current.kept (hf : w.Family host members) (hk : w.Kept w')
    (hg : ∀ m ∈ members, ∀ s, m.effect ∈ w'.graph.subscribers s ↔
      m.effect ∈ w.graph.subscribers s)
    (h : w.Current σ members) : w'.Current σ members := by
  induction hf with
  | nil => trivial
  | @cons m older hm hc _ hf ih =>
    exact ⟨ih (fun j hj => hg j (by simp [hj])) h.1, h.2.kept hf hm hc hk (hg m (by simp))⟩

theorem Current.congr (hf : w.Family host members)
    (hσ : ∀ s, (w.signals.get? s).isSome → σ' s = σ s) (h : w.Current σ members) :
    w.Current σ' members := by
  induction hf with
  | nil => trivial
  | @cons m older _ hc _ hf ih =>
    refine ⟨ih h.1, ?_⟩
    have hsame : ∀ x ∈ m.reads.visited (settle σ older),
        settle σ' older x = settle σ older x := by
      intro x hx
      refine hf.settle_congr fun s hs => hσ s ?_
      exact hf.isSome_of_reaches hc.names (hs.reaches (hc.listed σ x hx))
    refine ⟨by rw [h.2.value, Reads.eval_congr hsame], ?_⟩
    rw [Reads.visited_congr hsame]
    exact h.2.subscribed

end World

end FineGrain
