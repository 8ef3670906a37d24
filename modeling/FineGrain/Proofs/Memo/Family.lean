import FineGrain.Proofs.Memo.Reads
/-!
Families of memos. The members are listed with the newest first; each reads only what was created
before it and lists what it reads, so the values of the states settle the values of all members.
-/

namespace FineGrain

open Act

/-- A memo with a pure factory. Its runs record `lines`, which tells them apart from other runs. -/
structure Member where
  memo : Nat
  effect : NodeId
  dependencies : List Dependency
  reads : Reads
  lines : List String

/-- The entry of a dependency list that stands for a source. -/
def Source.entry : Source → Dependency
  | .state s => .state s
  | .memo m => .memo m

/-- The value of each source when the states have the given values: a memo has the value of its
factory. -/
def settle (σ : Nat → Value) : List Member → Source → Value
  | [] => fun
    | .state s => σ s
    | .memo _ => .null
  | m :: older => fun
    | .state s => σ s
    | .memo k => if k = m.memo then m.reads.eval (settle σ older) else settle σ older (.memo k)

@[simp] theorem settle_state (σ : Nat → Value) (members : List Member) (s : Nat) :
    settle σ members (.state s) = σ s := by
  cases members <;> rfl

/-- Under the given names, an act reads as told and records some lines. -/
def Act.ReadsAs (scope : List (String × Nat) × Store Held) (lines : List String) (r : Reads)
    (a : Act Value) : Prop :=
  ∀ w : World, w.scope = scope → w.Calm → w.probes = .empty →
    w.run a = { w with log := w.log ++ lines }.run r.act

namespace World

/-- An entry of a dependency list names something that is there. -/
def Names (w : World) (older : List Member) : Dependency → Prop
  | .plain _ => True
  | .state s => (w.signals.get? s).isSome
  | .memo k => ∃ m ∈ older, m.memo = k
  | .probe _ => False

/-- A member is in place: its factory, its dependency list and the effect that recomputes it. -/
structure Holds (host : Host) (w : World) (m : Member) : Prop where
  memo : ∃ x body, w.memos.get? m.memo = some x ∧ x.factory = .compute body ∧
    x.dependencies = m.dependencies ∧ x.readers = 0 ∧
    ReadsAs w.scope m.lines m.reads (host.call body [])
  effect : ∃ x, w.effects.get? m.effect = some x ∧ x.computation = .memo m.memo ∧
    x.timing = .render

/-- A member lists what it reads, whatever the states hold, and lists only what is there already. -/
structure Closed (w : World) (older : List Member) (m : Member) : Prop where
  listed : ∀ σ, ∀ source ∈ m.reads.visited (settle σ older), source.entry ∈ m.dependencies
  names : ∀ d ∈ m.dependencies, w.Names older d

/-- Members in place, each closed under what it reads. -/
inductive Family (host : Host) (w : World) : List Member → Prop
  | nil : Family host w []
  | cons {m older} : w.Holds host m → w.Closed older m →
      (∀ k ∈ older, k.memo < m.memo ∧ k.effect < m.effect) → Family host w older →
      Family host w (m :: older)

/-- A source passes the changes of a state on. -/
def Feeds (w : World) : Source → Nat → Prop
  | .state t, s => s = t
  | .memo k, s => w.Reaches (w.declared (.memo k)) s

/-- A member holds the value of its factory and is subscribed to what feeds its sources. -/
structure Fresh (w : World) (m : Member) (env : Source → Value) : Prop where
  value : w.look (.memo m.memo) = m.reads.eval env
  subscribed : ∀ s, m.effect ∈ w.graph.subscribers s ↔
    ∃ source ∈ m.reads.visited env, w.Feeds source s

/-- Every member is fresh for the given values of the states. -/
def Current (w : World) (σ : Nat → Value) : List Member → Prop
  | [] => True
  | m :: older => w.Current σ older ∧ w.Fresh m (settle σ older)

variable {host : Host} {w : World} {members older : List Member} {m : Member}
  {σ σ' : Nat → Value}

theorem Holds.declared (h : w.Holds host m) : w.declared (.memo m.memo) = m.dependencies := by
  obtain ⟨x, body, hx, _, hd, _⟩ := h.memo
  simp [World.declared, hx, hd]

theorem mem_feeds (hp : w.probes = .empty) {source : Source} {s : Nat} :
    s ∈ w.feeds source ↔ w.Feeds source s := by
  cases source with
  | state t => simp [feeds, Feeds]
  | memo k =>
    rw [feeds, mem_sources hp, Feeds, World.declared]
    cases w.memos.get? k <;> rfl

theorem mem_tracked (hp : w.probes = .empty) {r : Reads} {s : Nat} :
    s ∈ w.tracked r ↔ ∃ source ∈ r.visited w.look, w.Feeds source s := by
  simp [tracked, mem_feeds hp]

theorem Feeds.reaches {source : Source} {ds : List Dependency} {s : Nat} (h : w.Feeds source s)
    (hd : source.entry ∈ ds) : w.Reaches ds s := by
  cases source with
  | state t =>
    obtain rfl : s = t := h
    exact .state hd
  | memo k => exact .memo hd h

theorem Family.settle_congr (hf : w.Family host members) {source : Source}
    (h : ∀ s, w.Feeds source s → σ' s = σ s) :
    settle σ' members source = settle σ members source := by
  induction hf generalizing source with
  | nil =>
    cases source with
    | state t => exact h t rfl
    | memo k => rfl
  | @cons m older hm hc _ _ ih =>
    cases source with
    | state t => exact h t rfl
    | memo k =>
      by_cases hk : k = m.memo
      · subst hk
        have hsame : ∀ x ∈ m.reads.visited (settle σ older),
            settle σ' older x = settle σ older x := by
          intro x hx
          refine ih fun s hs => h s ?_
          rw [Feeds, hm.declared]
          exact hs.reaches (hc.listed σ x hx)
        simp [settle, Reads.eval_congr hsame]
      · simpa [settle, hk] using ih h

theorem Current.look (hf : w.Family host members) (hc : w.Current σ members) (hm : m ∈ members) :
    w.look (.memo m.memo) = settle σ members (.memo m.memo) := by
  induction hf with
  | nil => simp at hm
  | @cons k older _ _ hlt _ ih =>
    rcases List.mem_cons.1 hm with rfl | hm
    · simp [settle, hc.2.value]
    · have hne : m.memo ≠ k.memo := by
        have := (hlt m hm).1
        omega
      simp [settle, hne, ih hc.1 hm]

end World

end FineGrain
