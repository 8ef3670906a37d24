import FineGrain.Proofs.Reactive.Edges
/-!
What clients of the dependency graph do to it, in any order and with untracked stretches nested in any
way. The graph stays sound and closed at every point, the middle of an untracked stretch included;
clearing takes away the edges of one reader, and removing takes away one node with every mention of it.
-/

namespace FineGrain.Graph

variable {g : Graph} {n m s o : NodeId}

theorem hasNode_of_mem_dependencies (h : s ∈ g.dependencies o) : g.hasNode o = true := by
  rw [hasNode, Store.contains]
  cases hn : g.nodes.get? o with
  | none =>
    rw [dependencies, hn] at h
    cases h
  | some e => rfl

theorem hasNode_of_mem_subscribers (h : o ∈ g.subscribers s) : g.hasNode s = true := by
  rw [hasNode, Store.contains]
  cases hn : g.nodes.get? s with
  | none =>
    rw [subscribers, hn] at h
    cases h
  | some e => rfl

theorem hasNode_clearDependencies : (g.clearDependencies n).hasNode m = g.hasNode m := by
  unfold clearDependencies hasNode Store.contains
  cases h : g.nodes.get? n with
  | none => rfl
  | some e =>
    rw [get?_unsubscribe, Option.isSome_map, Store.get?_put]
    split
    · simp_all
    · rfl

theorem hasNode_removeNode : (g.removeNode n).hasNode m = (m != n && g.hasNode m) := by
  rw [← hasNode_clearDependencies (g := g) (n := n)]
  cases hn : (g.clearDependencies n).nodes.get? n with
  | none =>
    rw [removeNode_none hn]
    by_cases hm : m = n
    · simp [hm, hasNode, Store.contains, hn]
    · simp [hm]
  | some e =>
    rw [hasNode, nodes_removeNode hn, Store.contains, get?_undepend, Option.isSome_map,
      Store.get?_erase]
    by_cases hm : m = n
    · simp [hm]
    · simp [hm, hasNode, Store.contains]

/-- Whoever is mentioned at a node is a node. -/
structure Closed (g : Graph) : Prop where
  subscribers : ∀ s, ∀ o ∈ g.subscribers s, g.hasNode o = true
  dependencies : ∀ o, ∀ s ∈ g.dependencies o, g.hasNode s = true

/-- `k` is `g` without the edges to what `n` reads: at its sources `n` is no longer listed, and nothing
else has changed. -/
structure Cleared (n : NodeId) (g k : Graph) : Prop where
  reads : k.dependencies n = []
  dependencies : ∀ o ≠ n, k.dependencies o = g.dependencies o
  sources : ∀ s ∈ g.dependencies n, k.subscribers s = (g.subscribers s).filter (· != n)
  subscribers : ∀ s, s ∉ g.dependencies n → k.subscribers s = g.subscribers s
  nodes : ∀ m, k.hasNode m = g.hasNode m
  rest : k.observers = g.observers ∧ k.pending = g.pending ∧ k.flushQueued = g.flushQueued

/-- `k` is `g` without the node `n`, which is mentioned nowhere any more, and nothing else has
changed. -/
structure Removed (n : NodeId) (g k : Graph) : Prop where
  nodes : ∀ m, k.hasNode m = (m != n && g.hasNode m)
  subscribers : ∀ s ≠ n, k.subscribers s = (g.subscribers s).filter (· != n)
  dependencies : ∀ o ≠ n, k.dependencies o = (g.dependencies o).filter (· != n)
  rest : k.observers = g.observers ∧ k.pending = g.pending ∧ k.flushQueued = g.flushQueued

theorem Sound.closed (h : g.Sound) : g.Closed where
  subscribers s o ho := hasNode_of_mem_dependencies ((h.symm s o).1 ho)
  dependencies o s hs := hasNode_of_mem_subscribers ((h.symm s o).2 hs)

theorem cleared (g : Graph) (n : NodeId) : Cleared n g (g.clearDependencies n) where
  reads := by rw [dependencies_clearDependencies, if_pos rfl]
  dependencies o ho := by rw [dependencies_clearDependencies, if_neg ho]
  sources s hs := by rw [subscribers_clearDependencies, if_pos hs]
  subscribers s hs := by rw [subscribers_clearDependencies, if_neg hs]
  nodes _ := hasNode_clearDependencies
  rest := ⟨observers_clearDependencies g n, pending_clearDependencies g n,
    flushQueued_clearDependencies g n⟩

theorem Sound.removed (h : g.Sound) (n : NodeId) : Removed n g (g.removeNode n) where
  nodes _ := hasNode_removeNode
  subscribers s hs := by rw [h.subscribers_remove, if_neg hs]
  dependencies o ho := by rw [h.dependencies_remove, if_neg ho]
  rest := ⟨observers_removeNode, pending_removeNode, flushQueued_removeNode⟩

inductive Client where
  | push (n : NodeId)
  | pop
  | track (s : NodeId)
  | clear (n : NodeId)
  | remove (n : NodeId)
  | untracked (inside : List Client)

mutual

def Client.after : Client → Graph → Graph
  | .push n, g => g.pushObserver n
  | .pop, g => g.popObserver
  | .track s, g => g.track s
  | .clear n, g => g.clearDependencies n
  | .remove n, g => g.removeNode n
  | .untracked inside, g => (afterAll inside g.hideObservers).restoreObservers g.observers

def afterAll : List Client → Graph → Graph
  | [], g => g
  | c :: rest, g => afterAll rest (c.after g)

end

mutual

def Client.during : Client → Graph → List Graph
  | .untracked inside, g => passed inside g.hideObservers
  | _, _ => []

/-- The graphs that clients pass through one after another. -/
def passed : List Client → Graph → List Graph
  | [], g => [g]
  | c :: rest, g => g :: c.during g ++ passed rest (c.after g)

end

mutual

theorem Client.sound_after : ∀ (c : Client) {g : Graph}, g.Sound → (c.after g).Sound
  | .push _, _, h | .pop, _, h => h.congr rfl
  | .track s, _, h => h.track s
  | .clear n, _, h => h.clear n
  | .remove n, _, h => h.remove n
  | .untracked inside, g, h =>
    have hinside : (afterAll inside g.hideObservers).Sound := sound_afterAll inside (h.congr rfl)
    hinside.congr rfl

theorem sound_afterAll : ∀ (l : List Client) {g : Graph}, g.Sound → (afterAll l g).Sound
  | [], _, h => h
  | c :: rest, _, h => sound_afterAll rest (c.sound_after h)

end

mutual

theorem Client.sound_during : ∀ (c : Client) {g : Graph}, g.Sound → ∀ k ∈ c.during g, k.Sound
  | .untracked inside, _, h => sound_passed inside (h.congr rfl)
  | .push _, _, _ | .pop, _, _ | .track _, _, _ | .clear _, _, _ | .remove _, _, _ =>
    fun _ hk => by cases hk

theorem sound_passed : ∀ (l : List Client) {g : Graph}, g.Sound → ∀ k ∈ passed l g, k.Sound
  | [], _, h, k, hk => by
    obtain rfl := List.mem_singleton.1 hk
    exact h
  | c :: rest, _, h, k, hk => by
    rcases List.mem_cons.1 hk with rfl | hk
    · exact h
    · rcases List.mem_append.1 hk with hk | hk
      · exact c.sound_during h k hk
      · exact sound_passed rest (c.sound_after h) k hk

end

/-- Whatever clients do to the empty graph, at every point the two lists of every node tell the same
edges, each once, and mention nodes only; and from there clearing takes away exactly the edges to what a
node reads, and removing exactly a node and every mention of it. -/
theorem invariant_of_passed (l : List Client) : ∀ g ∈ passed l .empty,
    g.Sound ∧ g.Closed ∧ (∀ n, Cleared n g (g.clearDependencies n)) ∧
      ∀ n, Removed n g (g.removeNode n) := by
  intro g hg
  have hsound : g.Sound := sound_passed l Sound.empty g hg
  exact ⟨hsound, hsound.closed, cleared g, hsound.removed⟩

/-- In the middle of an untracked stretch, where a node reads itself and a second one reads both. -/
theorem invariant_of_passed_untracked : ∃ g ∈ passed [.push 1, .track 1,
      .untracked [.track 3, .push 2, .untracked [.track 4], .track 1, .track 2]] .empty,
    g.observers = [2] ∧ g.nodes.entries = [(1, ⟨[1, 2], [1]⟩), (2, ⟨[2], [1, 2]⟩)] ∧
      g.Sound ∧ g.Closed ∧ (∀ n, Cleared n g (g.clearDependencies n)) ∧
        ∀ n, Removed n g (g.removeNode n) := by
  let g : Graph := ⟨[2], ⟨[(1, ⟨[1, 2], [1]⟩), (2, ⟨[2], [1, 2]⟩)]⟩, [], false⟩
  have hg : g ∈ passed [.push 1, .track 1,
      .untracked [.track 3, .push 2, .untracked [.track 4], .track 1, .track 2]] .empty := by
    decide
  exact ⟨g, hg, rfl, rfl, invariant_of_passed _ g hg⟩

/-- A node that reads itself is removed together with its edge to itself. -/
example : (afterAll [.push 1, .track 1, .track 2, .remove 1] .empty).nodes.entries =
    [(2, ⟨[], []⟩)] := by decide

end FineGrain.Graph
