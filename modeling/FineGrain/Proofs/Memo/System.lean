import FineGrain.Proofs.Memo.Upkeep
import FineGrain.Proofs.Program.Factory
/-!
Systems of states and memos, as programs build them up and drive them. A commit reruns each memo that
its last run subscribed to the state once, in order of creation, and leaves no stale value behind.
-/

namespace FineGrain

open Act

/-- Programs that create states and memos with pure factories, bind names, write states and let
commits run. The memos are listed with the newest first. -/
inductive MemoSystem (host : Host) : World → List Member → Prop
  | empty : MemoSystem host .empty []
  | state {w members} (v : Value) : MemoSystem host w members →
      MemoSystem host (w.run (newState v)).2 members
  | reducer {w members} (v : Value) (reduce : Body) : MemoSystem host w members →
      MemoSystem host (w.run (newReducer v reduce)).2 members
  | memo {w members m} (body : Body) : MemoSystem host w members →
      m.memo = w.next → m.effect = w.next + 1 → w.Closed members m →
      ReadsAs w.scope m.lines m.reads (host.call body []) →
      MemoSystem host (w.run (newMemo host (.compute body) m.dependencies)).2 (m :: members)
  | retainState {w members} (s : Nat) : MemoSystem host w members →
      MemoSystem host (w.retain (.signal s)) members
  | retainMemo {w members} (k : Nat) : MemoSystem host w members →
      MemoSystem host (w.retain (.memo k)) members
  | naming {w members} (names : List (String × Nat)) (handles : Store Held) (n : Nat) :
      MemoSystem host w members → w.next ≤ n → w.Renamed host members (names, handles) →
      MemoSystem host (w.naming names handles n) members
  | write {w members s states} (next : Value → Act Value) : MemoSystem host w members →
      s ∈ states → (∀ t ∈ states, (w.signals.get? t).isSome) →
      (∀ v, Drafts w.scope states (next v)) →
      MemoSystem host (w.run (write s next)).2 members
  | commit {w members s rest} : MemoSystem host w members → w.tasks = .commit s :: rest →
      MemoSystem host ({ w with tasks := rest }.run (commit host s)).2 members

/-- The memos that their last runs subscribed to a state, the oldest first. -/
def World.subscribed (w : World) (members : List Member) (s : Nat) : List Member :=
  members.reverse.filter fun m => s ∈ w.graph.dependencies m.effect

/-- A commit leads from `w` to `w'` without a glitch. -/
structure GlitchFree (w w' : World) (members : List Member) (s : Nat) : Prop where
  reruns : w'.log = w.log ++ (w.subscribed members s).flatMap (·.lines)
  once : (w.subscribed members s).Nodup
  ordered : (w.subscribed members s).Pairwise fun m later =>
    .memo later.memo ∉ m.reads.visited w'.look
  fresh : ∀ m ∈ members, w'.run (cachedValue m.memo) =
    (.ok (settle w'.committed members (.memo m.memo)), w')

/-- The commits of a queue, one after another and each without a glitch. -/
inductive Commits (host : Host) (members : List Member) : World → World → Prop
  | done {w} : w.tasks = [] → Commits host members w w
  | next {w w' w'' s rest} : w.tasks = .commit s :: rest →
      { w with tasks := rest }.run (commit host s) = (.ok ⟨⟩, w') →
      GlitchFree w w' members s → Commits host members w' w'' → Commits host members w w''

namespace World

variable {host : Host} {w w' : World} {members : List Member} {m : Member} {l : List Nat}
  {s : Nat}

theorem Tidy.of_system (h : MemoSystem host w members) : ∃ l, Tidy host w members l := by
  induction h with
  | empty => exact ⟨[], .empty host⟩
  | state v _ ih =>
    obtain ⟨l, ih⟩ := ih
    exact ⟨l, ih.state v⟩
  | reducer v reduce _ ih =>
    obtain ⟨l, ih⟩ := ih
    exact ⟨l, ih.reducer v reduce⟩
  | memo body _ hm he hc hact ih =>
    obtain ⟨l, ih⟩ := ih
    exact ⟨l, ih.memo hm he hc hact⟩
  | retainState s _ ih =>
    obtain ⟨l, ih⟩ := ih
    exact ⟨l, ih.retain_signal s⟩
  | retainMemo k _ ih =>
    obtain ⟨l, ih⟩ := ih
    exact ⟨l, ih.retain_memo k⟩
  | naming names handles n _ hn hr ih =>
    obtain ⟨l, ih⟩ := ih
    exact ⟨l, ih.naming hn hr⟩
  | write next _ hs hlive hnext ih =>
    obtain ⟨l, ih⟩ := ih
    obtain ⟨v, w', first, hrun, hd, _⟩ :=
      Drafts.write hs hnext _ rfl ih.idle.calm ih.idle.probes ih.idle.observers hlive
    exact ⟨l ++ first, by rw [hrun]; exact ih.drafted hd⟩
  | @commit w members s rest _ ht ih =>
    obtain ⟨l, ih⟩ := ih
    have hl := ih.tasks
    rw [ht] at hl
    cases l with
    | nil => simp at hl
    | cons t l =>
      obtain ⟨hs, rfl⟩ : s = t ∧ rest = l.map .commit := by simpa using hl
      subst hs
      obtain ⟨x, v, w', _, _, hrun, hw', _⟩ := ih.commit
      exact ⟨l, by rw [hrun]; exact hw'⟩

theorem Tidy.subscribed_eq (h : Tidy host w members l) (s : Nat) :
    w.subscribed members s = (w.affected s members).reverse := by
  rw [subscribed, affected, List.filter_reverse]
  congr 2
  funext m
  simp [h.idle.sound.symm s m.effect]

theorem Family.pairwise (hf : w.Family host members) :
    members.reverse.Pairwise fun m later => m.memo < later.memo := by
  induction hf with
  | nil => simp
  | cons _ _ hlt _ ih =>
    rw [List.reverse_cons]
    refine List.pairwise_append.2 ⟨ih, by simp, ?_⟩
    simp only [List.mem_reverse, List.mem_singleton]
    rintro k hk _ rfl
    exact (hlt k hk).1

theorem Family.reads_older (hf : w.Family host members) (hc : w.Current w.committed members)
    (hm : m ∈ members) {k : Nat} (hk : .memo k ∈ m.reads.visited w.look) : k < m.memo := by
  induction hf with
  | nil => simp at hm
  | @cons j older _ hclosed hlt hf ih =>
    rcases List.mem_cons.1 hm with rfl | hm
    · rw [Reads.visited_congr (hc.1.look_visited hf hclosed)] at hk
      obtain ⟨i, hi, rfl⟩ := hclosed.names _ (hclosed.listed _ _ hk)
      exact (hlt i hi).1
    · exact ih hc.1 hm

theorem Tidy.glitchFree (h : Tidy host w members (s :: l)) :
    ∃ w', { w with tasks := l.map .commit }.run (Act.commit host s) = (.ok ⟨⟩, w') ∧
      Tidy host w' members l ∧ GlitchFree w w' members s := by
  obtain ⟨x, v, w', _, _, hrun, hw', hspread⟩ := h.commit
  have hsub := h.subscribed_eq s
  have hsublist : (w.subscribed members s).Sublist members.reverse := List.filter_sublist ..
  have hpairwise := h.family.pairwise.sublist hsublist
  refine ⟨w', hrun, hw', hsub ▸ hspread.log, hpairwise.imp ?_, ?_, fun m hm => ?_⟩
  · rintro m _ hlt rfl
    exact Nat.lt_irrefl _ hlt
  · refine List.Pairwise.imp_of_mem (fun {m later} hm _ hlt hk => ?_) hpairwise
    have hm' : m ∈ members := List.mem_reverse.1 (hsublist.subset hm)
    have := hw'.family.reads_older hw'.current hm' hk
    omega
  · rw [run_cachedValue, hw'.current.look hw'.family hm]

theorem Tidy.drain (h : Tidy host w members l) {n count : Nat} (hn : l.length < n) :
    ∃ w', w.run (drainSteps host n count) = (.ok (count + l.length), w') ∧ Commits host members w w' ∧
      w'.tasks = [] := by
  -- A commit queues nothing, so the commits are taken one by one until none is left.
  induction l generalizing w n count with
  | nil =>
    obtain ⟨n, rfl⟩ : ∃ k, n = k + 1 := ⟨n - 1, by simp at hn; omega⟩
    have ht : w.tasks = [] := h.tasks
    exact ⟨w, by simp [drainSteps, run_bind, ht], .done ht, ht⟩
  | cons s l ih =>
    obtain ⟨n, rfl⟩ : ∃ k, n = k + 1 := ⟨n - 1, by simp at hn; omega⟩
    obtain ⟨w₁, hrun, hw₁, hfree⟩ := h.glitchFree
    obtain ⟨w', hrun', hcommits, hw'⟩ := @ih _ hw₁ n (count + 1) (by simpa using hn)
    have ht : w.tasks = .commit s :: l.map .commit := h.tasks
    refine ⟨w', ?_, .next ht hrun hfree hcommits, hw'⟩
    simp only [drainSteps, run_bind, run_get, ht, run_modify, runTask, hrun, hrun']
    simp only [List.length_cons]
    congr 2
    omega

end World

open World in
theorem memo_system_glitch_free {host : Host} {w : World} {members : List Member}
    (h : MemoSystem host w members) :
    (∀ task ∈ w.tasks, ∃ s, task = .commit s) ∧
    (∀ s rest, w.tasks = .commit s :: rest →
      ∃ w', { w with tasks := rest }.run (commit host s) = (.ok ⟨⟩, w') ∧
        GlitchFree w w' members s) ∧
    (w.tasks.length < host.bound →
      ∃ w', w.run (drain host) = (.ok w.tasks.length, w') ∧ Commits host members w w' ∧
        w'.tasks = []) := by
  obtain ⟨l, hl⟩ := Tidy.of_system h
  refine ⟨fun task ht => ?_, fun s rest ht => ?_, fun hbound => ?_⟩
  · rw [hl.tasks] at ht
    obtain ⟨s, _, rfl⟩ := List.mem_map.1 ht
    exact ⟨s, rfl⟩
  · have htasks := hl.tasks
    rw [ht] at htasks
    cases l with
    | nil => simp at htasks
    | cons t l =>
      obtain ⟨rfl, rfl⟩ : s = t ∧ rest = l.map .commit := by simpa using htasks
      obtain ⟨w', hrun, _, hfree⟩ := hl.glitchFree
      exact ⟨w', hrun, hfree⟩
  · have hlength : w.tasks.length = l.length := by simp [hl.tasks]
    obtain ⟨w', hrun, hcommits, hw'⟩ : ∃ w', w.run (drainSteps host host.bound 0) =
        (.ok (0 + l.length), w') ∧ Commits host members w w' ∧ w'.tasks = [] :=
      hl.drain (hlength ▸ hbound)
    exact ⟨w', by simpa [drain, hlength] using hrun, hcommits, hw'⟩

def twice : Member :=
  ⟨2, 3, [.state 0],
    .get (.state 0) fun a => .get (.state 0) fun b => .answer (.wrap (a.toInt + b.toInt)),
    ["twice"]⟩

/-- One more than `twice`. -/
def successor : Member :=
  ⟨5, 6, [.memo 2], .get (.memo 2) fun a => .answer (.wrap (a.toInt + 1)), ["successor"]⟩

theorem memo_system_glitch_free_twice : ∃ w : World,
    MemoSystem (.ofDepth 9) w [successor, twice] ∧ w.tasks = [.commit 0] ∧
    ∃ w', { w with tasks := [] }.run (commit (.ofDepth 9) 0) = (.ok ⟨⟩, w') ∧
      GlitchFree w w' [successor, twice] 0 := by
  let read (name : String) : Expr := .on name "get" .get
  let twiceBody : Expr := .sequence [.log [.value (.string "twice")],
    .arithmetic .add (read "n") (read "n")]
  let successorBody : Expr := .sequence [.log [.value (.string "successor")],
    .arithmetic .add (read "twice") (.value (.integer 1))]
  let host := Host.ofDepth 9
  let state : Nat × Held := (1, ⟨.state 0, 1⟩)
  let names₁ := [("n", 1)]
  let names₂ := [("twice", 4), ("n", 1)]
  let handles₁ : Store Held := ⟨[state]⟩
  let handles₂ : Store Held := ⟨[state, (4, ⟨.memo 2, 1⟩)]⟩
  have hn₁ : Bound (names₁, handles₁) "n" (.state 0) := ⟨by decide, 1, 1, rfl, rfl, by decide⟩
  have hn₂ : Bound (names₂, handles₂) "n" (.state 0) := ⟨by decide, 1, 1, rfl, rfl, by decide⟩
  have ht₂ : Bound (names₂, handles₂) "twice" (Source.memo 2).handle := ⟨by decide, 4, 1, rfl, rfl, by decide⟩
  have htwice {scope} (h : Bound scope "n" (Source.state 0).handle) :
      ReadsAs scope ["twice"] twice.reads (host.call twiceBody []) :=
    readsAs_logging (n := 6)
      (readsAs_arithmetic (readsAs_source h) (readsAs_source h))
  have hsuccessor : ReadsAs (names₂, handles₂) ["successor"] successor.reads
      (host.call successorBody []) :=
    readsAs_logging (n := 6)
      (readsAs_arithmetic (readsAs_source ht₂) (readsAs_value _))
  -- The system is built step by step: a state and its name, a memo and its name, a memo of the
  -- memo, and a write that waits.
  have h₁ := (MemoSystem.empty : MemoSystem host .empty []).state (.integer 1)
  have h₂ := (h₁.naming names₁ handles₁ 2 (by decide) fun m hm => by cases hm).retainState 0
  have h₃ := h₂.memo (m := twice) twiceBody rfl rfl
    ⟨fun σ source hs => by simp_all [twice, Reads.visited, Source.entry],
      fun d hd => by
        obtain rfl : d = .state 0 := by simpa [twice] using hd
        rfl⟩
    (htwice hn₁)
  have h₄ := (h₃.naming names₂ handles₂ 5 (by decide) fun m hm x body hx hbody => by
    obtain rfl : m = twice := by simpa using hm
    cases hx
    cases hbody
    exact htwice hn₂).retainMemo 2
  have h₅ := h₄.memo (m := successor) successorBody rfl rfl
    ⟨fun σ source hs => by simp_all [successor, Reads.visited, Source.entry],
      fun d hd => by
        obtain rfl : d = .memo 2 := by simpa [successor] using hd
        exact ⟨twice, by simp, rfl⟩⟩
    hsuccessor
  have h₆ := h₅.write (s := 0) (fun _ => pure (.integer 5)) (List.mem_singleton.2 rfl)
    (fun t ht => by
      obtain rfl : t = 0 := by simpa using ht
      decide +kernel)
    fun v => (Looks.pure _).drafts
  obtain ⟨w, hw, hcommit⟩ : ∃ w : World, MemoSystem host w [successor, twice] ∧
      w.tasks.map Task.commit? = [some 0] := ⟨_, h₆, by decide +kernel⟩
  have ht : w.tasks = [.commit 0] := by
    obtain ⟨task, htask, htask'⟩ := List.map_eq_singleton_iff.1 hcommit
    cases task <;> simp_all [Task.commit?]
  exact ⟨w, hw, ht, (memo_system_glitch_free hw).2.1 0 [] ht⟩

end FineGrain
