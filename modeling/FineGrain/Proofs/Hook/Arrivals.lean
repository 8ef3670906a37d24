import FineGrain.Proofs.Hook.Lanes
import Mathlib.Data.List.Nodup
import Mathlib.Data.List.Sort
/-!
Arrivals. The lanes of a phase queue stand for one list of jobs in order of arrival, from which the most
urgent one is taken and, of those, the one that arrived first: a priority queue that is stable. Jobs that
are taken one after another therefore come in the stable sort of their arrivals by phase.
-/

namespace FineGrain.Hook

/-- A job that has arrived; `number` tells how many had arrived before it. -/
structure Arrival (α : Type) where
  number : Nat
  phase : Phase
  job : α
deriving DecidableEq, Repr

namespace Arrival

variable {α : Type} {a b : Arrival α} {l l' : List (Arrival α)} {phase : Phase}

/-- One job is more urgent than another, or as urgent and arrived earlier. -/
def Before (a b : Arrival α) : Prop :=
  a.phase.rank < b.phase.rank ∨ a.phase.rank = b.phase.rank ∧ a.number < b.number

theorem Before.asymm (h : a.Before b) : ¬ b.Before a := by
  unfold Before at *
  omega

theorem nodup_of_numbers (h : l.Pairwise (·.number < ·.number)) : l.Nodup :=
  h.imp fun hlt heq => Nat.ne_of_lt hlt (congrArg number heq)

theorem filter_job [DecidableEq α] (h : (l.map job).Nodup) (ha : a ∈ l) :
    l.filter (·.job = a.job) = [a] ∧ l.filter (·.job ≠ a.job) = l.erase a := by
  have hname (b : Arrival α) (hb : b ∈ l) : b.job = a.job ↔ b = a :=
    ⟨List.inj_on_of_nodup_map h hb ha, congrArg job⟩
  have hnodup : l.Nodup := h.of_map
  constructor
  · calc l.filter (·.job = a.job)
      _ = l.filter (· == a) :=
        List.filter_congr fun b hb => Bool.eq_iff_iff.2 (by simp [hname b hb])
      _ = [a] := by rw [List.filter_beq, List.count_eq_one_of_mem hnodup ha]; rfl
  · rw [hnodup.erase_eq_filter]
    exact List.filter_congr fun b hb => Bool.eq_iff_iff.2 (by simp [hname b hb])

/-- At least as urgent. -/
def notAfter (a b : Arrival α) : Bool := a.phase.rank ≤ b.phase.rank

theorem notAfter_trans (a b c : Arrival α) (hab : a.notAfter b = true) (hbc : b.notAfter c = true) :
    a.notAfter c = true := by
  simp only [notAfter, decide_eq_true_eq] at *
  omega

theorem notAfter_total (a b : Arrival α) : (a.notAfter b || b.notAfter a) = true := by
  simp only [notAfter, Bool.or_eq_true, decide_eq_true_eq]
  omega

def byPhase (l : List (Arrival α)) : List (Arrival α) := l.mergeSort notAfter

theorem byPhase_perm (l : List (Arrival α)) : (byPhase l).Perm l := List.mergeSort_perm _ _

theorem filter_byPhase (l : List (Arrival α)) (phase : Phase) :
    (byPhase l).filter (·.phase = phase) = l.filter (·.phase = phase) := by
  have hlevel : (l.filter (·.phase = phase)).Pairwise fun a b => a.notAfter b = true := by
    refine List.pairwise_of_forall_mem_list fun a ha b hb => ?_
    have hphase : a.phase = b.phase :=
      (of_decide_eq_true (List.mem_filter.1 ha).2).trans
        (of_decide_eq_true (List.mem_filter.1 hb).2).symm
    simp [notAfter, hphase]
  have hsub : (l.filter (·.phase = phase)).Sublist (byPhase l) :=
    List.sublist_mergeSort notAfter_trans notAfter_total hlevel List.filter_sublist
  have hsub' := hsub.filter fun a => decide (a.phase = phase)
  rw [List.filter_filter] at hsub'
  simp only [Bool.and_self] at hsub'
  exact (hsub'.eq_of_length ((byPhase_perm l).filter _).length_eq.symm).symm

theorem pairwise_byPhase (h : l.Pairwise (·.number < ·.number)) : (byPhase l).Pairwise Before := by
  have hsorted : (byPhase l).Pairwise fun a b => a.notAfter b = true :=
    List.pairwise_mergeSort notAfter_trans notAfter_total l
  refine List.pairwise_iff_forall_sublist.2 fun {a b} hab => ?_
  have hrank := of_decide_eq_true (List.pairwise_iff_forall_sublist.1 hsorted hab)
  refine (Nat.lt_or_eq_of_le hrank).imp_right fun heq => ⟨heq, ?_⟩
  have hphase : b.phase = a.phase := (Phase.rank_inj heq).symm
  have hkept := hab.filter fun x => decide (x.phase = a.phase)
  rw [filter_byPhase] at hkept
  simp only [List.filter_cons, hphase, decide_true, if_true, List.filter_nil] at hkept
  exact List.pairwise_iff_forall_sublist.1 h (hkept.trans List.filter_sublist)

theorem byPhase_eq (h : l.Pairwise (·.number < ·.number)) (hperm : l'.Perm l)
    (hbefore : l'.Pairwise Before) : byPhase l = l' :=
  List.Perm.eq_of_pairwise (fun _ _ _ _ hab hba => absurd hba hab.asymm) (pairwise_byPhase h) hbefore
    ((byPhase_perm l).trans hperm.symm)

theorem byPhase_of_first [DecidableEq α] (h : l.Pairwise (·.number < ·.number)) (ha : a ∈ l)
    (hfirst : ∀ b ∈ l, b ≠ a → a.Before b) : byPhase l = a :: byPhase (l.erase a) := by
  have hrest : (l.erase a).Pairwise (·.number < ·.number) := h.sublist List.erase_sublist
  refine byPhase_eq h (((byPhase_perm _).cons a).trans (List.perm_cons_erase ha).symm)
    (List.pairwise_cons.2 ⟨fun b hb => ?_, pairwise_byPhase hrest⟩)
  obtain ⟨hne, hb⟩ := (nodup_of_numbers h).mem_erase_iff.1 ((byPhase_perm _).mem_iff.1 hb)
  exact hfirst b hb hne

end Arrival

namespace PhaseQueue

variable {α : Type} {q : PhaseQueue α} {phase : Phase} {job : α} {l : List (Arrival α)}

theorem urgent_of_pop (h : q.pop.1 = some job) : ∃ phase, q.lane phase = job :: q.pop.2.lane phase ∧
    (∀ phase', phase' ≠ phase → q.pop.2.lane phase' = q.lane phase') ∧
    ∀ phase', phase'.rank < phase.rank → q.lane phase' = [] := by
  obtain ⟨insertion, layout, passive, flushQueued⟩ := q
  cases insertion with
  | cons a insertion =>
    cases h
    exact ⟨.insertion, rfl, fun phase' => by cases phase' <;> simp [lane, pop],
      fun _ => by simp [Phase.rank]⟩
  | nil =>
    cases layout with
    | cons a layout =>
      cases h
      exact ⟨.layout, rfl, fun phase' => by cases phase' <;> simp [lane, pop],
        fun phase' => by cases phase' <;> simp [lane, Phase.rank]⟩
    | nil =>
      cases passive with
      | cons a passive =>
        cases h
        exact ⟨.passive, rfl, fun phase' => by cases phase' <;> simp [lane, pop],
          fun phase' => by cases phase' <;> simp [lane, Phase.rank]⟩
      | nil => cases h

/-- A queue stands for a list of jobs in order of arrival: each lane holds those of its phase. -/
structure Holds (q : PhaseQueue α) (l : List (Arrival α)) : Prop where
  lanes : ∀ phase, q.lane phase = (l.filter (·.phase = phase)).map (·.job)
  numbers : l.Pairwise (·.number < ·.number)

theorem holds_empty : (empty : PhaseQueue α).Holds [] where
  lanes phase := by cases phase <;> rfl
  numbers := .nil

theorem Holds.push {n : Nat} (h : q.Holds l) (hn : ∀ a ∈ l, a.number < n) :
    (q.push phase job).2.Holds (l ++ [⟨n, phase, job⟩]) where
  lanes phase' := by
    rw [lane_push, h.lanes, List.filter_append, List.map_append]
    by_cases hphase : phase' = phase
    · simp [hphase]
    · simp [hphase, Ne.symm hphase]
  numbers := List.pairwise_append.2 ⟨h.numbers, List.pairwise_singleton _ _, fun a ha b hb => by
    obtain rfl := List.mem_singleton.1 hb
    exact hn a ha⟩

theorem Holds.pop [DecidableEq α] (h : q.Holds l) (hpop : q.pop.1 = some job) :
    ∃ a ∈ l, a.job = job ∧ (∀ b ∈ l, b ≠ a → a.Before b) ∧ q.pop.2.Holds (l.erase a) := by
  obtain ⟨phase, hlane, hother, hurgent⟩ := urgent_of_pop hpop
  rw [h.lanes] at hlane
  obtain ⟨a, rest, hfilter, rfl, hrest⟩ := List.map_eq_cons_iff.1 hlane
  obtain ⟨ha, hphase⟩ := List.mem_filter.1 (hfilter ▸ List.mem_cons_self : a ∈ l.filter _)
  obtain rfl : a.phase = phase := of_decide_eq_true hphase
  have hnodup := Arrival.nodup_of_numbers h.numbers
  have hnumbers := h.numbers.filter fun b => decide (b.phase = a.phase)
  rw [hfilter] at hnumbers
  refine ⟨a, ha, rfl, fun b hb hne => ?_, fun phase' => ?_, h.numbers.sublist List.erase_sublist⟩
  · rcases Nat.lt_trichotomy a.phase.rank b.phase.rank with hlt | heq | hlt
    · exact .inl hlt
    · have hmem : b ∈ a :: rest := hfilter ▸ List.mem_filter.2 ⟨hb, by simp [Phase.rank_inj heq]⟩
      exact .inr ⟨heq, List.rel_of_pairwise_cons hnumbers ((List.mem_cons.1 hmem).resolve_left hne)⟩
    · have hnone := hurgent _ hlt
      rw [h.lanes, List.map_eq_nil_iff] at hnone
      exact absurd rfl (of_decide_eq_false (Bool.eq_false_iff.2 (List.filter_eq_nil_iff.1 hnone b hb)))
  · have hkept : (l.erase a).filter (·.phase = phase') = (l.filter (·.phase = phase')).erase a := by
      rw [hnodup.erase_eq_filter, (hnodup.filter _).erase_eq_filter, List.filter_comm]
    rw [hkept]
    by_cases hphase : phase' = a.phase
    · rw [hphase, hfilter, List.erase_cons_head, hrest]
    · rw [hother _ hphase, h.lanes, List.erase_of_not_mem fun hmem =>
        hphase (of_decide_eq_true (List.mem_filter.1 hmem).2).symm]

theorem Holds.nil (h : q.Holds l) (hlanes : ∀ phase, q.lane phase = []) : l = [] := by
  refine List.eq_nil_iff_forall_not_mem.2 fun a ha => ?_
  have hmem : a.job ∈ q.lane a.phase := by
    rw [h.lanes]
    exact List.mem_map_of_mem (List.mem_filter.2 ⟨ha, by simp⟩)
  rw [hlanes] at hmem
  cases hmem

theorem Holds.congr {q' : PhaseQueue α} (h : q.Holds l) (hlanes : ∀ phase, q'.lane phase = q.lane phase) :
    q'.Holds l := ⟨fun phase => (hlanes phase).trans (h.lanes phase), h.numbers⟩

end PhaseQueue

end FineGrain.Hook
