import FineGrain.Text.Edit
import Mathlib.Data.List.TakeDrop
import Mathlib.Data.List.TakeWhile
/-!
Recording edits. A call looks only at the edits on both sides of the place where its edit would go.
In a list that is in order and free of overlaps these two stand for all the others, so a call is
refused just when its span overlaps some edit of the list, and the list stays as it should be. What
is recorded in the end does not hang on the order of the calls, insertions at one offset apart.
-/

namespace FineGrain

variable {e : Edit} {es es' before after : List Edit}

/-! ### Spans -/

namespace Span

variable {a b c : Span}

theorem le_iff : a.le b = true ↔ a.start < b.start ∨ a.start = b.start ∧ a.stop ≤ b.stop := by
  simp [le]

theorem not_le_iff : a.le b = false ↔ b.start < a.start ∨ b.start = a.start ∧ b.stop < a.stop := by
  rw [← Bool.not_eq_true, le_iff]
  omega

theorem overlaps_iff : a.overlaps b = true ↔ a.start < b.stop ∧ b.start < a.stop := by
  simp [overlaps]

theorem not_overlaps_iff : a.overlaps b = false ↔ b.stop ≤ a.start ∨ a.stop ≤ b.start := by
  rw [← Bool.not_eq_true, overlaps_iff]
  omega

theorem not_overlaps_symm (h : a.overlaps b = false) : b.overlaps a = false := by
  rw [not_overlaps_iff] at *
  exact h.symm

protected theorem le_refl (a : Span) : a.le a = true := by
  rw [le_iff]
  omega

protected theorem le_trans (hab : a.le b = true) (hbc : b.le c = true) : a.le c = true := by
  rw [le_iff] at *
  omega

protected theorem le_antisymm (hab : a.le b = true) (hba : b.le a = true) : a = b := by
  obtain ⟨start, stop⟩ := a
  obtain ⟨start', stop'⟩ := b
  rw [le_iff] at hab hba
  simp only [mk.injEq]
  dsimp only at hab hba
  omega

theorem stop_le_start (hb : b.start ≤ b.stop) (hle : a.le b = true)
    (hover : a.overlaps b = false) : a.stop ≤ b.start := by
  rw [le_iff] at hle
  rw [not_overlaps_iff] at hover
  omega

theorem stop_le_start_of_not_le (ha : a.start ≤ a.stop) (hle : a.le b = false)
    (hover : a.overlaps b = false) : b.stop ≤ a.start := by
  rw [not_le_iff] at hle
  rw [not_overlaps_iff] at hover
  omega

end Span

namespace EditList

variable {l l' : EditList} {span : Span} {text : List Char}

/-! ### Where an edit goes -/

def Sorted (es : List Edit) : Prop := es.Pairwise fun a b => a.span.le b.span = true

/-- The place of a span in a list: behind all that is at or before it. -/
structure Splits (es : List Edit) (span : Span) (before after : List Edit) : Prop where
  eq : es = before ++ after
  le : ∀ a ∈ before, a.span.le span = true
  not_le : ∀ a ∈ after, a.span.le span = false

theorem not_le_of_mem_dropWhile (h : Sorted es) :
    ∀ a ∈ es.dropWhile (fun a => a.span.le span), a.span.le span = false := by
  induction es with
  | nil => simp
  | cons b es ih =>
    obtain ⟨hb, hes⟩ := List.pairwise_cons.1 h
    intro a ha
    rw [List.dropWhile_cons] at ha
    split at ha
    next => exact ih hes a ha
    next hle =>
      refine Bool.eq_false_iff.2 fun hspan => hle ?_
      rcases List.mem_cons.1 ha with rfl | ha
      · exact hspan
      · exact Span.le_trans (hb a ha) hspan

theorem splits (h : Sorted l.edits) (span : Span) :
    Splits l.edits span (l.splitAt span).1 (l.splitAt span).2 := by
  rw [splitAt, List.span_eq_takeWhile_dropWhile]
  refine ⟨List.takeWhile_append_dropWhile.symm, ?_, not_le_of_mem_dropWhile h⟩
  intro a ha
  have hle := List.mem_takeWhile_imp ha
  exact hle

theorem exists_of_blocked (h : blocked before after span = true) :
    ∃ a ∈ before ++ after, a.span.overlaps span = true := by
  rw [blocked, Bool.or_eq_true, Option.any_eq_true, Option.any_eq_true] at h
  rcases h with ⟨a, ha, hover⟩ | ⟨a, ha, hover⟩
  · exact ⟨a, List.mem_append_left _ (List.mem_of_getLast? ha), hover⟩
  · exact ⟨a, List.mem_append_right _ (List.mem_of_head? ha), hover⟩

theorem replace?_cases (h : Sorted l.edits) (span : Span) (text : List Char) :
    (l.replace? span text = none ∧ ∃ a ∈ l.edits, a.span.overlaps span = true) ∨
      ∃ before after, Splits l.edits span before after ∧ blocked before after span = false ∧
        l.replace? span text = some ⟨before ++ ⟨span, text⟩ :: after⟩ := by
  have hplace := splits h span
  cases hb : blocked (l.splitAt span).1 (l.splitAt span).2 span with
  | true =>
    left
    rw [hplace.eq]
    exact ⟨if_pos hb, exists_of_blocked hb⟩
  | false =>
    right
    exact ⟨_, _, hplace, hb, if_neg (Bool.eq_false_iff.1 hb)⟩

/-- `es'` is `es` with `e` put in its place. -/
def Adds (e : Edit) (es es' : List Edit) : Prop :=
  ∃ before after, Splits es e.span before after ∧ es' = before ++ e :: after

namespace Adds

theorem perm (h : Adds e es es') : es'.Perm (e :: es) := by
  obtain ⟨before, after, hplace, rfl⟩ := h
  rw [hplace.eq]
  exact List.perm_middle

theorem sorted (h : Adds e es es') (hes : Sorted es) : Sorted es' := by
  obtain ⟨before, after, ⟨rfl, hbefore, hafter⟩, rfl⟩ := h
  obtain ⟨hfront, hback, hcross⟩ := List.pairwise_append.1 hes
  refine List.pairwise_append.2 ⟨hfront, List.pairwise_cons.2 ⟨?_, hback⟩, ?_⟩
  · intro a ha
    have hlt := hafter a ha
    rw [Span.not_le_iff] at hlt
    rw [Span.le_iff]
    omega
  · intro a ha b hb
    rcases List.mem_cons.1 hb with rfl | hb
    · exact hbefore a ha
    · exact hcross a ha b hb

theorem filter (h : Adds e es es') (span : Span) :
    es'.filter (·.span = span) = (es ++ [e]).filter (·.span = span) := by
  obtain ⟨before, after, ⟨rfl, -, hafter⟩, rfl⟩ := h
  rw [List.append_assoc, List.filter_append, List.filter_append]
  congr 1
  by_cases he : e.span = span
  · have hnone : after.filter (·.span = span) = [] := by
      rw [List.filter_eq_nil_iff]
      intro a ha hspan
      have hlt := hafter a ha
      rw [of_decide_eq_true hspan, ← he, Span.le_refl] at hlt
      cases hlt
    simp [he, hnone]
  · simp [he]

end Adds

/-! ### Two neighbours are enough -/

/-- Every edit replaces a range, and ends before the next one starts. -/
structure WellFormed (es : List Edit) : Prop where
  ranges : ∀ e ∈ es, e.span.start ≤ e.span.stop
  follow : es.Pairwise fun a b => a.span.stop ≤ b.span.start

namespace WellFormed

theorem nil : WellFormed [] := ⟨by simp, .nil⟩

theorem sorted (h : WellFormed es) : Sorted es := by
  refine h.follow.imp_of_mem ?_
  intro a b ha hb hab
  have hrange := h.ranges a ha
  have hrange' := h.ranges b hb
  rw [Span.le_iff]
  omega

theorem apart (h : WellFormed es) : es.Pairwise fun a b => a.span.overlaps b.span = false := by
  refine h.follow.imp ?_
  intro a b hab
  rw [Span.not_overlaps_iff]
  exact .inr hab

theorem apart_of_not_blocked (h : WellFormed es) (hplace : Splits es span before after)
    (hb : blocked before after span = false) :
    ∀ a ∈ es, a.span.overlaps span = false := by
  obtain ⟨rfl, hbefore, hafter⟩ := hplace
  rw [blocked, Bool.or_eq_false_iff] at hb
  obtain ⟨hfront, hback, -⟩ := List.pairwise_append.1 h.follow
  intro a ha
  rcases List.mem_append.1 ha with ha | ha
  -- An edit before the left neighbour ends where that one starts.
  · rcases List.eq_nil_or_concat before with rfl | ⟨front, p, hconcat⟩
    · cases ha
    rw [List.concat_eq_append] at hconcat
    subst hconcat
    rcases List.mem_append.1 ha with hmem | hmem
    · have hstop := (List.pairwise_append.1 hfront).2.2 a hmem p List.mem_cons_self
      have hle := hbefore p (List.mem_append_right _ List.mem_cons_self)
      rw [Span.le_iff] at hle
      rw [Span.not_overlaps_iff]
      omega
    · rw [List.mem_singleton.1 hmem]
      simpa using hb.1
  -- An edit behind the right neighbour starts no sooner than that one ends.
  · cases after with
    | nil => cases ha
    | cons n back =>
      rcases List.mem_cons.1 ha with rfl | hmem
      · exact hb.2
      · have hstart := (List.pairwise_cons.1 hback).1 a hmem
        have hrange := h.ranges n (List.mem_append_right _ List.mem_cons_self)
        have hstop := Span.stop_le_start_of_not_le hrange (hafter n List.mem_cons_self) hb.2
        rw [Span.not_overlaps_iff]
        omega

theorem adds (h : WellFormed es) (he : e.span.start ≤ e.span.stop)
    (hover : ∀ a ∈ es, a.span.overlaps e.span = false) (hadd : Adds e es es') : WellFormed es' := by
  constructor
  · intro a ha
    rcases List.mem_cons.1 (hadd.perm.mem_iff.1 ha) with rfl | ha
    · exact he
    · exact h.ranges a ha
  · obtain ⟨before, after, ⟨rfl, hbefore, hafter⟩, rfl⟩ := hadd
    obtain ⟨hfront, hback, hcross⟩ := List.pairwise_append.1 h.follow
    refine List.pairwise_append.2 ⟨hfront, List.pairwise_cons.2 ⟨?_, hback⟩, ?_⟩
    · intro a ha
      have hmem := List.mem_append_right before ha
      exact Span.stop_le_start_of_not_le (h.ranges a hmem) (hafter a ha) (hover a hmem)
    · intro a ha b hb
      rcases List.mem_cons.1 hb with rfl | hb
      · exact Span.stop_le_start he (hbefore a ha) (hover a (List.mem_append_left _ ha))
      · exact hcross a ha b hb

theorem replace?_cases (h : WellFormed l.edits) (span : Span) (text : List Char) :
    ((∃ a ∈ l.edits, a.span.overlaps span = true) ∧ l.replace? span text = none) ∨
      (∀ a ∈ l.edits, a.span.overlaps span = false) ∧
        ∃ l', l.replace? span text = some l' ∧ Adds ⟨span, text⟩ l.edits l'.edits := by
  rcases EditList.replace?_cases h.sorted span text with ⟨hcall, hover⟩ | hcall
  · exact .inl ⟨hover, hcall⟩
  · obtain ⟨before, after, hplace, hb, hcall⟩ := hcall
    exact .inr ⟨h.apart_of_not_blocked hplace hb, _, hcall, before, after, hplace, rfl⟩

end WellFormed

/-- The calls that are accepted when `calls` are made on `l` one after another. -/
def accepted (l : EditList) : List Edit → List Edit
  | [] => []
  | e :: calls =>
      match l.replace? e.span e.text with
      | none => accepted l calls
      | some l' => e :: accepted l' calls

theorem wellFormed_foldl {calls : List Edit} (hcalls : ∀ e ∈ calls, e.span.start ≤ e.span.stop)
    (h : WellFormed l.edits) :
    WellFormed (calls.foldl (fun l e => l.replace e.span e.text) l).edits ∧
      ∀ span, (calls.foldl (fun l e => l.replace e.span e.text) l).edits.filter (·.span = span) =
        (l.edits ++ accepted l calls).filter (·.span = span) := by
  induction calls generalizing l with
  | nil => exact ⟨h, fun span => by simp [accepted]⟩
  | cons e calls ih =>
    obtain ⟨he, hrest⟩ := List.forall_mem_cons.1 hcalls
    rw [List.foldl_cons, accepted, replace]
    rcases h.replace?_cases e.span e.text with ⟨-, hcall⟩ | ⟨hover, l', hcall, hadd⟩
    · rw [hcall]
      exact ih hrest h
    · rw [hcall]
      obtain ⟨hwell, hfilter⟩ := ih hrest (h.adds he hover hadd)
      refine ⟨hwell, fun span => ?_⟩
      rw [Option.getD_some, hfilter, List.filter_append, hadd.filter, ← List.filter_append,
        List.append_assoc, List.singleton_append]

theorem accepted_sublist {calls : List Edit} : (accepted l calls).Sublist calls := by
  induction calls generalizing l with
  | nil => exact List.Sublist.refl _
  | cons e calls ih =>
    rw [accepted]
    split
    · exact ih.cons e
    · exact ih.cons_cons e

theorem wellFormed_ofEdits {calls : List Edit} (hcalls : ∀ e ∈ calls, e.span.start ≤ e.span.stop) :
    WellFormed (ofEdits calls).edits ∧ ∀ span,
      (ofEdits calls).edits.filter (·.span = span) = (accepted empty calls).filter (·.span = span) :=
  wellFormed_foldl hcalls WellFormed.nil

theorem mem_of_mem_ofEdits {calls : List Edit} (hcalls : ∀ e ∈ calls, e.span.start ≤ e.span.stop)
    (he : e ∈ (ofEdits calls).edits) : e ∈ calls := by
  have hmem : e ∈ (ofEdits calls).edits.filter (·.span = e.span) := by simp [he]
  rw [(wellFormed_ofEdits hcalls).2] at hmem
  exact accepted_sublist.subset (List.mem_filter.1 hmem).1

/-- Whatever ranges are recorded, the list is sorted, no two of its edits overlap, and those of one
span stand in the order of their calls. A further call is refused, and changes nothing, if its span
overlaps any edit of the list; otherwise it adds its edit and changes nothing else. -/
theorem neighbours_suffice (calls : List Edit) (hcalls : ∀ e ∈ calls, e.span.start ≤ e.span.stop) :
    let l := ofEdits calls
    l.edits.Pairwise (fun a b => a.span.le b.span = true) ∧
    l.edits.Pairwise (fun a b => a.span.overlaps b.span = false) ∧
    (∀ span, l.edits.filter (·.span = span) =
      (accepted empty calls).filter (·.span = span)) ∧
    ∀ span text,
      ((∃ a ∈ l.edits, a.span.overlaps span = true) ∧ l.replace? span text = none ∧
        l.replace span text = l) ∨
      (∀ a ∈ l.edits, a.span.overlaps span = false) ∧ ∃ before after,
        l.edits = before ++ after ∧
        l.replace? span text = some ⟨before ++ ⟨span, text⟩ :: after⟩ ∧
        l.replace span text = ⟨before ++ ⟨span, text⟩ :: after⟩ := by
  intro l
  obtain ⟨hwell, hfilter⟩ := wellFormed_ofEdits hcalls
  refine ⟨hwell.sorted, hwell.apart, hfilter, ?_⟩
  intro span text
  rcases hwell.replace?_cases span text with ⟨hover, hcall⟩ | ⟨hover, l', hcall, hadd⟩
  · exact .inl ⟨hover, hcall, by rw [replace, hcall, Option.getD_none]⟩
  · obtain ⟨before, after, hplace, hl'⟩ := hadd
    obtain rfl : l' = ⟨before ++ ⟨span, text⟩ :: after⟩ := congrArg EditList.mk hl'
    exact .inr ⟨hover, before, after, hplace.eq, hcall, by rw [replace, hcall, Option.getD_some]⟩

/-- Insertions before and behind a replacement, one of them made twice, and a call in between that is
refused. -/
theorem neighbours_suffice_edges :
    let calls : List Edit :=
      [⟨⟨2, 5⟩, ['r']⟩, ⟨⟨5, 5⟩, ['a']⟩, ⟨⟨3, 6⟩, ['x']⟩, ⟨⟨2, 2⟩, ['b']⟩, ⟨⟨5, 5⟩, ['c']⟩]
    let l := ofEdits calls
    (∀ e ∈ calls, e.span.start ≤ e.span.stop) ∧
    l.edits = [⟨⟨2, 2⟩, ['b']⟩, ⟨⟨2, 5⟩, ['r']⟩, ⟨⟨5, 5⟩, ['a']⟩, ⟨⟨5, 5⟩, ['c']⟩] ∧
    l.edits.Pairwise (fun a b => a.span.overlaps b.span = false) ∧
    l.replace? ⟨3, 6⟩ ['x'] = none ∧ (l.replace? ⟨5, 6⟩ ['x']).isSome = true := by
  intro calls l
  have hcalls : ∀ e ∈ calls, e.span.start ≤ e.span.stop := by decide
  obtain ⟨-, hapart, -, hcall⟩ := neighbours_suffice calls hcalls
  refine ⟨hcalls, by decide, hapart, ?_, ?_⟩
  · rcases hcall ⟨3, 6⟩ ['x'] with ⟨-, hnone, -⟩ | ⟨hover, -⟩
    · exact hnone
    · exact absurd hover (by decide)
  · rcases hcall ⟨5, 6⟩ ['x'] with ⟨hover, -⟩ | ⟨-, before, after, -, hsome, -⟩
    · exact absurd hover (by decide)
    · exact Option.isSome_of_mem hsome

/-! ### The order of the calls -/

/-- Whether an edit replaces nothing, and puts its text in at `offset`. -/
def insertsAt (offset : Nat) (e : Edit) : Bool := e.span.start = offset && e.span.stop ≤ offset

theorem Sorted.eq_of_filter (h : Sorted es) (h' : Sorted es')
    (hfilter : ∀ span, es.filter (·.span = span) = es'.filter (·.span = span)) : es = es' := by
  induction es generalizing es' with
  | nil =>
    cases es' with
    | nil => rfl
    | cons e' es' => simpa using hfilter e'.span
  | cons e es ih =>
    cases es' with
    | nil => simpa using hfilter e.span
    | cons e' es' =>
      obtain ⟨he, hes⟩ := List.pairwise_cons.1 h
      obtain ⟨he', hes'⟩ := List.pairwise_cons.1 h'
      -- Each of the two heads occurs in the other list, so neither span is below the other.
      have hspan : e.span = e'.span := by
        have hmem : e ∈ (e' :: es').filter (·.span = e.span) := by
          rw [← hfilter]
          simp
        have hmem' : e' ∈ (e :: es).filter (·.span = e'.span) := by
          rw [hfilter]
          simp
        apply Span.le_antisymm
        · rcases List.mem_cons.1 (List.mem_filter.1 hmem').1 with rfl | hmem
          · exact Span.le_refl _
          · exact he e' hmem
        · rcases List.mem_cons.1 (List.mem_filter.1 hmem).1 with rfl | hmem
          · exact Span.le_refl _
          · exact he' e hmem
      have hheads := hfilter e.span
      rw [List.filter_cons_of_pos (by simp), List.filter_cons_of_pos (by simp [hspan])] at hheads
      obtain rfl := (List.cons.inj hheads).1
      congr 1
      apply ih hes hes'
      intro span
      have htails := hfilter span
      rw [List.filter_cons, List.filter_cons] at htails
      split at htails
      · exact (List.cons.inj htails).2
      · exact htails

theorem length_filter_le_one (hes : es.Pairwise fun a b => a.span.overlaps b.span = false)
    (hspan : span.start < span.stop) : (es.filter (·.span = span)).length ≤ 1 := by
  have hpairs := hes.filter (·.span = span)
  cases hl : es.filter (·.span = span) with
  | nil => simp
  | cons a rest =>
    cases rest with
    | nil => simp
    | cons b rest =>
      have hmem : ∀ c ∈ a :: b :: rest, c.span = span := by
        intro c hc
        rw [← hl, List.mem_filter] at hc
        exact of_decide_eq_true hc.2
      rw [hl] at hpairs
      have hover := (List.pairwise_cons.1 hpairs).1 b List.mem_cons_self
      rw [hmem a List.mem_cons_self, hmem b (by simp), Span.not_overlaps_iff] at hover
      omega

/-- Edits of one span that do not overlap are insertions at one offset, or there is only one. -/
theorem filter_eq_of_insertsAt (hperm : es.Perm es')
    (hes : es.Pairwise fun a b => a.span.overlaps b.span = false)
    (hsame : ∀ offset, es.filter (insertsAt offset) = es'.filter (insertsAt offset)) (span : Span) :
    es.filter (·.span = span) = es'.filter (·.span = span) := by
  by_cases hspan : span.stop ≤ span.start
  · have hboth : ∀ l : List Edit, (l.filter (insertsAt span.start)).filter (·.span = span) =
        l.filter (·.span = span) := by
      intro l
      rw [List.filter_filter]
      apply List.filter_congr
      intro a _
      by_cases ha : a.span = span
      · simp [insertsAt, ha, hspan]
      · simp [ha]
    rw [← hboth es, ← hboth es', hsame]
  · have hlength := length_filter_le_one hes (Nat.lt_of_not_le hspan)
    have hfilter := hperm.filter (·.span = span)
    cases hl : es.filter (·.span = span) with
    | nil =>
      rw [hl] at hfilter
      exact hfilter.nil_eq
    | cons a rest =>
      rw [hl] at hfilter hlength
      obtain rfl := List.eq_nil_of_length_eq_zero (Nat.le_zero.1 (Nat.le_of_succ_le_succ hlength))
      exact hfilter.symm.eq_singleton.symm

/-- All of `es` recorded one after another, if no call is refused. -/
def recordAll? (l : EditList) (es : List Edit) : Option EditList :=
  es.foldlM (fun l e => l.replace? e.span e.text) l

theorem recordAll?_of_apart (es : List Edit) (hl : Sorted l.edits)
    (hes : (l.edits ++ es).Pairwise fun a b => a.span.overlaps b.span = false) :
    ∃ l', recordAll? l es = some l' ∧ es.foldl (fun l e => l.replace e.span e.text) l = l' ∧
      Sorted l'.edits ∧ l'.edits.Perm (l.edits ++ es) ∧
      ∀ span, l'.edits.filter (·.span = span) = (l.edits ++ es).filter (·.span = span) := by
  induction es generalizing l with
  | nil => exact ⟨l, rfl, rfl, hl, by simp, by simp⟩
  | cons e es ih =>
    obtain ⟨-, -, hcross⟩ := List.pairwise_append.1 hes
    rcases replace?_cases hl e.span e.text with ⟨-, a, ha, hover⟩ | hcall
    · have hnot := hcross a ha e List.mem_cons_self
      rw [hover] at hnot
      cases hnot
    · obtain ⟨before, after, hplace, -, hcall⟩ := hcall
      -- The edit takes its place, and the longer list and the remaining edits are apart as before.
      have hadd : Adds e l.edits (before ++ e :: after) := ⟨before, after, hplace, rfl⟩
      have hperm : ((before ++ e :: after) ++ es).Perm (l.edits ++ e :: es) :=
        (hadd.perm.append_right es).trans List.perm_middle.symm
      have hapart := (hperm.pairwise_iff Span.not_overlaps_symm).2 hes
      obtain ⟨l', hrest, hfold, hsorted, hperm', hfilter⟩ :=
        ih (l := ⟨before ++ e :: after⟩) (hadd.sorted hl) hapart
      refine ⟨l', ?_, ?_, hsorted, hperm'.trans hperm, ?_⟩
      · rw [recordAll?, List.foldlM_cons, hcall]
        exact hrest
      · rw [List.foldl_cons, replace, hcall]
        exact hfold
      · intro span
        rw [hfilter, List.filter_append, hadd.filter, ← List.filter_append, List.append_assoc,
          List.singleton_append]

/-- Edits no two of which overlap may be recorded in any order that keeps the insertions at each
offset in theirs: every call is accepted, and the list is the same, with all of the edits in it. So
is every text that it is spliced into. -/
theorem recorded_in_any_order (hperm : es.Perm es')
    (hes : es.Pairwise fun a b => a.span.overlaps b.span = false)
    (hsame : ∀ offset, es.filter (insertsAt offset) = es'.filter (insertsAt offset)) :
    (∃ l, recordAll? empty es = some l ∧ recordAll? empty es' = some l ∧ l.edits.Perm es) ∧
      ofEdits es = ofEdits es' ∧
      ∀ text region, (ofEdits es).spliceIn? text region = (ofEdits es').spliceIn? text region := by
  obtain ⟨l, hcalls, hfold, hsorted, hl, hfilter⟩ :=
    recordAll?_of_apart (l := empty) es .nil hes
  obtain ⟨l', hcalls', hfold', hsorted', hl', hfilter'⟩ :=
    recordAll?_of_apart (l := empty) es' .nil ((hperm.pairwise_iff Span.not_overlaps_symm).1 hes)
  have hedits : l.edits = l'.edits := by
    apply hsorted.eq_of_filter hsorted'
    intro span
    rw [hfilter, hfilter']
    exact filter_eq_of_insertsAt hperm hes hsame span
  obtain rfl : l = l' := congrArg EditList.mk hedits
  have hlists : ofEdits es = ofEdits es' := hfold.trans hfold'.symm
  refine ⟨⟨l, hcalls, hcalls', hl⟩, hlists, ?_⟩
  intro text region
  rw [hlists]

/-- Two insertions in front of a replacement and one behind it, recorded from both ends. -/
theorem recorded_in_any_order_edges :
    let es : List Edit :=
      [⟨⟨1, 1⟩, ['a']⟩, ⟨⟨1, 1⟩, ['b']⟩, ⟨⟨1, 2⟩, ['r']⟩, ⟨⟨2, 2⟩, ['c']⟩, ⟨⟨2, 3⟩, ['s']⟩]
    let es' : List Edit :=
      [⟨⟨2, 3⟩, ['s']⟩, ⟨⟨1, 2⟩, ['r']⟩, ⟨⟨1, 1⟩, ['a']⟩, ⟨⟨2, 2⟩, ['c']⟩, ⟨⟨1, 1⟩, ['b']⟩]
    es.Perm es' ∧ es.Pairwise (fun a b => a.span.overlaps b.span = false) ∧
      (∀ offset, es.filter (insertsAt offset) = es'.filter (insertsAt offset)) ∧
      ofEdits es = ofEdits es' ∧ (ofEdits es').edits = es := by
  intro es es'
  have hperm : es.Perm es' := by decide
  have hes : es.Pairwise (fun a b => a.span.overlaps b.span = false) := by decide
  have hsame : ∀ offset, es.filter (insertsAt offset) = es'.filter (insertsAt offset) := by
    intro offset
    by_cases h1 : 1 = offset
    · subst h1
      decide
    · by_cases h2 : 2 = offset
      · subst h2
        decide
      · simp [es, es', insertsAt, h1, h2]
  exact ⟨hperm, hes, hsame, (recorded_in_any_order hperm hes hsame).2.1, by decide⟩

end EditList

end FineGrain
