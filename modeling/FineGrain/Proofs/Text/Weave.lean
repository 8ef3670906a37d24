import FineGrain.Proofs.Text.Slice
import FineGrain.Text.Edit
import Mathlib.Data.List.TakeDrop
import Mathlib.Data.List.TakeWhile
/-!
What splicing answers. Edits that lie in order are recorded as they come, and splicing them in weaves
their texts into what stands between them; an edit that changes nothing may as well be left out.
-/

namespace FineGrain

open Text

variable {text : List Char} {a a' b b' c : Nat} {e : Edit} {es es' sites sites' : List Edit}

namespace Text

def covers (text : List Char) (span : Span) : Bool :=
  span.start ≤ span.stop && isBoundary text span.start && isBoundary text span.stop

theorem covers_iff {span : Span} : covers text span = true ↔
    span.start ≤ span.stop ∧ isBoundary text span.start = true ∧
      isBoundary text span.stop = true := by
  simp [covers, and_assoc]

theorem slice?_of_covers {span : Span} (h : covers text span = true) :
    slice? text span = some (slice text span) := by
  obtain ⟨hle, ha, hb⟩ := covers_iff.1 h
  obtain ⟨mid, hmid⟩ := exists_slice ha hb hle
  simp [slice, hmid]

theorem slice?_eq_slice (ha : isBoundary text a = true) (hb : isBoundary text b = true)
    (hab : a ≤ b) : slice? text ⟨a, b⟩ = some (slice text ⟨a, b⟩) :=
  slice?_of_covers (covers_iff.2 ⟨hab, ha, hb⟩)

theorem slice_self (ha : isBoundary text a = true) : slice text ⟨a, a⟩ = [] := by
  rw [slice, slice?_self ha, Option.getD_some]

theorem slice_append (ha : isBoundary text a = true) (hb : isBoundary text b = true)
    (hc : isBoundary text c = true) (hab : a ≤ b) (hbc : b ≤ c) :
    slice text ⟨a, b⟩ ++ slice text ⟨b, c⟩ = slice text ⟨a, c⟩ := by
  have hpre := slice?_eq_slice ha hb hab
  have hpost := slice?_eq_slice hb hc hbc
  have hall := slice?_eq_slice ha hc (Nat.le_trans hab hbc)
  rw [slice?_trans hpre hpost] at hall
  exact Option.some.inj hall

end Text

/-- The text between two offsets with the given replacements made in it. -/
def weave (text : List Char) (stop : Nat) : Nat → List Edit → List Char
  | a, [] => slice text ⟨a, stop⟩
  | a, e :: rest => slice text ⟨a, e.span.start⟩ ++ e.text ++ weave text stop e.span.stop rest

/-- The replacements lie in order between two offsets of the text. -/
def InOrder (text : List Char) (stop : Nat) : Nat → List Edit → Prop
  | a, [] => a ≤ stop
  | a, e :: rest =>
      a ≤ e.span.start ∧ covers text e.span = true ∧ InOrder text stop e.span.stop rest

theorem InOrder.le (h : InOrder text b a es) : a ≤ b := by
  induction es generalizing a with
  | nil => exact h
  | cons e es ih =>
    obtain ⟨ha, he, hrest⟩ := h
    have hstop := ih hrest
    have hspan := (covers_iff.1 he).1
    omega

theorem InOrder.mono (h : InOrder text b a es) (ha : a' ≤ a) (hb : b ≤ b') :
    InOrder text b' a' es := by
  induction es generalizing a a' with
  | nil =>
    have hab : a ≤ b := h
    exact Nat.le_trans (Nat.le_trans ha hab) hb
  | cons e es ih =>
    obtain ⟨hstart, he, hrest⟩ := h
    exact ⟨Nat.le_trans ha hstart, he, ih hrest (Nat.le_refl _)⟩

theorem InOrder.append (h : InOrder text b a es) (h' : InOrder text c b es') :
    InOrder text c a (es ++ es') := by
  induction es generalizing a with
  | nil =>
    have hab : a ≤ b := h
    exact h'.mono hab (Nat.le_refl _)
  | cons e es ih => exact ⟨h.1, h.2.1, ih h.2.2⟩

theorem InOrder.start_le (h : InOrder text b a es) (he : e ∈ es) : a ≤ e.span.start := by
  induction es generalizing a with
  | nil => cases he
  | cons e' es ih =>
    obtain ⟨ha, he', hrest⟩ := h
    have hspan := (covers_iff.1 he').1
    rcases List.mem_cons.1 he with rfl | he
    · exact ha
    · have hstart := ih hrest he
      omega

theorem InOrder.le_stop (h : InOrder text b a es) (he : e ∈ es) : e.span.stop ≤ b := by
  induction es generalizing a with
  | nil => cases he
  | cons e' es ih =>
    rcases List.mem_cons.1 he with rfl | he
    · exact h.2.2.le
    · exact ih h.2.2 he

theorem InOrder.start_le_stop (h : InOrder text b a es) (he : e ∈ es) :
    e.span.start ≤ e.span.stop := by
  induction es generalizing a with
  | nil => cases he
  | cons e' es ih =>
    rcases List.mem_cons.1 he with rfl | he
    · exact (covers_iff.1 h.2.1).1
    · exact ih h.2.2 he

theorem InOrder.before_and (h : InOrder text b a (es ++ e :: es')) :
    InOrder text e.span.start a es ∧ e.span.start ≤ e.span.stop := by
  induction es generalizing a with
  | nil => exact ⟨h.1, (covers_iff.1 h.2.1).1⟩
  | cons e' es ih =>
    obtain ⟨ha, he', hrest⟩ := h
    exact ⟨⟨ha, he', (ih hrest).1⟩, (ih hrest).2⟩

theorem weave_append (e : Edit) : weave text c a (es ++ e :: es') =
    weave text e.span.start a es ++ e.text ++ weave text c e.span.stop es' := by
  induction es generalizing a with
  | nil => rfl
  | cons e' es ih => simp [weave, ih]

theorem slice_weave (h : InOrder text c b es) (hab : a ≤ b) (ha : isBoundary text a = true)
    (hb : isBoundary text b = true) (hc : isBoundary text c = true) :
    slice text ⟨a, b⟩ ++ weave text c b es = weave text c a es := by
  cases es with
  | nil =>
    have hbc : b ≤ c := h
    exact slice_append ha hb hc hab hbc
  | cons e es =>
    obtain ⟨hbe, he, -⟩ := h
    obtain ⟨-, hstart, -⟩ := covers_iff.1 he
    simp only [weave, ← slice_append ha hb hstart hab hbe, List.append_assoc]

theorem weave_slice (h : InOrder text b a es) (hbc : b ≤ c) (ha : isBoundary text a = true)
    (hb : isBoundary text b = true) (hc : isBoundary text c = true) :
    weave text b a es ++ slice text ⟨b, c⟩ = weave text c a es := by
  induction es generalizing a with
  | nil =>
    have hab : a ≤ b := h
    exact slice_append ha hb hc hab hbc
  | cons e es ih =>
    obtain ⟨-, he, hrest⟩ := h
    obtain ⟨-, -, hstop⟩ := covers_iff.1 he
    simp only [weave, List.append_assoc, ih hrest hstop]

theorem splice_eq_weave (h : InOrder text b a es) (ha : isBoundary text a = true)
    (hb : isBoundary text b = true) : EditList.splice text b a es = some (weave text b a es) := by
  induction es generalizing a with
  | nil => exact slice?_eq_slice ha hb h
  | cons e es ih =>
    obtain ⟨hae, he, hrest⟩ := h
    obtain ⟨-, hstart, hstop⟩ := covers_iff.1 he
    simp only [EditList.splice, slice?_eq_slice ha hstart hae, ih hrest hstop, weave]
    rfl

namespace EditList

theorem replace_append (h : InOrder text b a es) (hb : b ≤ e.span.start)
    (he : e.span.start ≤ e.span.stop) : replace ⟨es⟩ e.span e.text = ⟨es ++ [e]⟩ := by
  have hbefore : ∀ e' ∈ es, e'.span.stop ≤ e.span.start := fun e' he' =>
    Nat.le_trans (h.le_stop he') hb
  have hle : ∀ e' ∈ es, e'.span.le e.span = true := by
    intro e' he'
    have hstop := hbefore e' he'
    have hspan := h.start_le_stop he'
    simp only [Span.le, Bool.or_eq_true, Bool.and_eq_true, decide_eq_true_eq, beq_iff_eq]
    omega
  have hlast : es.getLast?.any (fun e' => e'.span.overlaps e.span) = false := by
    cases hl : es.getLast? with
    | none => rfl
    | some e' =>
      have hstop := hbefore e' (List.mem_of_getLast? hl)
      simp [Span.overlaps]
      omega
  have hsplit : splitAt ⟨es⟩ e.span = (es, []) := by
    simp [splitAt, List.span_eq_takeWhile_dropWhile, List.takeWhile_eq_self_iff.2 hle,
      List.dropWhile_eq_nil_iff.2 hle]
  simp [replace, replace?, hsplit, blocked, hlast]

theorem foldl_replace (h : InOrder text b a (es ++ es')) :
    es'.foldl (fun l e => replace l e.span e.text) ⟨es⟩ = ⟨es ++ es'⟩ := by
  induction es' generalizing es with
  | nil => simp
  | cons e es' ih =>
    obtain ⟨hes, he⟩ := h.before_and
    rw [List.foldl_cons, replace_append hes (Nat.le_refl _) he,
      ih (by rwa [List.append_assoc, List.singleton_append]), List.append_assoc,
      List.singleton_append]

theorem ofEdits_inOrder (h : InOrder text b a es) : ofEdits es = ⟨es⟩ :=
  foldl_replace (show InOrder text b a ([] ++ es) from h)

theorem insert_front {t : List Char} (hes : ∀ e ∈ es, a ≤ e.span.start ∧ a < e.span.stop) :
    replace ⟨es⟩ (Span.point a) t = ⟨⟨Span.point a, t⟩ :: es⟩ := by
  cases es with
  | nil => rfl
  | cons e es =>
    obtain ⟨hstart, hstop⟩ := hes e List.mem_cons_self
    have hpoint : (Span.point a).start = a ∧ (Span.point a).stop = a := ⟨rfl, rfl⟩
    have hle : e.span.le (Span.point a) = false := by
      refine Bool.eq_false_iff.2 fun hle => ?_
      simp only [Span.le, Bool.or_eq_true, Bool.and_eq_true, decide_eq_true_eq,
        beq_iff_eq] at hle
      omega
    have hover : e.span.overlaps (Span.point a) = false := by
      refine Bool.eq_false_iff.2 fun hover => ?_
      simp only [Span.overlaps, Bool.and_eq_true, decide_eq_true_eq] at hover
      omega
    have hsplit : splitAt ⟨e :: es⟩ (Span.point a) = ([], e :: es) := by
      simp [splitAt, List.span_eq_takeWhile_dropWhile, hle]
    simp [replace, replace?, hsplit, blocked, hover]

theorem inside_inOrder (h : InOrder text b a es) : inside ⟨es⟩ ⟨a, b⟩ = es := by
  refine List.filter_eq_self.2 fun e he => ?_
  simp [h.start_le he, h.le_stop he]

theorem spliceIn_eq_weave (h : InOrder text b a es) (ha : isBoundary text a = true)
    (hb : isBoundary text b = true) : spliceIn ⟨es⟩ text ⟨a, b⟩ = weave text b a es := by
  simp [spliceIn, spliceIn?, inside_inOrder h, splice_eq_weave h ha hb]

end EditList

/-- `sites` lie in order and are not empty, and `es` are those of them that change the text. -/
inductive Laid (text : List Char) (stop : Nat) : Nat → List Edit → List Edit → Prop where
  | nil {a : Nat} (ha : a ≤ stop) : Laid text stop a [] []
  | edit {a : Nat} {e : Edit} {es sites : List Edit} (ha : a ≤ e.span.start) (hspan : e.span.start < e.span.stop)
      (he : covers text e.span = true) (rest : Laid text stop e.span.stop es sites) :
      Laid text stop a (e :: es) (e :: sites)
  | same {a : Nat} {e : Edit} {es sites : List Edit} (ha : a ≤ e.span.start) (hspan : e.span.start < e.span.stop)
      (he : covers text e.span = true) (htext : slice text e.span = e.text)
      (rest : Laid text stop e.span.stop es sites) : Laid text stop a es (e :: sites)

namespace Laid

theorem le (h : Laid text b a es sites) : a ≤ b := by
  induction h with
  | nil ha => exact ha
  | edit ha hspan _ _ ih => omega
  | same ha hspan _ _ _ ih => omega

theorem mono (h : Laid text b a es sites) (ha : a' ≤ a) (hb : b ≤ b') :
    Laid text b' a' es sites := by
  induction h generalizing a' with
  | nil hab => exact .nil (Nat.le_trans (Nat.le_trans ha hab) hb)
  | edit hstart hspan he _ ih =>
    exact .edit (Nat.le_trans ha hstart) hspan he (ih (Nat.le_refl _))
  | same hstart hspan he htext _ ih =>
    exact .same (Nat.le_trans ha hstart) hspan he htext (ih (Nat.le_refl _))

theorem append (h : Laid text b a es sites) (h' : Laid text c b es' sites') :
    Laid text c a (es ++ es') (sites ++ sites') := by
  induction h with
  | nil ha => exact h'.mono ha (Nat.le_refl _)
  | edit ha hspan he _ ih => exact .edit ha hspan he ih
  | same ha hspan he htext _ ih => exact .same ha hspan he htext ih

theorem inOrder (h : Laid text b a es sites) : InOrder text b a es := by
  induction h with
  | nil ha => exact ha
  | edit ha _ he _ ih => exact ⟨ha, he, ih⟩
  | same ha hspan _ _ _ ih => exact ih.mono (by omega) (Nat.le_refl _)

theorem sites_inOrder (h : Laid text b a es sites) : InOrder text b a sites := by
  induction h with
  | nil ha => exact ha
  | edit ha _ he _ ih => exact ⟨ha, he, ih⟩
  | same ha _ he _ _ ih => exact ⟨ha, he, ih⟩

theorem ahead (h : Laid text b a es sites) : ∀ e ∈ es, a ≤ e.span.start ∧ a < e.span.stop := by
  induction h with
  | nil _ => simp
  | edit ha hspan _ _ ih =>
    intro e he
    rcases List.mem_cons.1 he with rfl | he
    · omega
    · have hrest := ih e he
      omega
  | same ha hspan _ _ _ ih =>
    intro e he
    have hrest := ih e he
    omega

theorem weave_eq (h : Laid text b a es sites) (ha : isBoundary text a = true)
    (hb : isBoundary text b = true) : weave text b a es = weave text b a sites := by
  induction h with
  | nil _ => rfl
  | edit _ _ he _ ih =>
    obtain ⟨-, -, hstop⟩ := covers_iff.1 he
    simp only [weave, ih hstop]
  | @same a e es sites hae hspan he htext rest ih =>
    obtain ⟨-, hstart, hstop⟩ := covers_iff.1 he
    calc weave text b a es
        = slice text ⟨a, e.span.start⟩ ++ weave text b e.span.start es :=
          (slice_weave (rest.inOrder.mono (Nat.le_of_lt hspan) (Nat.le_refl _)) hae ha hstart
            hb).symm
      _ = slice text ⟨a, e.span.start⟩ ++
            (slice text ⟨e.span.start, e.span.stop⟩ ++ weave text b e.span.stop es) := by
          rw [slice_weave rest.inOrder (Nat.le_of_lt hspan) hstart hstop hb]
      _ = weave text b a (e :: sites) := by
          simp only [weave, ih hstop, ← htext, List.append_assoc]

end Laid

namespace EditList

theorem spliceIn_laid (h : Laid text b a es sites) (ha : isBoundary text a = true)
    (hb : isBoundary text b = true) :
    (ofEdits es).spliceIn text ⟨a, b⟩ = weave text b a sites := by
  rw [ofEdits_inOrder h.inOrder, spliceIn_eq_weave h.inOrder ha hb, h.weave_eq ha hb]

theorem inOrder_point {t : List Char} (h : InOrder text c b es) (hab : a ≤ b)
    (hb : isBoundary text b = true) : InOrder text c a (⟨Span.point b, t⟩ :: es) :=
  ⟨hab, covers_iff.2 ⟨Nat.le_refl _, hb, hb⟩, h⟩

theorem spliceIn_insert {o : Nat} {t : List Char} (h : Laid text b o es sites) (hao : a ≤ o)
    (hbc : b ≤ c) (ha : isBoundary text a = true) (ho : isBoundary text o = true)
    (hc : isBoundary text c = true) :
    (ofEdits (es ++ [⟨Span.point o, t⟩])).spliceIn text ⟨a, c⟩ =
      slice text ⟨a, o⟩ ++ t ++ weave text c o sites := by
  have hlaid := h.mono (Nat.le_refl o) hbc
  have hrecorded : ofEdits (es ++ [⟨Span.point o, t⟩]) = ⟨⟨Span.point o, t⟩ :: es⟩ := by
    rw [ofEdits, List.foldl_append]
    simp only [List.foldl_cons, List.foldl_nil]
    rw [← ofEdits, ofEdits_inOrder h.inOrder, insert_front h.ahead]
  rw [hrecorded, spliceIn_eq_weave (inOrder_point hlaid.inOrder hao ho) ha hc, weave]
  exact congrArg _ (hlaid.weave_eq ho hc)

theorem spliceIn_wrap {o : Nat} {t u : List Char} (h : Laid text b o es sites) (hao : a ≤ o)
    (hbc : b ≤ c) (ha : isBoundary text a = true) (ho : isBoundary text o = true)
    (hb : isBoundary text b = true) (hc : isBoundary text c = true) :
    (ofEdits (es ++ [⟨Span.point o, t⟩, ⟨Span.point b, u⟩])).spliceIn text ⟨a, c⟩ =
      slice text ⟨a, o⟩ ++ t ++ (weave text b o sites ++ u ++ slice text ⟨b, c⟩) := by
  have hfront : InOrder text b a (⟨Span.point o, t⟩ :: es) := inOrder_point h.inOrder hao ho
  have hrecorded : ofEdits (es ++ [⟨Span.point o, t⟩, ⟨Span.point b, u⟩]) =
      ⟨⟨Span.point o, t⟩ :: es ++ [⟨Span.point b, u⟩]⟩ := by
    rw [ofEdits, List.foldl_append]
    simp only [List.foldl_cons, List.foldl_nil]
    rw [← ofEdits, ofEdits_inOrder h.inOrder, insert_front h.ahead]
    exact replace_append (e := ⟨Span.point b, u⟩) hfront (Nat.le_refl _) (Nat.le_refl _)
  have hwrapped : InOrder text c a (⟨Span.point o, t⟩ :: es ++ [⟨Span.point b, u⟩]) :=
    hfront.append (inOrder_point (show InOrder text c b [] from hbc) (Nat.le_refl _) hb)
  rw [hrecorded, spliceIn_eq_weave hwrapped ha hc, List.cons_append, weave, weave_append,
    ← h.weave_eq ho hb]
  rfl

end EditList

end FineGrain
