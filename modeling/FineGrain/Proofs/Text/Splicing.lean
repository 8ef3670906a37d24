import FineGrain.Proofs.Text.Recording
import FineGrain.Proofs.Text.Weave
/-!
Splicing in one pass. Recorded edits that lie in a region lie in order there, so the pass over them
never goes back and never cuts off a boundary. What it answers is what the same edits make of the
text when they are carried out one at a time, the last one first, so that no edit moves the text in
front of it.
-/

namespace FineGrain

open Text

variable {text part part' : List Char} {a b i : Nat} {e : Edit} {es : List Edit} {region : Span}

namespace Text

theorem isBoundary_zero : isBoundary text 0 = true := by
  simp [isBoundary, dropBytes]

theorem isBoundary_append (part rest : List Char) :
    isBoundary (part ++ rest) (byteLength part) = true := by
  rw [isBoundary, dropBytes_append]
  rfl

theorem isBoundary_byteLength : isBoundary text (byteLength text) = true := by
  simpa using isBoundary_append text []

theorem le_byteLength (h : isBoundary text a = true) : a ≤ byteLength text := by
  obtain ⟨rest, hrest⟩ := Option.isSome_iff_exists.1 h
  obtain ⟨pre, rfl, hpre⟩ := dropBytes_eq_some hrest
  rw [byteLength_append]
  omega

theorem slice_all : slice text ⟨0, byteLength text⟩ = text := by
  have hall : slice? text ⟨0, byteLength text⟩ = some text :=
    slice?_eq_some_iff.2 ⟨[], [], by simp, rfl, by simp⟩
  rw [slice, hall, Option.getD_some]

theorem slice_append_append (pre mid rest : List Char) :
    slice (pre ++ mid ++ rest) ⟨byteLength pre, byteLength pre + byteLength mid⟩ = mid := by
  have hslice : slice? (pre ++ mid ++ rest) ⟨byteLength pre, byteLength pre + byteLength mid⟩ =
      some mid := slice?_eq_some_iff.2 ⟨pre, rest, rfl, rfl, rfl⟩
  rw [slice, hslice, Option.getD_some]

theorem byteLength_slice (ha : isBoundary text a = true) (hb : isBoundary text b = true)
    (hab : a ≤ b) : a + byteLength (slice text ⟨a, b⟩) = b := by
  obtain ⟨pre, rest, -, -, hlength⟩ := slice?_eq_some_iff.1 (slice?_eq_slice ha hb hab)
  exact hlength

theorem byteLength_front (hb : isBoundary text b = true) :
    byteLength (slice text ⟨0, b⟩) = b := by
  have hlength := byteLength_slice isBoundary_zero hb (Nat.zero_le b)
  omega

end Text

/-- The text with this edit carried out, if its span is a part of the text. -/
def Edit.carryOut? (e : Edit) (text : List Char) : Option (List Char) :=
  (takeBytes e.span.start text).bind fun before =>
    (dropBytes e.span.stop text).map fun after => before ++ e.text ++ after

theorem carryOut?_front (he : covers text e.span = true) (tail : List Char) :
    e.carryOut? (slice text ⟨0, e.span.stop⟩ ++ tail) =
      some (slice text ⟨0, e.span.start⟩ ++ e.text ++ tail) := by
  obtain ⟨hle, hstart, hstop⟩ := covers_iff.1 he
  have htake := takeBytes_append (slice text ⟨0, e.span.start⟩)
    (slice text ⟨e.span.start, e.span.stop⟩ ++ tail)
  rw [byteLength_front hstart, ← List.append_assoc,
    slice_append isBoundary_zero hstart hstop (Nat.zero_le _) hle] at htake
  have hdrop := dropBytes_append (slice text ⟨0, e.span.stop⟩) tail
  rw [byteLength_front hstop] at hdrop
  rw [Edit.carryOut?, htake, hdrop]
  rfl

theorem foldrM_carryOut? (h : InOrder text b a es) (ha : isBoundary text a = true)
    (hb : isBoundary text b = true) : es.foldrM Edit.carryOut? text =
      some (slice text ⟨0, a⟩ ++ weave text b a es ++ slice text ⟨b, byteLength text⟩) := by
  have hend : isBoundary text (byteLength text) = true := isBoundary_byteLength
  induction es generalizing a with
  | nil =>
    have hab : a ≤ b := h
    rw [weave, slice_append isBoundary_zero ha hb (Nat.zero_le _) hab,
      slice_append isBoundary_zero hb hend (Nat.zero_le _) (le_byteLength hb), slice_all]
    rfl
  | cons e es ih =>
    obtain ⟨hae, he, hrest⟩ := h
    obtain ⟨-, hstart, hstop⟩ := covers_iff.1 he
    rw [List.foldrM_cons, ih hrest hstop, List.append_assoc]
    change e.carryOut? _ = _
    rw [carryOut?_front he, ← slice_append isBoundary_zero ha hstart (Nat.zero_le _) hae, weave]
    simp only [List.append_assoc]

/-- The characters of a text with their offsets, the first one at `i`. -/
def offsets : Nat → List Char → List (Nat × Char)
  | _, [] => []
  | i, c :: rest => (i, c) :: offsets (i + c.utf8Size) rest

/-- The characters that no edit replaces, in order. -/
def uncovered (es : List Edit) (i : Nat) (part : List Char) : List Char :=
  ((offsets i part).filter fun p =>
    !es.any fun e => e.span.start ≤ p.1 && p.1 < e.span.stop).map Prod.snd

theorem offsets_append : offsets i (part ++ part') =
    offsets i part ++ offsets (i + byteLength part) part' := by
  induction part generalizing i with
  | nil => rfl
  | cons c part ih => simp [offsets, byteLength, ih, Nat.add_assoc]

theorem map_snd_offsets : (offsets i part).map Prod.snd = part := by
  induction part generalizing i with
  | nil => rfl
  | cons c part ih => simp [offsets, ih]

theorem mem_offsets {p : Nat × Char} (hp : p ∈ offsets i part) :
    i ≤ p.1 ∧ p.1 < i + byteLength part := by
  induction part generalizing i with
  | nil => cases hp
  | cons c part ih =>
    have hc := c.utf8Size_pos
    rw [byteLength]
    rcases List.mem_cons.1 hp with rfl | hp
    · exact ⟨Nat.le_refl i, by omega⟩
    · have hrest := ih hp
      omega

theorem uncovered_append : uncovered es i (part ++ part') =
    uncovered es i part ++ uncovered es (i + byteLength part) part' := by
  rw [uncovered, offsets_append, List.filter_append, List.map_append]
  rfl

theorem uncovered_eq_self (h : ∀ e ∈ es, i + byteLength part ≤ e.span.start) :
    uncovered es i part = part := by
  have hkeep : (offsets i part).filter (fun p =>
      !es.any fun e => e.span.start ≤ p.1 && p.1 < e.span.stop) = offsets i part := by
    refine List.filter_eq_self.2 fun p hp => ?_
    have hlt := (mem_offsets hp).2
    simp only [Bool.not_eq_true', List.any_eq_false, Bool.and_eq_true, decide_eq_true_eq]
    intro e he
    have hstart := h e he
    omega
  rw [uncovered, hkeep, map_snd_offsets]

theorem uncovered_eq_nil (hstart : e.span.start ≤ i) (hstop : i + byteLength part ≤ e.span.stop) :
    uncovered (e :: es) i part = [] := by
  rw [uncovered, List.map_eq_nil_iff, List.filter_eq_nil_iff]
  intro p hp
  have hin := mem_offsets hp
  have hcover : e.span.start ≤ p.1 ∧ p.1 < e.span.stop := by omega
  simp [hcover]

theorem uncovered_cons (h : e.span.stop ≤ i) : uncovered (e :: es) i part = uncovered es i part := by
  rw [uncovered, uncovered]
  congr 1
  refine List.filter_congr fun p hp => ?_
  have hle := (mem_offsets hp).1
  have hnot : ¬ p.1 < e.span.stop := by omega
  simp [hnot]

/-- The parts of the text that stand before, between and behind the replacements. -/
def keptParts (text : List Char) (stop : Nat) : Nat → List Edit → List (List Char)
  | a, [] => [slice text ⟨a, stop⟩]
  | a, e :: rest => slice text ⟨a, e.span.start⟩ :: keptParts text stop e.span.stop rest

/-- The texts `ts` put between the parts `ks`. -/
def interleave : List (List Char) → List (List Char) → List Char
  | k :: ks, t :: ts => k ++ t ++ interleave ks ts
  | ks, _ => ks.flatten

theorem length_keptParts : (keptParts text b a es).length = es.length + 1 := by
  induction es generalizing a with
  | nil => rfl
  | cons e es ih => simp [keptParts, ih]

theorem interleave_keptParts :
    interleave (keptParts text b a es) (es.map (·.text)) = weave text b a es := by
  induction es generalizing a with
  | nil => simp [keptParts, interleave, weave]
  | cons e es ih => simp [keptParts, interleave, weave, ih]

theorem flatten_keptParts (h : InOrder text b a es) (ha : isBoundary text a = true)
    (hb : isBoundary text b = true) :
    (keptParts text b a es).flatten = uncovered es a (slice text ⟨a, b⟩) := by
  induction es generalizing a with
  | nil =>
    rw [uncovered_eq_self (by simp)]
    simp [keptParts]
  | cons e es ih =>
    obtain ⟨hae, he, hrest⟩ := h
    obtain ⟨hle, hstart, hstop⟩ := covers_iff.1 he
    have hfront := byteLength_slice ha hstart hae
    have hmiddle := byteLength_slice hstart hstop hle
    have hbefore : ∀ e' ∈ e :: es, a + byteLength (slice text ⟨a, e.span.start⟩) ≤ e'.span.start := by
      intro e' he'
      rw [hfront]
      rcases List.mem_cons.1 he' with rfl | he'
      · exact Nat.le_refl _
      · exact Nat.le_trans hle (hrest.start_le he')
    rw [← slice_append ha hstart hb hae (Nat.le_trans hle hrest.le),
      ← slice_append hstart hstop hb hle hrest.le, uncovered_append, uncovered_append, hfront,
      hmiddle, uncovered_eq_self hbefore, uncovered_eq_nil (Nat.le_refl _) (Nat.le_of_eq hmiddle),
      uncovered_cons (Nat.le_refl _), ← ih hrest hstop, List.nil_append]
    rfl

/-- The removals of inserted texts, in a text that `n` bytes were put into before. -/
def removals : Nat → List Edit → List Edit
  | _, [] => []
  | n, e :: rest =>
      ⟨⟨e.span.start + n, e.span.start + n + byteLength e.text⟩, []⟩ ::
        removals (n + byteLength e.text) rest

theorem weave_removals {pre : List Char} {n : Nat} (h : InOrder text b a es)
    (hpoint : ∀ e ∈ es, e.span.stop = e.span.start) (ha : isBoundary text a = true)
    (hb : isBoundary text b = true) (hpre : byteLength pre = a + n) :
    InOrder (pre ++ weave text b a es) (byteLength (pre ++ weave text b a es)) (a + n)
        (removals n es) ∧
      weave (pre ++ weave text b a es) (byteLength (pre ++ weave text b a es)) (a + n)
        (removals n es) = slice text ⟨a, b⟩ := by
  -- What was woven so far goes to the front, which is `n` bytes longer than the text up to `a`.
  induction es generalizing a pre n with
  | nil =>
    have hslice := slice_append_append pre (weave text b a []) []
    rw [List.append_nil, ← byteLength_append, hpre] at hslice
    refine ⟨?_, hslice⟩
    rw [removals, InOrder, byteLength_append]
    omega
  | cons e es ih =>
    obtain ⟨hae, he, hrest⟩ := h
    obtain ⟨hspan, hpoint⟩ := List.forall_mem_cons.1 hpoint
    obtain ⟨-, hstart, -⟩ := covers_iff.1 he
    rw [hspan] at hrest
    have hmid := byteLength_slice ha hstart hae
    have hfront : byteLength (pre ++ slice text ⟨a, e.span.start⟩) = e.span.start + n := by
      rw [byteLength_append]
      omega
    have hnext : byteLength (pre ++ slice text ⟨a, e.span.start⟩ ++ e.text) =
        e.span.start + (n + byteLength e.text) := by
      rw [byteLength_append, hfront, Nat.add_assoc]
    obtain ⟨horder, hweave⟩ := ih hrest hpoint hstart hnext
    have hwhole : pre ++ weave text b a (e :: es) =
        pre ++ slice text ⟨a, e.span.start⟩ ++ e.text ++ weave text b e.span.start es := by
      rw [weave, hspan]
      simp only [List.append_assoc]
    have hkept := slice_append_append pre (slice text ⟨a, e.span.start⟩)
      (e.text ++ weave text b e.span.start es)
    have hbefore := isBoundary_append (pre ++ slice text ⟨a, e.span.start⟩)
      (e.text ++ weave text b e.span.start es)
    have hbehind := isBoundary_append (pre ++ slice text ⟨a, e.span.start⟩ ++ e.text)
      (weave text b e.span.start es)
    rw [← byteLength_append, hfront, hpre, ← List.append_assoc] at hkept
    rw [hfront, ← List.append_assoc] at hbefore
    rw [hnext] at hbehind
    rw [hwhole, removals, InOrder, weave, hkept, Nat.add_assoc, hweave, List.append_nil,
      slice_append ha hstart hb hae hrest.le]
    refine ⟨⟨?_, covers_iff.2 ⟨?_, hbefore, hbehind⟩, horder⟩, rfl⟩
    · exact Nat.add_le_add_right hae n
    · exact Nat.add_le_add_left (Nat.le_add_right _ _) _

namespace EditList

theorem inOrder_of_follow (hab : a ≤ b) (hes : ∀ e ∈ es, covers text e.span = true)
    (hin : ∀ e ∈ es, a ≤ e.span.start ∧ e.span.stop ≤ b)
    (hfollow : es.Pairwise fun a b => a.span.stop ≤ b.span.start) : InOrder text b a es := by
  induction es generalizing a with
  | nil => exact hab
  | cons e es ih =>
    obtain ⟨he, hes⟩ := List.forall_mem_cons.1 hes
    obtain ⟨hspan, hin⟩ := List.forall_mem_cons.1 hin
    obtain ⟨hnext, hfollow⟩ := List.pairwise_cons.1 hfollow
    refine ⟨hspan.1, he, ih hspan.2 hes ?_ hfollow⟩
    intro e' he'
    exact ⟨hnext e' he', (hin e' he').2⟩

theorem spliceIn?_ofEdits (h : InOrder text b a es) (ha : isBoundary text a = true)
    (hb : isBoundary text b = true) : (ofEdits es).spliceIn? text ⟨a, b⟩ = some (weave text b a es) := by
  rw [ofEdits_inOrder h, spliceIn?, inside_inOrder h]
  exact splice_eq_weave h ha hb

theorem inOrder_inside {calls : List Edit} (hcalls : ∀ e ∈ calls, covers text e.span = true)
    (hregion : region.start ≤ region.stop) :
    InOrder text region.stop region.start ((ofEdits calls).inside region) := by
  have hranges : ∀ e ∈ calls, e.span.start ≤ e.span.stop := by
    intro e he
    exact (covers_iff.1 (hcalls e he)).1
  apply inOrder_of_follow hregion
  · intro e he
    exact hcalls e (mem_of_mem_ofEdits hranges (List.mem_filter.1 he).1)
  · intro e he
    simpa using (List.mem_filter.1 he).2
  · exact (wellFormed_ofEdits hranges).1.follow.filter _

/-- The pass over recorded edits always finds its cuts. It carries out the edits that lie wholly in the
region, as one at a time from the last to the first would; what these leave of the region stays, each
character once and in order; and the other edits might as well not have been recorded. -/
theorem spliced_in_one_pass (text : List Char) (calls : List Edit)
    (hcalls : ∀ e ∈ calls, covers text e.span = true) (region : Span)
    (hregion : covers text region = true) :
    let edits := (ofEdits calls).inside region
    ∃ out, (ofEdits calls).spliceIn? text region = some out ∧
      edits.foldrM Edit.carryOut? text =
        some (slice text ⟨0, region.start⟩ ++ out ++
          slice text ⟨region.stop, byteLength text⟩) ∧
      (∃ parts, parts.length = edits.length + 1 ∧ out = interleave parts (edits.map (·.text)) ∧
        parts.flatten = uncovered edits region.start (slice text region)) ∧
      (ofEdits edits).spliceIn? text region = some out := by
  intro edits
  obtain ⟨hle, hstart, hstop⟩ := covers_iff.1 hregion
  have horder : InOrder text region.stop region.start edits := inOrder_inside hcalls hle
  have hsplice : splice text region.stop region.start edits =
    some (weave text region.stop region.start edits) := splice_eq_weave horder hstart hstop
  refine ⟨_, hsplice, foldrM_carryOut? horder hstart hstop, ?_, ?_⟩
  · exact ⟨_, length_keptParts, interleave_keptParts.symm, flatten_keptParts horder hstart hstop⟩
  · exact spliceIn?_ofEdits horder hstart hstop

/-- A region that starts and ends with wide characters, with insertions at its end and before a
replacement, one edit that reaches out of it and one behind it. -/
theorem spliced_in_one_pass_wide :
    let text := "aéb(é)c".toList
    let calls : List Edit := [⟨⟨3, 4⟩, ['B']⟩, ⟨⟨3, 3⟩, ['<']⟩, ⟨⟨7, 7⟩, ['>']⟩, ⟨⟨0, 3⟩, ['x']⟩,
      ⟨⟨8, 9⟩, ['y']⟩]
    (∀ e ∈ calls, covers text e.span = true) ∧ covers text ⟨1, 7⟩ = true ∧
      (ofEdits calls).spliceIn? text ⟨1, 7⟩ = some "é<B(é>".toList ∧
      ((ofEdits calls).inside ⟨1, 7⟩).foldrM Edit.carryOut? text = some "aé<B(é>)c".toList := by
  intro text calls
  have hcalls : ∀ e ∈ calls, covers text e.span = true := by decide
  have hregion : covers text ⟨1, 7⟩ = true := by decide
  obtain ⟨out, hout, hcarried, -, -⟩ := spliced_in_one_pass text calls hcalls ⟨1, 7⟩ hregion
  have htext : (ofEdits calls).spliceIn? text ⟨1, 7⟩ = some "é<B(é>".toList := by decide
  obtain rfl : out = "é<B(é>".toList := Option.some.inj (hout.symm.trans htext)
  exact ⟨hcalls, hregion, htext, hcarried⟩

end EditList

end FineGrain
