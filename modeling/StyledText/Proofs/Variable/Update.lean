import StyledText.Proofs.Variable.Clip
import Mathlib.Data.List.Forall2

/-!
# What an update changes

An update replaces the clips and nothing else.

* `editRuns_edited` follows the cursor through the runs, wherever the range cuts them. Its invariant
  is `Queued`: the edits still open are in order, end behind the cursor, and no run meets two of
  them. `Run.Edited` is what comes of each run.
* `editRuns_spec` says more for clips that cut at boundaries (`Pending`): `Replaced` of the
  characters, `Run.Rewritten` of a single run.
* `updated_rewrites_clips` is the result for a whole text.
-/

namespace StyledText

open Variable

/-! ## One run -/

namespace Run

/-- What is left of a run; nothing is left of no characters. -/
def remainder (r : Run) (cs : List Char) : List Run :=
  if cs = [] then [] else [{ r with text := String.ofList cs }]

theorem chars_mk (text : String) (attributes : Attributes) :
    Run.chars ⟨text, attributes⟩ = text.toList := rfl

/-- A remainder has the characters that remain. -/
theorem flatMap_chars_remainder (r : Run) (cs : List Char) :
    (r.remainder cs).flatMap Run.chars = cs := by
  unfold remainder
  split
  · next h => rw [h, List.flatMap_nil]
  · simp [Run.chars]

/-- All of a run remains as it is. -/
theorem remainder_chars {r : Run} (h : ¬ r.isEmpty) : r.remainder r.chars = [r] := by
  have hne : r.chars ≠ [] := fun hnil => h (isEmpty_iff.2 hnil)
  rw [remainder, if_neg hne, chars, String.ofList_toList]

/-- Between two boundaries a part remains. -/
theorem between_eq_remainder {r : Run} {left part right : List Char} {base start stop : Nat}
    (hsplit : r.chars = left ++ part ++ right) (hstart : start = base + Chars.byteLength left)
    (hstop : stop = start + Chars.byteLength part) :
    r.between base start stop = r.remainder part := by
  have hslice : Chars.slice? (start - base) (stop - base) r.chars = some part :=
    Chars.slice?_eq_some_iff.2 ⟨left, right, hsplit, by omega, by omega⟩
  unfold between remainder
  rw [hslice]
  cases part with
  | nil => rfl
  | cons c cs => simp

/-- Between its ends all of a run remains. -/
theorem between_self {r : Run} (base : Nat) (h : ¬ r.isEmpty) :
    r.between base base (base + r.length) = [r] := by
  have hall : r.chars = [] ++ r.chars ++ [] := by simp
  exact (between_eq_remainder hall (Nat.add_zero base).symm rfl).trans (remainder_chars h)

/-- What the cursor leaves of a run that stands at `place`, where the clips may cut through
characters. -/
inductive Edited (clips : List Edit) (place : ByteRange) (r : Run) : List Run → Prop
  /-- No clip has a byte in the run. -/
  | kept (apart : ∀ e ∈ clips, ¬ e.range.Meets place) : Edited clips place r [r]
  /-- One clip has. Its value is written where the clip starts. -/
  | cut {e : Edit} (mem : e ∈ clips) (meets : e.range.Meets place)
      (only : ∀ f ∈ clips, f.range.Meets place → f = e) :
      Edited clips place r
        ((if place.contains e.range.start then
            r.between place.start place.start e.range.start ++ [r.withValue e.value]
          else []) ++
          r.between place.start (min place.stop e.range.stop) place.stop)

/-- How a run that stands at `place` comes out when the clips are replaced. -/
inductive Rewritten (clips : List Edit) (place : ByteRange) (r : Run) : List Run → Prop
  /-- No clip has a byte in the run. -/
  | kept (apart : ∀ e ∈ clips, ¬ e.range.Meets place) : Rewritten clips place r [r]
  /-- One clip takes `old` out of the run. Its value is written where the clip starts. -/
  | cut {e : Edit} {left old right : List Char} (mem : e ∈ clips) (meets : e.range.Meets place)
      (only : ∀ f ∈ clips, f.range.Meets place → f = e) (split : r.chars = left ++ old ++ right)
      (start : place.start + Chars.byteLength left = max place.start e.range.start)
      (stop : min place.stop e.range.stop + Chars.byteLength right = place.stop) :
      Rewritten clips place r
        (r.remainder left ++
          (if place.contains e.range.start then
            [{ text := e.value
               attributes := r.attributes.insert .variableValue (.text e.value) }]
          else []) ++
          r.remainder right)

section Congr

variable {clips clips' : List Edit} {place : ByteRange} {r : Run} {out : List Run}

/-- Only the clips with a byte in the run have a part in it. -/
theorem Edited.congr (h : r.Edited clips place out)
    (hsame : ∀ e : Edit, e.range.Meets place → (e ∈ clips ↔ e ∈ clips')) :
    r.Edited clips' place out := by
  cases h with
  | kept apart => exact .kept fun e he hmeets => apart e ((hsame e hmeets).2 he) hmeets
  | cut mem meets only =>
    refine .cut ((hsame _ meets).1 mem) meets ?_
    exact fun f hf hmeets => only f ((hsame f hmeets).2 hf) hmeets

/-- Only the clips that a run meets matter to it. -/
theorem Rewritten.congr (h : r.Rewritten clips place out)
    (hsame : ∀ e : Edit, e.range.Meets place → (e ∈ clips ↔ e ∈ clips')) :
    r.Rewritten clips' place out := by
  cases h with
  | kept apart => exact .kept fun e he hmeets => apart e ((hsame e hmeets).2 he) hmeets
  | cut mem meets only split start stop =>
    refine .cut ((hsame _ meets).1 mem) meets ?_ split start stop
    exact fun f hf hmeets => only f ((hsame f hmeets).2 hf) hmeets

end Congr

/-- A clip that cuts a run at boundaries leaves what is left and right of it. -/
theorem cut_eq_of_split {r : Run} {base : Nat} {e : Edit} {left old right : List Char}
    (hmeets : e.range.Meets ⟨base, base + r.length⟩) (hsplit : r.chars = left ++ old ++ right)
    (hleft : base + Chars.byteLength left = max base e.range.start)
    (hold : base + Chars.byteLength left + Chars.byteLength old =
      min (base + r.length) e.range.stop)
    (hright : min (base + r.length) e.range.stop + Chars.byteLength right = base + r.length) :
    (if ByteRange.contains ⟨base, base + r.length⟩ e.range.start then
        r.between base base e.range.start ++ [r.withValue e.value]
      else []) ++ r.between base (min (base + r.length) e.range.stop) (base + r.length) =
      r.remainder left ++
        (if ByteRange.contains ⟨base, base + r.length⟩ e.range.start then [r.withValue e.value]
        else []) ++
        r.remainder right := by
  rw [ByteRange.meets_iff] at hmeets
  simp only at hmeets
  have hlast : r.between base (min (base + r.length) e.range.stop) (base + r.length) =
      r.remainder right := by
    have hlast : r.chars = (left ++ old) ++ right ++ [] := by simp [hsplit]
    refine between_eq_remainder hlast ?_ hright.symm
    rw [Chars.byteLength_append]
    omega
  rw [hlast]
  -- The value is written in the run where the clip starts, and in no later one.
  by_cases hin : ByteRange.contains ⟨base, base + r.length⟩ e.range.start
  · rw [ByteRange.contains_iff] at hin
    simp only at hin
    have hfirst : r.chars = [] ++ left ++ (old ++ right) := by simp [hsplit]
    rw [if_pos (ByteRange.contains_iff.2 hin), if_pos (ByteRange.contains_iff.2 hin),
      between_eq_remainder hfirst (Nat.add_zero base).symm]
    omega
  · have hnil : left = [] := by
      rw [ByteRange.contains_iff] at hin
      simp only at hin
      exact Chars.byteLength_eq_zero_iff.1 (by omega)
    have hnone : r.remainder left = [] := by rw [hnil, remainder, if_pos rfl]
    rw [if_neg hin, if_neg hin, hnone, List.append_nil]

end Run

/-! ## Characters -/

/-- Characters that start at byte `base`, before and after their clips are replaced. -/
inductive Replaced : Nat → List Edit → List Char → List Char → Prop
  | done (base : Nat) (cs : List Char) : Replaced base [] cs cs
  | clip {base : Nat} {e : Edit} {more : List Edit} {before old after after' : List Char}
      (start : base + Chars.byteLength before = e.range.start)
      (stop : e.range.start + Chars.byteLength old = e.range.stop)
      (rest : Replaced e.range.stop more after after') :
      Replaced base (e :: more) (before ++ old ++ after) (before ++ e.value.toList ++ after')

/-- Characters in front may be kept. -/
theorem Replaced.prepend {base : Nat} {edits : List Edit} {cs ds : List Char} (kept : List Char)
    (h : Replaced (base + Chars.byteLength kept) edits cs ds) :
    Replaced base edits (kept ++ cs) (kept ++ ds) := by
  cases h with
  | done => exact .done base _
  | @clip _ e more before old after after' start stop rest =>
    have hstart : base + Chars.byteLength (kept ++ before) = e.range.start := by
      rw [Chars.byteLength_append]
      omega
    simpa using Replaced.clip hstart stop rest

/-- As `Replaced`, where the first clip may have started already: its value is written, and its
characters up to its end go away. -/
inductive Replacing (base : Nat) : List Edit → List Char → List Char → Prop
  | ahead {edits : List Edit} {cs ds : List Char} (ahead : ∀ e ∈ edits, base ≤ e.range.start)
      (h : Replaced base edits cs ds) : Replacing base edits cs ds
  | within {e : Edit} {more : List Edit} {old after ds : List Char} (started : e.range.start < base)
      (stop : base + Chars.byteLength old = e.range.stop)
      (h : Replaced e.range.stop more after ds) : Replacing base (e :: more) (old ++ after) ds

/-- From the start on, nothing is in front. -/
theorem Replacing.replaced {edits : List Edit} {cs ds : List Char}
    (h : Replacing 0 edits cs ds) : Replaced 0 edits cs ds := by
  cases h with
  | ahead _ h => exact h
  | within started => omega

/-- The first clip is replaced from its start on, or from `base` on if it has started before. -/
theorem Replacing.of_replaced {base : Nat} {e : Edit} {more : List Edit}
    {left old after ds : List Char}
    (hstart : base + Chars.byteLength left = max base e.range.start)
    (hstop : max base e.range.start + Chars.byteLength old = e.range.stop)
    (hmore : ∀ f ∈ more, base ≤ f.range.start) (h : Replaced e.range.stop more after ds) :
    Replacing base (e :: more) (left ++ old ++ after)
      (left ++ (if base ≤ e.range.start then e.value.toList else []) ++ ds) := by
  by_cases hle : base ≤ e.range.start
  · rw [if_pos hle]
    exact .ahead (List.forall_mem_cons.2 ⟨hle, hmore⟩) (.clip (by omega) (by omega) h)
  · have hnil : left = [] := Chars.byteLength_eq_zero_iff.1 (by omega)
    rw [if_neg hle, hnil]
    exact .within (Nat.lt_of_not_le hle) (by rw [List.nil_append]; omega) h

namespace Text

/-! ## The cursor -/

/-- The edits still open before the runs that start at byte `base`. -/
structure Queued (base : Nat) (runs : List Run) (edits : List Edit) : Prop where
  sorted : edits.Pairwise fun e f => e.range.stop ≤ f.range.start
  nonempty : ∀ e ∈ edits, e.range.start < e.range.stop
  opened : ∀ e ∈ edits, base < e.range.stop
  inside : ∀ e ∈ edits, e.range.stop ≤ base + Run.lengthAll runs
  single : ∀ p ∈ locate base runs, ∀ e ∈ edits, ∀ f ∈ edits,
    e.range.Meets p.1 → f.range.Meets p.1 → f = e

/-- The same, where the edits cut the runs at boundaries. -/
structure Pending (base : Nat) (runs : List Run) (edits : List Edit) : Prop
    extends Queued base runs edits where
  starts : ∀ p ∈ locate base runs, ∀ e ∈ edits, e.range.Meets p.1 → p.1.start < e.range.start →
    Chars.isBoundary (e.range.start - p.1.start) p.2.chars
  stops : ∀ p ∈ locate base runs, ∀ e ∈ edits, e.range.Meets p.1 → e.range.stop < p.1.stop →
    Chars.isBoundary (e.range.stop - p.1.start) p.2.chars

/-- The edits that go on behind a byte. -/
def openAt (base : Nat) (edits : List Edit) : List Edit := edits.filter (base < ·.range.stop)

theorem openAt_eq_self {base : Nat} {edits : List Edit} (h : ∀ e ∈ edits, base < e.range.stop) :
    openAt base edits = edits := by
  unfold openAt
  rw [List.filter_eq_self]
  simpa using h

/-- An edit is open until it ends. -/
theorem mem_openAt {base : Nat} {edits : List Edit} {e : Edit} :
    e ∈ openAt base edits ↔ e ∈ edits ∧ base < e.range.stop := by
  simp [openAt]

/-- What has ended stays so. -/
theorem openAt_openAt {base len : Nat} (clips : List Edit) :
    openAt (base + len) (openAt base clips) = openAt (base + len) clips := by
  unfold openAt
  rw [List.filter_filter]
  refine List.filter_congr ?_
  intro e _
  simp only [Bool.and_eq_left_iff_imp, decide_eq_true_eq]
  omega

namespace Queued

variable {base : Nat} {r : Run} {rest : List Run} {e : Edit} {edits more : List Edit}

/-- Behind the first run, the edits that go on are open. -/
theorem tail (h : Queued base (r :: rest) edits) :
    Queued (base + r.length) rest (openAt (base + r.length) edits) := by
  have hinside : ∀ e ∈ edits, e.range.stop ≤ base + r.length + Run.lengthAll rest := by
    intro e he
    have hle := h.inside e he
    rw [Run.lengthAll] at hle
    omega
  refine ⟨h.sorted.filter _, ?_, ?_, ?_, ?_⟩
  · exact fun e he => h.nonempty e (mem_openAt.1 he).1
  · exact fun e he => (mem_openAt.1 he).2
  · exact fun e he => hinside e (mem_openAt.1 he).1
  · exact fun p hp e he f hf =>
      h.single p (List.mem_cons_of_mem _ hp) e (mem_openAt.1 he).1 f (mem_openAt.1 hf).1

/-- Edits that start behind a byte all go on there. -/
theorem openAt_of_ahead {runs : List Run} {later : List Edit} (h : Queued base runs edits)
    (hsub : ∀ f ∈ later, f ∈ edits) {stop : Nat} (hahead : ∀ f ∈ later, stop ≤ f.range.start) :
    openAt stop later = later := by
  refine openAt_eq_self ?_
  intro f hf
  have hle := hahead f hf
  have hne := h.nonempty f (hsub f hf)
  omega

/-- An edit with no byte in the first run starts behind it. -/
theorem ahead_of_not_meets (h : Queued base (r :: rest) edits) (he : e ∈ edits)
    (hr : ¬ r.isEmpty) (hapart : ¬ e.range.Meets ⟨base, base + r.length⟩) :
    base + r.length ≤ e.range.start := by
  have hpos := Run.length_pos hr
  have hne := h.nonempty e he
  have hopen := h.opened e he
  rw [ByteRange.meets_iff] at hapart
  simp only at hapart
  omega

/-- If any edit has a byte in the first run, the first edit does. -/
theorem head_meets (h : Queued base (r :: rest) (e :: more)) (hr : ¬ r.isEmpty) {f : Edit}
    (hf : f ∈ e :: more) (hmeets : f.range.Meets ⟨base, base + r.length⟩) :
    e.range.Meets ⟨base, base + r.length⟩ := by
  rcases List.mem_cons.1 hf with rfl | hmore
  · exact hmeets
  · have hpos := Run.length_pos hr
    have hle := (List.pairwise_cons.1 h.sorted).1 f hmore
    have hne := h.nonempty e List.mem_cons_self
    have hopen := h.opened e List.mem_cons_self
    rw [ByteRange.meets_iff] at hmeets ⊢
    simp only at hmeets ⊢
    omega

/-- If the first edit has a byte in the first run, all others start behind the run. -/
theorem ahead_of_head_meets (h : Queued base (r :: rest) (e :: more)) (hr : ¬ r.isEmpty)
    (hmeets : e.range.Meets ⟨base, base + r.length⟩) :
    ∀ f ∈ more, base + r.length ≤ f.range.start := by
  intro f hf
  refine h.ahead_of_not_meets (List.mem_cons_of_mem _ hf) hr ?_
  intro hmeets'
  have heq := h.single _ List.mem_cons_self e List.mem_cons_self f (List.mem_cons_of_mem _ hf)
    hmeets hmeets'
  have hle := (List.pairwise_cons.1 h.sorted).1 f hf
  have hne := h.nonempty e List.mem_cons_self
  rw [heq] at hle
  omega

end Queued

namespace Pending

variable {base : Nat} {r : Run} {runs rest : List Run} {e : Edit} {edits : List Edit}

theorem tail (h : Pending base (r :: rest) edits) :
    Pending (base + r.length) rest (openAt (base + r.length) edits) := by
  refine ⟨h.toQueued.tail, ?_, ?_⟩
  · exact fun p hp e he => h.starts p (List.mem_cons_of_mem _ hp) e (mem_openAt.1 he).1
  · exact fun p hp e he => h.stops p (List.mem_cons_of_mem _ hp) e (mem_openAt.1 he).1

/-- An edit cuts the run that it has a byte in at boundaries. -/
theorem exists_split (h : Pending base runs edits) {place : ByteRange}
    (hr : (place, r) ∈ locate base runs) (he : e ∈ edits) (hmeets : e.range.Meets place) :
    ∃ left old right, r.chars = left ++ old ++ right ∧
      place.start + Chars.byteLength left = max place.start e.range.start ∧
      place.start + Chars.byteLength left + Chars.byteLength old =
        min place.stop e.range.stop ∧
      min place.stop e.range.stop + Chars.byteLength right = place.stop := by
  have hplace := stop_of_mem_locate hr
  rw [Run.length] at hplace
  -- an end of the clip is a boundary, or the clip goes on over the end of the run
  have hstart : Chars.isBoundary (max place.start e.range.start - place.start) r.chars := by
    by_cases hlt : place.start < e.range.start
    · rw [Nat.max_eq_right (Nat.le_of_lt hlt)]
      exact h.starts _ hr e he hmeets hlt
    · rw [Nat.max_eq_left (Nat.not_lt.1 hlt), Nat.sub_self]
      exact Chars.isBoundary_zero _
  have hstop : Chars.isBoundary (min place.stop e.range.stop - place.start) r.chars := by
    by_cases hlt : e.range.stop < place.stop
    · rw [Nat.min_eq_right (Nat.le_of_lt hlt)]
      exact h.stops _ hr e he hmeets hlt
    · rw [Nat.min_eq_left (Nat.not_lt.1 hlt), hplace, Nat.add_sub_cancel_left]
      exact Chars.isBoundary_byteLength _
  rw [ByteRange.meets_iff] at hmeets
  obtain ⟨left, old, right, hsplit, hleft, hold⟩ :=
    Chars.exists_split_of_isBoundary hstart hstop (by omega)
  have hlen : Chars.byteLength r.chars =
      Chars.byteLength left + Chars.byteLength old + Chars.byteLength right := by
    rw [hsplit, Chars.byteLength_append, Chars.byteLength_append]
  exact ⟨left, old, right, hsplit, by omega, by omega, by omega⟩

/-- Edits that cut at boundaries take out the characters between. -/
theorem rewritten (h : Pending base runs edits) {place : ByteRange}
    (hr : (place, r) ∈ locate base runs) {out : List Run} (hout : r.Edited edits place out) :
    r.Rewritten edits place out := by
  cases hout with
  | kept apart => exact .kept apart
  | @cut e mem meets only =>
    obtain ⟨left, old, right, hsplit, hleft, hold, hright⟩ := h.exists_split hr mem meets
    have hplace := stop_of_mem_locate hr
    obtain ⟨start, stop⟩ := place
    simp only at hplace
    subst hplace
    rw [Run.cut_eq_of_split meets hsplit hleft hold hright]
    exact .cut mem meets only hsplit hleft hright

end Pending

/-- Edits that start behind a run leave what the cursor has not passed of it. -/
theorem editRun_of_ahead {r : Run} {base stop : Nat} {edits : List Edit} (cursor : Nat)
    (h : ∀ e ∈ edits, stop ≤ e.range.start) :
    editRun r base stop cursor edits = (r.between base cursor stop, edits) := by
  cases edits with
  | nil => rfl
  | cons e more => rw [editRun, if_pos (h e List.mem_cons_self)]

/-- An edit with bytes in a run cuts it; what follows in the run is left as it is. -/
theorem editRun_of_meets {r : Run} {base : Nat} {e : Edit} {more : List Edit}
    (hmeets : e.range.Meets ⟨base, base + r.length⟩)
    (hahead : ∀ f ∈ more, base + r.length ≤ f.range.start) :
    editRun r base (base + r.length) base (e :: more) =
      ((if ByteRange.contains ⟨base, base + r.length⟩ e.range.start then
            r.between base base e.range.start ++ [r.withValue e.value]
          else []) ++ r.between base (min (base + r.length) e.range.stop) (base + r.length),
        if base + r.length < e.range.stop then e :: more else more) := by
  rw [ByteRange.meets_iff] at hmeets
  simp only at hmeets
  have hin : ByteRange.contains ⟨base, base + r.length⟩ e.range.start ↔
      base ≤ e.range.start := by
    rw [ByteRange.contains_iff]
    simp only
    omega
  have hnext : max base (min e.range.stop (base + r.length)) =
      min (base + r.length) e.range.stop := by omega
  rw [editRun, if_neg (by omega)]
  simp only [hin, hnext, editRun_of_ahead _ hahead]
  split <;> rfl

/-- What the cursor makes of one run. -/
theorem editRun_edited {base : Nat} {r : Run} {rest : List Run} {edits : List Edit}
    (h : Queued base (r :: rest) edits) (hr : ¬ r.isEmpty) :
    ∃ written, editRun r base (base + r.length) base edits =
        (written, openAt (base + r.length) edits) ∧
      r.Edited edits ⟨base, base + r.length⟩ written := by
  by_cases hany : ∃ e ∈ edits, e.range.Meets ⟨base, base + r.length⟩
  · rcases hany with ⟨f, hf, hfmeets⟩
    cases edits with
    | nil => simp at hf
    | cons e more =>
      have hmeets := h.head_meets hr hf hfmeets
      have hahead := h.ahead_of_head_meets hr hmeets
      have honly := h.single _ List.mem_cons_self e List.mem_cons_self
      refine ⟨_, ?_, .cut List.mem_cons_self hmeets (fun f hf => honly f hf hmeets)⟩
      rw [editRun_of_meets hmeets hahead]
      have hmore := h.openAt_of_ahead (fun f hf => List.mem_cons_of_mem e hf) hahead
      rw [← hmore]
      simp [openAt, List.filter_cons]
  · -- no edit has a byte in the run, so the cursor passes over it
    have hahead : ∀ e ∈ edits, base + r.length ≤ e.range.start :=
      fun e he => h.ahead_of_not_meets he hr fun hmeets => hany ⟨e, he, hmeets⟩
    refine ⟨[r], ?_, .kept fun e he hmeets => hany ⟨e, he, hmeets⟩⟩
    rw [editRun_of_ahead base hahead, Run.between_self base hr,
      h.openAt_of_ahead (fun e he => he) hahead]

/-- One run is rewritten, and the edits go on behind it. -/
theorem editRun_spec {base : Nat} {r : Run} {rest : List Run} {edits : List Edit}
    (h : Pending base (r :: rest) edits) (hr : ¬ r.isEmpty) :
    ∃ written, editRun r base (base + r.length) base edits =
        (written, openAt (base + r.length) edits) ∧
      r.Rewritten edits ⟨base, base + r.length⟩ written := by
  obtain ⟨written, hrun, hwritten⟩ := editRun_edited h.toQueued hr
  exact ⟨written, hrun, h.rewritten List.mem_cons_self hwritten⟩

/-- An edit that ends before a run starts has no part in it. -/
theorem mem_openAt_iff_of_meets {base : Nat} {edits : List Edit} {place : ByteRange}
    (hle : base ≤ place.start) {e : Edit} (hmeets : e.range.Meets place) :
    e ∈ openAt base edits ↔ e ∈ edits := by
  rw [mem_openAt, and_iff_left_iff_imp]
  intro _
  rw [ByteRange.meets_iff] at hmeets
  omega

/-- What the cursor makes of a list of runs, wherever the range cuts them. -/
theorem editRuns_edited {base : Nat} {runs : List Run} {clips : List Edit}
    (h : Queued base runs (openAt base clips)) :
    ∃ parts, editRuns base (openAt base clips) runs = parts.flatten ∧
      List.Forall₂ (fun p out => p.2.Edited clips p.1 out) (locate base runs) parts := by
  induction runs generalizing base with
  | nil => exact ⟨[], rfl, .nil⟩
  | cons r rest ih =>
    have htail := h.tail
    rw [openAt_openAt] at htail
    obtain ⟨parts, heq, hparts⟩ := ih htail
    by_cases hr : r.isEmpty
    · -- an empty run is copied and moves nothing
      have hlen := Run.length_of_isEmpty hr
      rw [hlen, Nat.add_zero] at heq hparts
      refine ⟨[r] :: parts, ?_, ?_⟩
      · rw [editRuns, if_pos hr, heq]
        rfl
      · rw [locate, hlen, Nat.add_zero]
        refine .cons (.kept fun e _ hmeets => ?_) hparts
        rw [ByteRange.meets_iff] at hmeets
        simp only at hmeets
        omega
    · obtain ⟨written, hrun, hwritten⟩ := editRun_edited h hr
      rw [openAt_openAt] at hrun
      refine ⟨written :: parts, ?_, ?_⟩
      · rw [editRuns, if_neg hr]
        simp only [hrun, heq]
        rfl
      · exact .cons (hwritten.congr fun e => mem_openAt_iff_of_meets (Nat.le_refl _)) hparts

/-! ## The characters of all runs -/

/-- Behind a run that ends at `stop`, a clip may go on before what follows it is replaced. -/
theorem exists_rest_of_replacing {stop : Nat} {e : Edit} {more : List Edit}
    {right cs ds : List Char} (hstart : e.range.start < stop)
    (hright : min stop e.range.stop + Chars.byteLength right = stop)
    (hahead : ∀ f ∈ more, stop ≤ f.range.start)
    (h : Replacing stop (if stop < e.range.stop then e :: more else more) cs ds) :
    ∃ old after, right ++ cs = old ++ after ∧
      min stop e.range.stop + Chars.byteLength old = e.range.stop ∧
      Replaced e.range.stop more after (right ++ ds) := by
  by_cases hgoes : stop < e.range.stop
  · -- it goes on, so it takes all that is right of its start
    have hnil : right = [] := Chars.byteLength_eq_zero_iff.1 (by omega)
    rw [if_pos hgoes] at h
    cases h with
    | ahead hstarts =>
      have hle := hstarts e List.mem_cons_self
      omega
    | @within _ _ old after _ started hstop hreplaced =>
      rw [hnil]
      exact ⟨old, after, rfl, by omega, hreplaced⟩
  · -- it ends in the run, and the rest of the run is kept
    rw [if_neg hgoes] at h
    refine ⟨[], right ++ cs, rfl, by simp; omega, ?_⟩
    cases h with
    | ahead _ hreplaced =>
      have hend : e.range.stop + Chars.byteLength right = stop := by omega
      exact Replaced.prepend right (hend ▸ hreplaced)
    | within started =>
      have hle := hahead _ List.mem_cons_self
      omega

/-- What happens to one run, after what happens behind it, is a replacement of characters. -/
theorem replacing_of_rewritten {base : Nat} {r : Run} {rest written : List Run}
    {edits : List Edit} {cs ds : List Char} (h : Queued base (r :: rest) edits)
    (hr : ¬ r.isEmpty) (hwritten : r.Rewritten edits ⟨base, base + r.length⟩ written)
    (hrest : Replacing (base + r.length) (openAt (base + r.length) edits) cs ds) :
    Replacing base edits (r.chars ++ cs) (written.flatMap Run.chars ++ ds) := by
  cases hwritten with
  | kept apart =>
    have hahead : ∀ e ∈ edits, base + r.length ≤ e.range.start :=
      fun e he => h.ahead_of_not_meets he hr (apart e he)
    rw [h.openAt_of_ahead (fun e he => he) hahead] at hrest
    cases hrest with
    | ahead _ hreplaced =>
      refine .ahead (fun e he => Nat.le_of_add_right_le (hahead e he)) ?_
      simpa using hreplaced.prepend r.chars
    | within started =>
      have hle := hahead _ List.mem_cons_self
      omega
  | @cut e left old right mem meets only split start stop =>
    cases edits with
    | nil => simp at mem
    | cons d more =>
      have hd := h.head_meets hr mem meets
      rcases only d List.mem_cons_self hd with rfl
      have hahead := h.ahead_of_head_meets hr hd
      have hmore := h.openAt_of_ahead (fun f hf => List.mem_cons_of_mem d hf) hahead
      have hlen : r.length =
          Chars.byteLength left + Chars.byteLength old + Chars.byteLength right := by
        rw [Run.length, split, Chars.byteLength_append, Chars.byteLength_append]
      rw [ByteRange.meets_iff] at hd
      simp only at hd start stop
      rw [openAt, List.filter_cons, ← openAt, hmore] at hrest
      simp only [decide_eq_true_eq] at hrest
      obtain ⟨old', after, hcs, hstop, hreplaced⟩ :=
        exists_rest_of_replacing (by omega) stop hahead hrest
      -- The value stands where the clip starts, in this run or in an earlier one.
      have hin : ByteRange.contains ⟨base, base + r.length⟩ d.range.start ↔
          base ≤ d.range.start := by
        rw [ByteRange.contains_iff]
        simp only
        omega
      have hold : max base d.range.start + Chars.byteLength (old ++ old') = d.range.stop := by
        rw [Chars.byteLength_append]
        omega
      have hresult := Replacing.of_replaced start hold
        (fun f hf => Nat.le_of_add_right_le (hahead f hf)) hreplaced
      by_cases hle : base ≤ d.range.start <;>
        simpa [split, hin, hle, hcs, Run.flatMap_chars_remainder, Run.chars_mk] using hresult

/-- What happens to all runs is a replacement of characters. -/
theorem replacing_of_parts {base : Nat} {runs : List Run} {clips : List Edit}
    {parts : List (List Run)} (h : Queued base runs (openAt base clips))
    (hparts : List.Forall₂ (fun p out => p.2.Rewritten clips p.1 out) (locate base runs) parts) :
    Replacing base (openAt base clips) (runs.flatMap Run.chars)
      (parts.flatten.flatMap Run.chars) := by
  induction runs generalizing base parts with
  | nil =>
    cases hparts
    -- An edit still open would end behind the last run.
    have hnil : openAt base clips = [] := by
      refine List.eq_nil_iff_forall_not_mem.2 ?_
      intro e he
      have hopen := h.opened e he
      have hinside := h.inside e he
      rw [Run.lengthAll] at hinside
      omega
    rw [hnil]
    exact .ahead (by simp) (.done base [])
  | cons r rest ih =>
    have htail := h.tail
    rw [openAt_openAt] at htail
    cases hparts with
    | @cons _ written _ parts hwritten hparts =>
      have hchars := ih htail hparts
      by_cases hr : r.isEmpty
      · -- an empty run meets no clip
        have hlen := Run.length_of_isEmpty hr
        cases hwritten with
        | kept apart =>
          rw [hlen, Nat.add_zero] at hchars
          simpa [Run.isEmpty_iff.1 hr] using hchars
        | cut mem meets =>
          rw [ByteRange.meets_iff] at meets
          simp only at meets
          omega
      · rw [← openAt_openAt clips] at hchars
        have hopen := hwritten.congr fun e hmeets =>
          (mem_openAt_iff_of_meets (Nat.le_refl base) hmeets).symm
        have hstep := replacing_of_rewritten h hr hopen hchars
        simpa using hstep

/-- What the cursor makes of a list of runs that the edits cut at boundaries. -/
theorem editRuns_spec {base : Nat} {runs : List Run} {clips : List Edit}
    (h : Pending base runs (openAt base clips)) :
    ∃ parts, editRuns base (openAt base clips) runs = parts.flatten ∧
      List.Forall₂ (fun p out => p.2.Rewritten clips p.1 out) (locate base runs) parts ∧
      Replacing base (openAt base clips) (runs.flatMap Run.chars)
        (parts.flatten.flatMap Run.chars) := by
  obtain ⟨parts, heq, hparts⟩ := editRuns_edited h.toQueued
  have hrewritten : List.Forall₂ (fun p out => p.2.Rewritten clips p.1 out)
      (locate base runs) parts := by
    have hboth := (List.forall₂_and_left (p := (· ∈ locate base runs)) _ _).2
      ⟨fun _ hp => hp, hparts⟩
    refine hboth.imp ?_
    rintro ⟨place, r⟩ out ⟨hp, hout⟩
    have hopen : ∀ e : Edit, e.range.Meets place → (e ∈ openAt base clips ↔ e ∈ clips) :=
      fun e => mem_openAt_iff_of_meets (start_of_mem_locate hp)
    exact (h.rewritten hp (hout.congr fun e he => (hopen e he).symm)).congr hopen
  exact ⟨parts, heq, hrewritten, replacing_of_parts h.toQueued hrewritten⟩

/-! ## The whole text -/

/-- Before the first run, all clips are open. -/
theorem queued_edits (t : Text) (values : OrderedMap String String) (range : ByteRange) :
    Queued 0 t.runs (t.edits values range) := by
  refine ⟨t.edits_sorted values range, ?_, ?_, ?_, ?_⟩
  · exact fun e he => (mem_edits_iff_isClip.1 he).nonempty
  · intro e he
    have hne := (mem_edits_iff_isClip.1 he).nonempty
    omega
  · intro e he
    rw [Nat.zero_add]
    exact (mem_edits_iff_isClip.1 he).stop_le_length
  · exact fun p hp e he f hf =>
      (mem_edits_iff_isClip.1 he).eq_of_meets (mem_edits_iff_isClip.1 hf) hp

/-- The clips of a range that cuts at boundaries do so too. -/
theorem pending_edits {t : Text} (values : OrderedMap String String) {range : ByteRange}
    (h : t.Admits range) : Pending 0 t.runs (t.edits values range) := by
  refine ⟨t.queued_edits values range, ?_, ?_⟩
  · exact fun p hp e he => (mem_edits_iff_isClip.1 he).isBoundary_start h hp
  · exact fun p hp e he => (mem_edits_iff_isClip.1 he).isBoundary_stop h hp

/-- One text comes from another by replacing clips, in the characters and run by run. -/
structure Rewrites (t : Text) (clips : List Edit) (t' : Text) : Prop where
  sorted : clips.Pairwise fun e f => e.range.stop ≤ f.range.start
  string : Replaced 0 clips t.string.toList t'.string.toList
  runs : ∃ parts : List (List Run), t'.runs = parts.flatten ∧
    List.Forall₂ (fun place out => place.2.Rewritten clips place.1 out) t.ranges parts

/-- An update replaces the clips and nothing else. -/
theorem updated_rewrites_clips (t : Text) (values : OrderedMap String String)
    (range : Option ByteRange) (h : ∀ r, range = some r → t.Admits r) :
    ∃ clips, (∀ e, e ∈ clips ↔ t.IsClip values (range.getD t.extent) e) ∧
      t.Rewrites clips (t.updated values range) := by
  have hadmits : t.Admits (range.getD t.extent) := by
    cases range with
    | none => exact t.admits_extent
    | some r => exact h r rfl
  have hpending := pending_edits values hadmits
  have hopen := openAt_eq_self hpending.opened
  rw [← hopen] at hpending
  rcases editRuns_spec hpending with ⟨parts, hruns, hparts, hchars⟩
  rw [hopen] at hruns hchars
  have hstring : (t.updated values range).string.toList = parts.flatten.flatMap Run.chars := by
    rw [string, String.toList_ofList, chars, updated, hruns]
  refine ⟨t.edits values (range.getD t.extent), fun e => mem_edits_iff_isClip,
    t.edits_sorted values _, ?_, parts, hruns, hparts⟩
  rw [hstring, string, String.toList_ofList]
  exact hchars.replaced

/-- A letter with two variables. The first takes two runs, with an empty run between them. -/
def letter : Text :=
  ⟨[{ text := "To " }, { text := "Zo", attributes := .ofList [(.variableName, .text "name")] },
    { attributes := .ofList [(.link, .link (.relative "#"))] },
    { text := "\u00e9", attributes := .ofList [(.variableName, .text "name")] },
    { text := "$5", attributes := .ofList [(.variableName, .text "amount")] }]⟩

/-- An update from inside the first value into the second one. -/
theorem updated_letter_rewrites_clips :
    letter.Admits ⟨4, 8⟩ ∧
      ∃ clips,
        (∀ e, e ∈ clips ↔ letter.IsClip (.ofList [("name", "Al"), ("amount", "")]) ⟨4, 8⟩ e) ∧
        letter.Rewrites clips
          (letter.updated (.ofList [("name", "Al"), ("amount", "")]) (some ⟨4, 8⟩)) := by
  have hadmits : letter.Admits ⟨4, 8⟩ := .inr ⟨.inl (by decide), .inl (by decide)⟩
  refine ⟨hadmits, updated_rewrites_clips letter _ (some ⟨4, 8⟩) ?_⟩
  rintro _ ⟨⟩
  exact hadmits

end Text

end StyledText
