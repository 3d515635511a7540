import RouteScript.Document.Store
import RouteScript.Proofs.Offsets
import RouteScript.Proofs.Weave

/-!
# Summaries of changes

What a batch of edits tells about itself is enough to find all that it did: outside of the changed
spans stands the old text, in the old order.  If the parser adds nothing of its own, the changed
spans are the bytes that were written and not replaced again.

* `Edit.Tracks.applyAll`: the spans of a summary cover every change, edit by edit.
* `Edit.Marked.applyAll`: without the parser, they hold the written bytes and no others.
* `exists_texts_of_weave`: between characters, the pieces that were replaced are texts.
* `changeBy_spec`: what a store reports about a batch of edits.
-/

namespace RouteScript

open RouteScript.Span

/-! ### One edit -/

namespace Splice

theorem isBoundary_start (t : Text) (range : Range) (written : Text) :
    t.isBoundary (ofRange t range written).start = true := Text.isBoundary_offsetOf t range.start

theorem isBoundary_oldStop (t : Text) (range : Range) (written : Text) :
    t.isBoundary (ofRange t range written).oldStop = true := by
  show t.isBoundary (max (t.offsetOf range.stop) (t.offsetOf range.start)) = true
  rcases Nat.le_total (t.offsetOf range.stop) (t.offsetOf range.start) with h | h
  · rw [Nat.max_eq_right h]
    exact Text.isBoundary_offsetOf ..
  · rw [Nat.max_eq_left h]
    exact Text.isBoundary_offsetOf ..

/-- The replacement of a range fits the bytes of the text. -/
theorem fits_ofRange (t : Text) (range : Range) (written : Text) :
    (ofRange t range written).Fits (Utf8.encode t) (Utf8.encode written) where
  start_le := Nat.le_max_right ..
  oldStop_le := by
    rw [Utf8.length_encode]
    exact Text.bytes_le_of_isBoundary (isBoundary_oldStop t range written)
  newStop_eq := by
    rw [Utf8.length_encode]
    rfl

/-- The bytes of the text after the replacement of a range. -/
theorem encode_apply_ofRange (t : Text) (range : Range) (written : Text) :
    Utf8.encode ((ofRange t range written).apply t written) =
      (ofRange t range written).onList (Utf8.encode t) (Utf8.encode written) := by
  rw [apply, Utf8.encode_append, Utf8.encode_append, Text.encode_takeBytes (isBoundary_start ..),
    Text.encode_dropBytes (isBoundary_oldStop ..)]
  rfl

/-- Offsets between characters in front of the replaced part stay so. -/
theorem isBoundary_apply_front {t : Text} {range : Range} {written : Text} {n : Nat}
    (h : t.isBoundary n = true) (hn : n ≤ (ofRange t range written).start) :
    ((ofRange t range written).apply t written).isBoundary n = true := by
  obtain ⟨front, rest, ht, hfront⟩ := Text.isBoundary_iff.1 (isBoundary_start t range written)
  obtain ⟨a, b, ht', rfl⟩ := Text.isBoundary_iff.1 h
  rw [← hfront] at hn
  obtain ⟨g, rfl, -⟩ := Text.exists_append_of_bytes_le (ht'.symm.trans ht) hn
  have htake : t.takeBytes (ofRange t range written).start = a ++ g := by
    rw [← hfront, ht, Text.takeBytes_bytes_append]
  refine Text.isBoundary_iff.2
    ⟨a, g ++ written ++ t.dropBytes (ofRange t range written).oldStop, ?_, rfl⟩
  rw [apply, htake, List.append_assoc, List.append_assoc, List.append_assoc]

/-- Offsets between characters behind the replaced part are shifted. -/
theorem isBoundary_apply_behind {t : Text} {range : Range} {written : Text} {n : Nat}
    (h : t.isBoundary n = true) (hn : (ofRange t range written).oldStop ≤ n) :
    ((ofRange t range written).apply t written).isBoundary
      ((ofRange t range written).newStop + (n - (ofRange t range written).oldStop)) = true := by
  obtain ⟨front, rest, hrest, hn'⟩ := Text.isBoundary_iff.1
    (Text.isBoundary_dropBytes (isBoundary_oldStop t range written) h hn)
  obtain ⟨a, b, rfl, ha⟩ := Text.isBoundary_iff.1 (isBoundary_start t range written)
  have hstart : Text.bytes ((a ++ b).takeBytes (ofRange (a ++ b) range written).start) =
      (ofRange (a ++ b) range written).start := by
    rw [← ha, Text.takeBytes_bytes_append]
  refine Text.isBoundary_iff.2
    ⟨(a ++ b).takeBytes (ofRange (a ++ b) range written).start ++ written ++ front, rest, ?_, ?_⟩
  · rw [apply, hrest, List.append_assoc _ front]
  · rw [Text.bytes_append, Text.bytes_append, hstart, hn']
    rfl

theorem isBoundary_apply_start (t : Text) (range : Range) (written : Text) :
    ((ofRange t range written).apply t written).isBoundary (ofRange t range written).start = true :=
  isBoundary_apply_front (isBoundary_start ..) (Nat.le_refl _)

theorem isBoundary_apply_newStop (t : Text) (range : Range) (written : Text) :
    ((ofRange t range written).apply t written).isBoundary (ofRange t range written).newStop =
      true := by
  have := isBoundary_apply_behind (isBoundary_oldStop t range written) (Nat.le_refl _)
  rwa [Nat.sub_self, Nat.add_zero] at this

/-- The ends of a span that lie between characters do so after the move. -/
theorem isBoundary_move {t : Text} {range : Range} {written : Text} {r : Span}
    (hle : r.start ≤ r.stop) (hstart : t.isBoundary r.start = true)
    (hstop : t.isBoundary r.stop = true) :
    let s := ofRange t range written
    (s.apply t written).isBoundary (s.move r).start = true ∧
      (s.apply t written).isBoundary (s.move r).stop = true := by
  intro s
  rcases s.move_cases r with ⟨hs, hm⟩ | ⟨-, hmstop, hmstart⟩
  · rw [hm]
    exact ⟨isBoundary_apply_front hstart (Nat.le_trans hle hs), isBoundary_apply_front hstop hs⟩
  · refine ⟨?_, ?_⟩
    · rcases hmstart with ⟨ho, hmstart⟩ | ⟨-, hmstart⟩
      · rw [hmstart]
        exact isBoundary_apply_behind hstart ho
      · rw [hmstart]
        rcases Nat.le_total r.start s.start with h | h
        · rw [Nat.min_eq_left h]
          exact isBoundary_apply_front hstart h
        · rw [Nat.min_eq_right h]
          exact isBoundary_apply_start ..
    · rw [hmstop]
      rcases Nat.le_total s.oldStop r.stop with h | h
      · exact isBoundary_apply_behind hstop h
      · rw [Nat.sub_eq_zero_of_le h, Nat.add_zero]
        exact isBoundary_apply_newStop ..

variable {α : Type} {s : Splice} {l written : List α}

/-- A moved span lies in the list after the replacement. -/
theorem Fits.bounds_move (h : s.Fits l written) {t : Span} (ht : t.start ≤ t.stop)
    (hl : t.stop ≤ l.length) :
    (s.move t).start ≤ (s.move t).stop ∧ (s.move t).stop ≤ (s.onList l written).length := by
  have hlen := h.length_onList
  have := h.start_le_newStop
  have := h.start_le
  have := h.oldStop_le
  rcases s.move_cases t with ⟨hs, hm⟩ | hm
  · rw [hm]
    omega
  · omega

/-- In front of the replaced part, a moved span has the bytes it had. -/
theorem Fits.contains_move_front (h : s.Fits l written) (t : Span) {i : Nat} (hi : i < s.start) :
    (s.move t).Contains i ↔ t.Contains i := by
  have := h.start_le_newStop
  have := h.start_le
  rcases s.move_cases t with ⟨hs, hm⟩ | hm
  · rw [hm]
  · simp only [Contains]
    omega

/-- Behind the written part, a moved span has the bytes it had behind the replaced part. -/
theorem Fits.contains_move_behind (h : s.Fits l written) (t : Span) {i : Nat} (hi : s.newStop ≤ i) :
    (s.move t).Contains i ↔ t.Contains (s.oldStop + (i - s.newStop)) := by
  have := h.start_le_newStop
  have := h.start_le
  rcases s.move_cases t with ⟨hs, hm⟩ | hm
  · rw [hm]
    simp only [Contains]
    omega
  · simp only [Contains]
    omega

end Splice

/-! ### A batch of edits -/

/-- All that the parser tells about the edits of a batch has the property, in the text after the
edit. -/
def TreeDiff.Along (diff : TreeDiff) (p : Text → Span → Prop) : List Edit → Text → Prop
  | [], _ => True
  | e :: es, t => (∀ s ∈ diff t e, p (e.apply t) s) ∧ Along diff p es (e.apply t)

namespace Edit

/-- The span is one of the text. -/
def InBounds (t : Text) (s : Span) : Prop := s.start ≤ s.stop ∧ s.stop ≤ t.bytes

/-- The ends of the span are between characters. -/
def OnBoundaries (t : Text) (s : Span) : Prop :=
  t.isBoundary s.start = true ∧ t.isBoundary s.stop = true

/-- The spans lie in the text and cover all that was changed since it was the old one. -/
structure Tracks (old new : Text) (spans : List Span) : Prop where
  bounds : ∀ s ∈ spans, InBounds new s
  rewoven : Rewoven (Utf8.encode old) (Utf8.encode new) spans

variable {old t : Text} {diff : TreeDiff} {summary : ChangeSummary} {e : Edit} {es : List Edit}

theorem tracks_refl (t : Text) : Tracks t t [] where
  bounds _ h := by cases h
  rewoven := rewoven_refl _ _

theorem apply_of_range {range : Range} (h : e.range = some range) (t : Text) :
    e.apply t = (Splice.ofRange t range e.text).apply t e.text := by
  rw [Edit.apply, h]

theorem spans_summarize {range : Range} (h : e.range = some range) (diff : TreeDiff) (t : Text)
    (summary : ChangeSummary) :
    (e.summarize diff t summary).spans =
      summary.spans.map (Splice.ofRange t range e.text).move ++ diff t e ++
        [(Splice.ofRange t range e.text).written] := by
  rw [Edit.summarize, h]

theorem mem_spans_summarize {range : Range} (h : e.range = some range) {s : Span} :
    s ∈ (e.summarize diff t summary).spans ↔
      (∃ r ∈ summary.spans, (Splice.ofRange t range e.text).move r = s) ∨ s ∈ diff t e ∨
        s = (Splice.ofRange t range e.text).written := by
  rw [spans_summarize h, List.mem_append, List.mem_append, List.mem_map, List.mem_singleton,
    or_assoc]

theorem bytes_apply {range : Range} (h : e.range = some range) (t : Text) :
    (e.apply t).bytes =
      ((Splice.ofRange t range e.text).onList (Utf8.encode t) (Utf8.encode e.text)).length := by
  rw [← Utf8.length_encode, apply_of_range h, Splice.encode_apply_ofRange]

theorem Tracks.summarize (h : Tracks old t summary.spans) (hr : e.range ≠ none)
    (hd : ∀ s ∈ diff t e, InBounds (e.apply t) s) :
    Tracks old (e.apply t) (e.summarize diff t summary).spans := by
  obtain ⟨range, hrange⟩ := Option.ne_none_iff_exists'.1 hr
  have hfits := Splice.fits_ofRange t range e.text
  refine ⟨fun s hs => ?_, ?_⟩
  · rcases (mem_spans_summarize hrange).1 hs with ⟨r, hr, rfl⟩ | hs | rfl
    · obtain ⟨hle, hstop⟩ := h.bounds r hr
      rw [InBounds, bytes_apply hrange]
      exact hfits.bounds_move hle (by rwa [Utf8.length_encode])
    · exact hd s hs
    · have hlen := hfits.length_onList
      have := hfits.oldStop_le
      refine ⟨hfits.start_le_newStop, ?_⟩
      rw [bytes_apply hrange, Splice.written]
      simp only
      omega
  · rw [apply_of_range hrange, Splice.encode_apply_ofRange, spans_summarize hrange]
    exact h.rewoven.splice hfits (fun s hs => (h.bounds s hs).1) (diff t e)

/-- The spans of a summary lie in the text and cover all that the batch changed. -/
theorem Tracks.applyAll (h : Tracks old t summary.spans) (hr : ∀ e ∈ es, e.range ≠ none)
    (hd : diff.Along InBounds es t) :
    Tracks old (Edit.applyAll diff es t summary).1 (Edit.applyAll diff es t summary).2.spans := by
  induction es generalizing t summary with
  | nil => exact h
  | cons e es ih =>
    rw [List.forall_mem_cons] at hr
    exact ih (h.summarize hr.1 hd.1) hr.2 hd.2

theorem Tracks.onBoundaries_summarize (h : Tracks old t summary.spans)
    (hb : ∀ s ∈ summary.spans, OnBoundaries t s) (hr : e.range ≠ none)
    (hd : ∀ s ∈ diff t e, OnBoundaries (e.apply t) s) :
    ∀ s ∈ (e.summarize diff t summary).spans, OnBoundaries (e.apply t) s := by
  intro s hs
  obtain ⟨range, hrange⟩ := Option.ne_none_iff_exists'.1 hr
  rcases (mem_spans_summarize hrange).1 hs with ⟨r, hr, rfl⟩ | hs | rfl
  · rw [apply_of_range hrange]
    exact Splice.isBoundary_move (h.bounds r hr).1 (hb r hr).1 (hb r hr).2
  · exact hd s hs
  · rw [apply_of_range hrange]
    exact ⟨Splice.isBoundary_apply_start .., Splice.isBoundary_apply_newStop ..⟩

/-- If the spans that the parser tells end between characters, so do those of the summary. -/
theorem Tracks.onBoundaries_applyAll (h : Tracks old t summary.spans)
    (hb : ∀ s ∈ summary.spans, OnBoundaries t s) (hr : ∀ e ∈ es, e.range ≠ none)
    (hd : diff.Along InBounds es t) (hdb : diff.Along OnBoundaries es t) :
    ∀ s ∈ (Edit.applyAll diff es t summary).2.spans,
      OnBoundaries (Edit.applyAll diff es t summary).1 s := by
  induction es generalizing t summary with
  | nil => exact hb
  | cons e es ih =>
    rw [List.forall_mem_cons] at hr
    exact ih (h.summarize hr.1 hd.1) (h.onBoundaries_summarize hb hr.1 hdb.1) hr.2 hd.2 hdb.2

/-! ### Written bytes -/

/-- For each byte of the text after an edit, whether it was written, given this for the text
before. -/
def mark (e : Edit) (t : Text) (marks : List Bool) : List Bool :=
  match e.range with
  | none => List.replicate e.text.bytes true
  | some range =>
    (Splice.ofRange t range e.text).onList marks (List.replicate e.text.bytes true)

/-- For each byte of the text after a batch of edits, whether it was written. -/
def markAll : List Edit → Text → List Bool → List Bool
  | [], _, marks => marks
  | e :: es, t, marks => markAll es (e.apply t) (e.mark t marks)

/-- For each byte of the text after a batch of edits, whether one of them wrote it and no later one
replaced it. -/
def inserted (es : List Edit) (t : Text) : List Bool := markAll es t (List.replicate t.bytes false)

/-- The bytes of the spans are those that are marked. -/
structure Marked (t : Text) (spans : List Span) (marks : List Bool) : Prop where
  length_eq : marks.length = t.bytes
  contains_iff : ∀ i, (∃ s ∈ spans, s.Contains i) ↔ marks[i]? = some true

theorem marked_refl (t : Text) : Marked t [] (List.replicate t.bytes false) where
  length_eq := List.length_replicate
  contains_iff i := by
    rw [List.getElem?_replicate]
    split <;> simp

theorem Marked.summarize {marks : List Bool} (h : Marked t summary.spans marks)
    (hr : e.range ≠ none) (hd : diff t e = []) :
    Marked (e.apply t) (e.summarize diff t summary).spans (e.mark t marks) := by
  obtain ⟨range, hrange⟩ := Option.ne_none_iff_exists'.1 hr
  let s := Splice.ofRange t range e.text
  have hbytes := Splice.fits_ofRange t range e.text
  have hfits : s.Fits marks (List.replicate e.text.bytes true) := by
    refine ⟨hbytes.start_le, ?_, ?_⟩
    · rw [h.length_eq, ← Utf8.length_encode]
      exact hbytes.oldStop_le
    · rw [List.length_replicate]
      rfl
  have hmark : e.mark t marks = s.onList marks (List.replicate e.text.bytes true) := by
    rw [Edit.mark, hrange]
  have hspans : (e.summarize diff t summary).spans = summary.spans.map s.move ++ [s.written] := by
    rw [spans_summarize hrange, hd, List.append_nil]
  rw [hmark, hspans]
  refine ⟨?_, fun i => ?_⟩
  · have hlen := hfits.length_onList
    have hlen' := hbytes.length_onList
    rw [Utf8.length_encode, ← bytes_apply hrange] at hlen'
    rw [h.length_eq] at hlen
    exact Nat.add_right_cancel (hlen.trans hlen'.symm)
  · have hsplit : (∃ r ∈ summary.spans.map s.move ++ [s.written], r.Contains i) ↔
        (∃ r ∈ summary.spans, (s.move r).Contains i) ∨ s.written.Contains i := by
      constructor
      · rintro ⟨r, hr, hc⟩
        rcases List.mem_append.1 hr with hr | hr
        · obtain ⟨r', hr', rfl⟩ := List.mem_map.1 hr
          exact .inl ⟨r', hr', hc⟩
        · rw [List.mem_singleton.1 hr] at hc
          exact .inr hc
      · rintro (⟨r, hr, hc⟩ | hc)
        · exact ⟨s.move r, List.mem_append_left _ (List.mem_map_of_mem hr), hc⟩
        · exact ⟨s.written, by simp, hc⟩
    rw [hsplit]
    -- the byte stands in front of the written part, in it or behind it
    rcases Nat.lt_or_ge i s.start with hi | hi
    · have hw : ¬ s.written.Contains i := fun hc => Nat.not_le.2 hi hc.1
      rw [hfits.getElem?_front hi, ← h.contains_iff, or_iff_left hw]
      simp only [hfits.contains_move_front _ hi]
    · rcases Nat.lt_or_ge i s.newStop with hn | hn
      · have hlt : i - s.start < e.text.bytes := by
          have := hfits.newStop_eq
          rw [List.length_replicate] at this
          omega
        rw [hfits.getElem?_written hi hn, List.getElem?_replicate, if_pos hlt]
        exact ⟨fun _ => rfl, fun _ => .inr ⟨hi, hn⟩⟩
      · have hw : ¬ s.written.Contains i := fun hc => Nat.not_lt.2 hn hc.2
        rw [hfits.getElem?_behind hn, ← h.contains_iff, or_iff_left hw]
        simp only [hfits.contains_move_behind _ hn]

/-- If the parser tells nothing, the spans of a summary hold the bytes that were written and no
others. -/
theorem Marked.applyAll {marks : List Bool} (h : Marked t summary.spans marks)
    (hr : ∀ e ∈ es, e.range ≠ none) (hd : diff.Along (fun _ _ => False) es t) :
    Marked (Edit.applyAll diff es t summary).1 (Edit.applyAll diff es t summary).2.spans
      (markAll es t marks) := by
  induction es generalizing t summary marks with
  | nil => exact h
  | cons e es ih =>
    rw [List.forall_mem_cons] at hr
    have hnil : diff t e = [] := List.eq_nil_iff_forall_not_mem.2 hd.1
    exact ih (h.summarize hr.1 hnil) hr.2 hd.2

theorem text_applyAll (diff : TreeDiff) (es : List Edit) (t : Text) (summary : ChangeSummary) :
    (Edit.applyAll diff es t summary).1 = es.foldl (fun t e => e.apply t) t := by
  induction es generalizing t summary with
  | nil => rfl
  | cons e es ih => exact ih (e.apply t) (e.summarize diff t summary)

theorem full_applyAll (hr : ∀ e ∈ es, e.range ≠ none) (diff : TreeDiff) (t : Text)
    (summary : ChangeSummary) : (Edit.applyAll diff es t summary).2.full = summary.full := by
  induction es generalizing t summary with
  | nil => rfl
  | cons e es ih =>
    rw [List.forall_mem_cons] at hr
    obtain ⟨range, hrange⟩ := Option.ne_none_iff_exists'.1 hr.1
    rw [Edit.applyAll, ih hr.2, Edit.summarize, hrange]

end Edit

/-! ### Pieces that are texts -/

open Edit

/-- Behind a span that ends between characters, the weaving goes on with the start of one. -/
theorem isLead_of_head?_weave {t : Text} {rs : List Span} {p : Nat} {pieces : List (List UInt8)}
    (hp : t.isBoundary p = true) (hrs : SeparatedFrom (p + 1) rs) (hb : ∀ r ∈ rs, OnBoundaries t r)
    {b : UInt8} (h : (weave (Utf8.encode t) p (rs.zip pieces)).head? = some b) :
    Utf8.IsLead b := by
  have hdrop : ∀ {b}, ((Utf8.encode t).drop p).head? = some b → Utf8.IsLead b := by
    intro b hb
    rw [← Text.encode_dropBytes hp] at hb
    exact Utf8.isLead_of_head?_encode hb
  match rs, pieces with
  | [], _ => exact hdrop h
  | _ :: _, [] => exact hdrop h
  | r :: rs, piece :: pieces =>
    have hpr : p + 1 ≤ r.start := hrs.1
    have hlt : p < (Utf8.encode t).length := by
      have := Text.bytes_le_of_isBoundary (hb r List.mem_cons_self).1
      rw [Utf8.length_encode]
      omega
    have hn : r.start - p = r.start - p - 1 + 1 := by omega
    rw [List.zip_cons_cons, weave, List.drop_eq_getElem_cons hlt, hn, List.take_succ_cons,
      List.cons_append, List.cons_append, List.head?_cons] at h
    refine hdrop ?_
    rw [List.drop_eq_getElem_cons hlt, List.head?_cons, h]

/-- Between characters, the pieces that make up a text are texts. -/
theorem exists_texts_of_weave {old t : Text} {rs : List Span} {p : Nat}
    {pieces : List (List UInt8)} (hlen : pieces.length = rs.length) (hp : t.isBoundary p = true)
    (hrs : SeparatedFrom p rs) (hb : ∀ r ∈ rs, OnBoundaries t r)
    (h : Utf8.encode old = weave (Utf8.encode t) p (rs.zip pieces)) :
    ∃ texts : List Text, pieces = texts.map Utf8.encode := by
  induction rs generalizing old p pieces with
  | nil => exact ⟨[], List.length_eq_zero_iff.1 hlen⟩
  | cons r rs ih =>
    cases pieces with
    | nil => cases hlen
    | cons piece pieces =>
      obtain ⟨hpr, hr, hrs⟩ := hrs
      rw [List.forall_mem_cons] at hb
      have hslice : ((Utf8.encode t).drop p).take (r.start - p) =
          Utf8.encode ((t.dropBytes p).takeBytes (r.start - p)) := by
        rw [Text.encode_takeBytes (Text.isBoundary_dropBytes hp hb.1.1 hpr),
          Text.encode_dropBytes hp]
      rw [List.zip_cons_cons, weave, hslice, List.append_assoc] at h
      obtain ⟨rest, -, hrest⟩ := Utf8.append_of_encode_eq h
      obtain ⟨front, back, -, hfront, hback⟩ :=
        Utf8.cut_of_isLead hrest.symm fun b => isLead_of_head?_weave hb.1.2 hrs hb.2
      obtain ⟨texts, htexts⟩ :=
        ih (Nat.succ.inj hlen) hb.1.2 (hrs.mono (Nat.le_succ _)) hb.2 hback.symm
      exact ⟨front :: texts, by rw [hfront, htexts, List.map_cons]⟩

/-! ### What a store reports -/

namespace Store

variable [Python.Recovery] {store : Store} {uri : String} {d : Document} {diff : TreeDiff}
    {edits : List Edit}

/-- **A summary is sound and exact.**  A batch of edits of ranges, reported by a store with the help
of a parser that tells spans of the text: the changed spans lie in the new text, in order and
without contact, and outside of them stands the old text.  The pieces that stood in their place are
texts if the parser tells spans between characters, and if it tells none, the changed spans hold the
bytes that the edits wrote and no others. -/
theorem changeBy_spec (hd : store.get? uri = some d) (version : Int)
    (hr : ∀ e ∈ edits, e.range ≠ none) (hdiff : diff.Along InBounds edits d.text) :
    ∃ d' summary, store.changeBy diff uri edits version = .ok (store.put d', d', summary) ∧
      d'.text = edits.foldl (fun t e => e.apply t) d.text ∧ summary.full = false ∧
      (∀ r ∈ summary.spans, r.start ≤ r.stop ∧ r.stop ≤ d'.text.bytes) ∧
      summary.spans.Pairwise (fun a b => a.stop < b.start) ∧
      (∃ pieces : List (List UInt8), pieces.length = summary.spans.length ∧
        Utf8.encode d.text = weave (Utf8.encode d'.text) 0 (summary.spans.zip pieces) ∧
        (diff.Along OnBoundaries edits d.text →
          ∃ texts : List Text, pieces = texts.map Utf8.encode)) ∧
      (diff.Along (fun _ _ => False) edits d.text →
        ∀ i, (∃ r ∈ summary.spans, r.Contains i) ↔ (inserted edits d.text)[i]? = some true) := by
  let result := applyAll diff edits d.text ⟨false, []⟩
  have htracks : Tracks d.text result.1 result.2.spans := by
    refine Tracks.applyAll ?_ hr hdiff
    exact tracks_refl d.text
  have hv := le_coalesce fun s hs => (htracks.bounds s hs).1
  have hsep : SeparatedFrom 0 (coalesce result.2.spans) :=
    separatedFrom_of_separated (separated_coalesce _) hv fun r _ => Nat.zero_le _
  obtain ⟨pieces, hlen, hw⟩ :=
    htracks.rewoven (coalesce result.2.spans) hsep fun s hs => encloses_coalesce hs
  refine ⟨.ofText d.uri result.1 version, ⟨result.2.full, coalesce result.2.spans⟩, ?_,
    text_applyAll .., full_applyAll hr .., fun r hr => ⟨hv r hr, ?_⟩,
    separated_coalesce _, ⟨pieces, hlen, hw, fun hb => ?_⟩, fun hn i => ?_⟩
  · rw [changeBy, hd]
    rfl
  · have hstop : ∀ s ∈ result.2.spans, True ∧ s.stop ≤ result.1.bytes := fun s hs =>
      ⟨trivial, (htracks.bounds s hs).2⟩
    exact (ends_coalesce (p := fun _ => True) (q := (· ≤ result.1.bytes)) hstop r hr).2
  · have hends : ∀ s ∈ result.2.spans, OnBoundaries result.1 s := by
      refine Tracks.onBoundaries_applyAll (tracks_refl d.text) ?_ hr hdiff hb
      exact fun s hs => by cases hs
    have hmerged : ∀ r ∈ coalesce result.2.spans, OnBoundaries result.1 r :=
      ends_coalesce (p := fun n => result.1.isBoundary n = true)
        (q := fun n => result.1.isBoundary n = true) hends
    have hzero : result.1.isBoundary 0 = true := Text.isBoundary_iff.2 ⟨[], result.1, rfl, rfl⟩
    exact exists_texts_of_weave hlen hzero hsep hmerged hw
  · have hmarked : Marked result.1 result.2.spans (inserted edits d.text) := by
      refine Marked.applyAll ?_ hr hn
      exact marked_refl d.text
    rw [contains_coalesce]
    exact hmarked.contains_iff i

end Store

namespace Store

/-- A letter of a comment is replaced. -/
theorem changeBy_comment :
    ∃ store' d' summary,
      (Store.empty.put (.ofText "u:a" "# ab".toList 1)).changeBy .silent "u:a"
        [⟨some ⟨⟨0, 2⟩, ⟨0, 3⟩⟩, ['x']⟩] 2 = .ok (store', d', summary) ∧
      d'.text = "# xb".toList ∧
      ∀ i, (∃ r ∈ summary.spans, r.Contains i) ↔ [false, false, true, false][i]? = some true := by
  have hd : (Store.empty.put (.ofText "u:a" "# ab".toList 1)).get? "u:a" =
      some (.ofText "u:a" "# ab".toList 1) := rfl
  have hr : ∀ e ∈ [(⟨some ⟨⟨0, 2⟩, ⟨0, 3⟩⟩, ['x']⟩ : Edit)], e.range ≠ none := by simp
  have hsilent : ∀ p : Text → Span → Prop, TreeDiff.silent.Along p
      [⟨some ⟨⟨0, 2⟩, ⟨0, 3⟩⟩, ['x']⟩] "# ab".toList := fun p => by
    simp [TreeDiff.Along, TreeDiff.silent]
  obtain ⟨d', summary, hchange, htext, -, -, -, -, hexact⟩ :=
    changeBy_spec hd 2 hr (hsilent InBounds)
  exact ⟨_, d', summary, hchange, htext.trans (by decide), hexact (hsilent _)⟩

end Store

end RouteScript
