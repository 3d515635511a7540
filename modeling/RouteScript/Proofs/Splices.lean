import RouteScript.Proofs.ChangeSummary
import RouteScript.Proofs.Knowledge

/-!
# Edits as splices

An edit of a range takes out one piece of a text, between characters, and writes another one in its
place.  What the parser is told about it fits the edited text: the point of the new end, counted on
over the written text part by part, is the one that counting the bytes of the edited text gives.

* `Point.foldl_afterByte_encode`: counting bytes and counting parts lead to the same point.
* `Edit.exists_cut`, `Edit.treeEdit?_eq`: an edit of a range, as a splice and as the parser sees it.
* `Store.texts_changeBy`, `Store.texts_foldlM_changeBy`: what a batch does, and what its edits do one
  by one.
* `Store.edits_splice`: edits are exact splices, alone and in batches.
-/

namespace RouteScript

/-! ### Points -/

namespace Point

/-- The point behind one more character. -/
def afterChar (p : Point) (c : Char) : Point :=
  if c = '\n' then ⟨p.row + 1, 0⟩ else ⟨p.row, p.column + c.utf8Size⟩

/-- The parts of a text are counted as its characters are. -/
theorem after_cons (p : Point) (c : Char) (t : Text) :
    p.after (c :: t) = (p.afterChar c).after t := by
  obtain ⟨first, rest, hsplit⟩ := List.exists_cons_of_ne_nil (Text.splitOn_ne_nil '\n' t)
  by_cases hc : c = '\n'
  · simp only [after, afterChar, Text.splitOn, hc, if_true, hsplit, List.foldl_cons, Text.bytes_nil,
      Nat.add_zero, Nat.zero_add]
  · simp only [after, afterChar, Text.splitOn, hc, if_false, hsplit, Text.bytes_cons, Nat.add_assoc]

theorem after_append (p : Point) (s t : Text) : p.after (s ++ t) = (p.after s).after t := by
  induction s generalizing p with
  | nil => rfl
  | cons c s ih => rw [List.cons_append, after_cons, after_cons, ih]

/-- Bytes that are no line feeds only add to the column. -/
theorem foldl_afterByte_of_ne (p : Point) {bs : List UInt8} (h : ∀ b ∈ bs, b ≠ 0x0A) :
    bs.foldl afterByte p = ⟨p.row, p.column + bs.length⟩ := by
  induction bs generalizing p with
  | nil => rfl
  | cons b bs ih =>
    obtain ⟨hb, hbs⟩ := List.forall_mem_cons.1 h
    rw [List.foldl_cons, ih _ hbs, afterByte, if_neg hb, List.length_cons, Nat.add_assoc,
      Nat.add_comm 1]

theorem foldl_afterByte_encodeChar (p : Point) (c : Char) :
    (String.utf8EncodeChar c).foldl afterByte p = p.afterChar c := by
  by_cases hc : c = '\n'
  · subst hc
    rfl
  · rw [foldl_afterByte_of_ne, String.length_utf8EncodeChar, afterChar, if_neg hc]
    rintro b hb rfl
    exact hc ((Utf8.mem_encodeChar_iff (c := '\n') (by decide)).1 hb)

/-- Counting the bytes of a text and counting its parts lead to the same point. -/
theorem foldl_afterByte_encode (p : Point) (t : Text) :
    (Utf8.encode t).foldl afterByte p = p.after t := by
  induction t generalizing p with
  | nil => rfl
  | cons c t ih =>
    rw [Utf8.encode_cons, List.foldl_append, foldl_afterByte_encodeChar, ih, after_cons]

theorem ofOffset_bytes_append (front rest : Text) :
    ofOffset (front ++ rest) front.bytes = after ⟨0, 0⟩ front := by
  rw [ofOffset, Utf8.encode_append, ← Utf8.length_encode, List.take_left, foldl_afterByte_encode]

/-- Counting on over a text written behind `front` is counting anew in what comes out. -/
theorem after_ofOffset (front written rest rest' : Text) :
    (ofOffset (front ++ rest) front.bytes).after written =
      ofOffset (front ++ (written ++ rest')) (front.bytes + written.bytes) := by
  rw [← List.append_assoc, ← Text.bytes_append, ofOffset_bytes_append, ofOffset_bytes_append,
    after_append]

end Point

/-! ### One edit -/

namespace Edit

/-- An edit of a range takes out one piece of the text and writes another one in its place. -/
theorem exists_cut (t : Text) (range : Range) (written : Text) :
    ∃ front cut rest, t = front ++ (cut ++ rest) ∧ front.bytes = t.offsetOf range.start ∧
      Text.bytes (front ++ cut) = max (t.offsetOf range.stop) (t.offsetOf range.start) ∧
      apply ⟨some range, written⟩ t = front ++ (written ++ rest) := by
  obtain ⟨front, behind, hfront, hstart⟩ :=
    Text.isBoundary_iff.1 (Splice.isBoundary_start t range written)
  obtain ⟨before, rest, hrest, hstop⟩ :=
    Text.isBoundary_iff.1 (Splice.isBoundary_oldStop t range written)
  have hle : front.bytes ≤ before.bytes := by
    rw [hstart, hstop]
    exact Nat.le_max_right ..
  obtain ⟨cut, rfl, rfl⟩ := Text.exists_append_of_bytes_le (hfront.symm.trans hrest) hle
  refine ⟨front, cut, rest, hfront, hstart, hstop, ?_⟩
  have htake : t.takeBytes (Splice.ofRange t range written).start = front := by
    rw [← hstart, hfront, Text.takeBytes_bytes_append]
  have hdrop : t.dropBytes (Splice.ofRange t range written).oldStop = rest := by
    rw [← hstop, hrest, Text.dropBytes_bytes_append]
  show Splice.apply _ t written = _
  rw [Splice.apply, htake, hdrop, List.append_assoc]

/-- The points that the parser is told are those of the text and of the edited text. -/
theorem treeEdit?_eq (t : Text) (range : Range) (written : Text) :
    let e : Edit := ⟨some range, written⟩
    let start := t.offsetOf range.start
    let stop := max (t.offsetOf range.stop) start
    e.treeEdit? t = some ⟨⟨start, stop, start + written.bytes⟩, .ofOffset t start,
      .ofOffset t stop, .ofOffset (e.apply t) (start + written.bytes)⟩ := by
  intro e start stop
  obtain ⟨front, cut, rest, ht, hstart, -, happly⟩ := exists_cut t range written
  have hpoint : (Point.ofOffset t start).after written =
      .ofOffset (e.apply t) (start + written.bytes) := by
    rw [happly, show start = front.bytes from hstart.symm]
    conv_lhs => rw [ht]
    exact Point.after_ofOffset front written (cut ++ rest) rest
  rw [← hpoint]
  rfl

/-- A replacement of the whole text discards everything before it. -/
theorem foldl_apply_whole (before after : List Edit) (whole t : Text) :
    (before ++ ⟨none, whole⟩ :: after).foldl (fun t e => e.apply t) t =
      after.foldl (fun t e => e.apply t) whole := by
  rw [List.foldl_append, List.foldl_cons]
  rfl

end Edit

/-! ### Batches -/

namespace Store

variable [Python.Recovery] {store : Store} {uri : String} {d : Document}

theorem get?_put (store : Store) (d : Document) (key : String) :
    (store.put d).get? key = if key = d.uri then some d else store.get? key :=
  Table.get?_insert ..

theorem text_put (store : Store) (d : Document) (key : String) :
    ((store.put d).get? key).map Document.text =
      if key = d.uri then some d.text else (store.get? key).map Document.text := by
  rw [get?_put]
  split
  · rfl
  · rfl

/-- The texts after a batch of edits. -/
theorem texts_changeBy (diff : TreeDiff) (hs : store.Keyed) (hd : store.get? uri = some d)
    (edits : List Edit) (version : Int) :
    ∃ d' summary, store.changeBy diff uri edits version = .ok (store.put d', d', summary) ∧
      d'.uri = uri ∧ d'.text = edits.foldl (fun t e => e.apply t) d.text := by
  refine ⟨(d.edit diff edits version).1, (d.edit diff edits version).2, ?_, hs uri d hd,
    Edit.text_applyAll diff edits d.text ⟨false, []⟩⟩
  rw [changeBy, hd]

/-- The texts after the same edits, one by one. -/
theorem texts_foldlM_changeBy (diff : TreeDiff) (hs : store.Keyed) (hd : store.get? uri = some d)
    (edits : List Edit) (version : Int) :
    ∃ store', edits.foldlM (fun s e => (s.changeBy diff uri [e] version).map Prod.fst) store =
        .ok store' ∧
      ∀ key, (store'.get? key).map Document.text =
        if key = uri then some (edits.foldl (fun t e => e.apply t) d.text)
        else (store.get? key).map Document.text := by
  induction edits generalizing store d with
  | nil =>
    refine ⟨store, rfl, fun key => ?_⟩
    split
    · rename_i hkey
      rw [hkey, hd]
      rfl
    · rfl
  | cons e edits ih =>
    obtain ⟨d', summary, hstep, huri, htext⟩ := texts_changeBy diff hs hd [e] version
    have hd' : (store.put d').get? uri = some d' := by
      rw [get?_put, if_pos huri.symm]
    obtain ⟨store', hrun, htexts⟩ := ih (hs.put d') hd'
    refine ⟨store', ?_, fun key => ?_⟩
    · rw [List.foldlM_cons, hstep]
      exact hrun
    · rw [htexts, htext, List.foldl_cons, text_put, huri]
      split
      · rfl
      · rfl

/-- **Edits are exact splices.**  An edit of a range, whatever positions it names, takes out the
characters between two offsets and writes its text there.  The parser is told these offsets, their
points in the text, and as the point of the new end the one that it has in the edited text.  A batch
leaves the texts that its edits leave one by one, and a replacement of the whole text discards all
that was before it. -/
theorem edits_splice :
    (∀ (t : Text) (range : Range) (written : Text),
      let e : Edit := ⟨some range, written⟩
      let start := t.offsetOf range.start
      let stop := max (t.offsetOf range.stop) start
      (∃ front cut rest, t = front ++ (cut ++ rest) ∧ front.bytes = start ∧
        Text.bytes (front ++ cut) = stop ∧ e.apply t = front ++ (written ++ rest)) ∧
      e.treeEdit? t = some ⟨⟨start, stop, start + written.bytes⟩, .ofOffset t start,
        .ofOffset t stop, .ofOffset (e.apply t) (start + written.bytes)⟩) ∧
    ∀ (diff : TreeDiff) (store : Store) (uri : String) (d : Document) (edits : List Edit)
      (version : Int), store.Keyed → store.get? uri = some d →
      ∃ batch d' summary single, store.changeBy diff uri edits version = .ok (batch, d', summary) ∧
        batch.get? uri = some d' ∧ d'.text = edits.foldl (fun t e => e.apply t) d.text ∧
        edits.foldlM (fun s e => (s.changeBy diff uri [e] version).map Prod.fst) store =
          .ok single ∧
        batch.SameTexts single ∧
        ∀ before whole after, edits = before ++ ⟨none, whole⟩ :: after →
          d'.text = after.foldl (fun t e => e.apply t) whole := by
  refine ⟨fun t range written => ⟨Edit.exists_cut t range written, Edit.treeEdit?_eq ..⟩, ?_⟩
  intro diff store uri d edits version hs hd
  obtain ⟨d', summary, hbatch, huri, htext⟩ := texts_changeBy diff hs hd edits version
  obtain ⟨single, hsingle, htexts⟩ := texts_foldlM_changeBy diff hs hd edits version
  refine ⟨_, d', summary, single, hbatch, ?_, htext, hsingle, fun key => ?_, ?_⟩
  · rw [get?_put, if_pos huri.symm]
  · rw [htexts, text_put, htext, huri]
  · rintro before whole after rfl
    rw [htext, Edit.foldl_apply_whole]

end Store

namespace Store

/-- A range that ends before it starts, in the middle of a character of two units, and then a
replacement of the whole text. -/
theorem edits_splice_replacedHalfway :
    let d : Document := .ofText "u:a" "a😀\nb".toList 1
    let written : Edit := ⟨some ⟨⟨0, 2⟩, ⟨0, 0⟩⟩, "x\ny".toList⟩
    let whole : Edit := ⟨none, ['é']⟩
    let appended : Edit := ⟨some ⟨⟨0, 1⟩, ⟨7, 0⟩⟩, ['!']⟩
    written.treeEdit? d.text = some ⟨⟨1, 1, 4⟩, ⟨0, 1⟩, ⟨0, 1⟩, ⟨1, 1⟩⟩ ∧
      (empty.put d).Keyed ∧ (empty.put d).get? "u:a" = some d ∧
      ∃ batch d' summary, (empty.put d).changeBy .silent "u:a" [written, whole, appended] 2 =
        .ok (batch, d', summary) ∧ batch.get? "u:a" = some d' ∧ d'.text = ['é', '!'] := by
  intro d written whole appended
  obtain ⟨hedit, hbatch⟩ := edits_splice
  have hk : (empty.put d).Keyed := keyed_empty.put d
  have hd : (empty.put d).get? "u:a" = some d := Table.get?_insert_self ..
  have hpoints := (hedit d.text ⟨⟨0, 2⟩, ⟨0, 0⟩⟩ "x\ny".toList).2
  obtain ⟨batch, d', summary, single, hchange, hget, -, -, -, htext⟩ :=
    hbatch .silent (empty.put d) "u:a" d [written, whole, appended] 2 hk hd
  refine ⟨hpoints.trans (by decide), hk, hd, batch, d', summary, hchange, hget, ?_⟩
  exact (htext [written] ['é'] [appended] rfl).trans (by decide)

end Store

end RouteScript
