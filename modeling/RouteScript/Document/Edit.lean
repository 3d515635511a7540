import RouteScript.Document.Basic

/-!
# Edits

An edit replaces a range of a text, or the whole of it.  A `Splice` is the same in bytes, and a
`TreeEdit` tells the parser where a splice begins and ends, so that it can keep the rest of a tree.  A
`ChangeSummary` tells which bytes of the edited text may differ from the text before a batch of
edits: the spans that were written and those in which the parser tells the trees apart, moved along
by the edits after them and merged.
-/

namespace RouteScript

variable [Python.Recovery]

/-- A replacement of a range of a text, or of all of it. -/
structure Edit where
  range : Option Range
  text : Text
deriving DecidableEq, Repr

/-- A replacement in bytes: from `start` on, the text up to `oldStop` gives way to a text that
ends at `newStop`. -/
structure Splice where
  start : Nat
  oldStop : Nat
  newStop : Nat
deriving DecidableEq, Repr

namespace Splice

/-- The replacement of a range; a range that ends before it starts is empty. -/
def ofRange (t : Text) (range : Range) (replacement : Text) : Splice :=
  let start := t.offsetOf range.start
  ⟨start, max (t.offsetOf range.stop) start, start + replacement.bytes⟩

/-- The text after the replacement. -/
def apply (s : Splice) (t replacement : Text) : Text :=
  t.takeBytes s.start ++ replacement ++ t.dropBytes s.oldStop

/-- The bytes written. -/
def written (s : Splice) : Span := ⟨s.start, s.newStop⟩

/-- Where the bytes of a span are after the replacement; a span that meets the replaced bytes
grows to the written ones. -/
def move (s : Splice) (span : Span) : Span :=
  if span.stop ≤ s.start then span
  else if s.oldStop ≤ span.start then
    ⟨s.newStop + (span.start - s.oldStop), s.newStop + (span.stop - s.oldStop)⟩
  else
    ⟨min span.start s.start,
      if s.oldStop < span.stop then s.newStop + (span.stop - s.oldStop) else s.newStop⟩

end Splice

/-- What the parser is told about a replacement: its offsets, and their points before and after. -/
structure TreeEdit where
  splice : Splice
  startPoint : Point
  oldStopPoint : Point
  newStopPoint : Point
deriving DecidableEq, Repr

/-- The points of a replacement; that of the new end is counted on from the start. -/
def TreeEdit.ofRange (t : Text) (range : Range) (replacement : Text) : TreeEdit :=
  let splice := Splice.ofRange t range replacement
  let startPoint := Point.ofOffset t splice.start
  ⟨splice, startPoint, .ofOffset t splice.oldStop, startPoint.after replacement⟩

namespace Span

/-- The order by start, then by end. -/
def startsFirst (a b : Span) : Bool :=
  a.start < b.start || (a.start == b.start && a.stop ≤ b.stop)

/-- The spans behind `last`, which start one after the other, with each merged into the one before
if it touches it. -/
def mergeInto (last : Span) : List Span → List Span
  | [] => [last]
  | s :: rest =>
    if s.start ≤ last.stop then mergeInto ⟨last.start, max last.stop s.stop⟩ rest
    else last :: mergeInto s rest

/-- The spans, which start one after the other, with those merged that touch. -/
def merge : List Span → List Span
  | [] => []
  | s :: rest => mergeInto s rest

/-- The spans in ascending order, without overlap and without contact. -/
def coalesce (spans : List Span) : List Span := merge (spans.mergeSort startsFirst)

end Span

/-- What a batch of edits did to a text. -/
structure ChangeSummary where
  /-- The whole text was replaced. -/
  full : Bool
  /-- The bytes written since. -/
  spans : List Span
deriving DecidableEq, Repr

/-- What the parser tells about an edit of a text: the spans of the edited text in which its tree is
another than before. -/
abbrev TreeDiff := Text → Edit → List Span

/-- A parser that tells no trees apart. -/
def TreeDiff.silent : TreeDiff := fun _ _ => []

namespace Edit

/-- The text after an edit. -/
def apply (e : Edit) (t : Text) : Text :=
  match e.range with
  | none => e.text
  | some range => (Splice.ofRange t range e.text).apply t e.text

/-- What the parser is told about an edit of `t`; it starts anew if the whole text is replaced. -/
def treeEdit? (e : Edit) (t : Text) : Option TreeEdit :=
  e.range.map fun range => .ofRange t range e.text

/-- The summary after an edit of `t`. -/
def summarize (diff : TreeDiff) (e : Edit) (t : Text) (summary : ChangeSummary) : ChangeSummary :=
  match e.range with
  | none => ⟨true, []⟩
  | some range =>
    let splice := Splice.ofRange t range e.text
    ⟨summary.full, summary.spans.map splice.move ++ diff t e ++ [splice.written]⟩

/-- The text and the summary after a batch of edits, each made to the text the one before left. -/
def applyAll (diff : TreeDiff) : List Edit → Text → ChangeSummary → Text × ChangeSummary
  | [], t, summary => (t, summary)
  | e :: es, t, summary => applyAll diff es (e.apply t) (e.summarize diff t summary)

end Edit

namespace Document

/-- The document after a batch of edits, and what they did to its text. -/
def edit (diff : TreeDiff) (d : Document) (edits : List Edit) (version : Int) :
    Document × ChangeSummary :=
  let (t, summary) := Edit.applyAll diff edits d.text ⟨false, []⟩
  (.ofText d.uri t version, ⟨summary.full, Span.coalesce summary.spans⟩)

end Document

end RouteScript
