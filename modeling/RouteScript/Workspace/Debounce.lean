import RouteScript.Table

/-!
# Debouncing

The diagnostics of a document are published when nothing was scheduled for it for a while: a
document has one deadline, and scheduling it again replaces that deadline.  Times are in
milliseconds.
-/

namespace RouteScript

/-- The pending deadlines. -/
structure Debounce where
  delay : Nat
  deadlines : Table String Nat

namespace Debounce

/-- Nothing is pending. -/
def start (delay : Nat) : Debounce := ⟨delay, .empty⟩

/-- The document is due after the delay. -/
def schedule (d : Debounce) (uri : String) (now : Nat) : Debounce :=
  ⟨d.delay, d.deadlines.insert uri (now + d.delay)⟩

/-- The document is not due any more. -/
def cancel (d : Debounce) (uri : String) : Debounce := ⟨d.delay, d.deadlines.erase uri⟩

/-- The documents that are due, in ascending order, and what stays pending. -/
def takeDue (d : Debounce) (now : Nat) : List String × Debounce :=
  ((d.deadlines.filter fun _ deadline => deadline ≤ now).keys,
    ⟨d.delay, d.deadlines.filter fun _ deadline => now < deadline⟩)

/-- The earliest deadline. -/
def next? (d : Debounce) : Option Nat := d.deadlines.values.min?

/-- The document has a deadline. -/
def isPending (d : Debounce) (uri : String) : Bool := d.deadlines.contains uri

end Debounce

end RouteScript
