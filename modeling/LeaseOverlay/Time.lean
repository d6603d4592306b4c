/-!
Moments and durations are counted in half milliseconds, so that half of any whole number of
milliseconds is exact.
-/

namespace LeaseOverlay

abbrev Time := Nat

namespace Time

def ofMillis (ms : Nat) : Time := 2 * ms

def millis (t : Time) : Nat := t / 2

def text (t : Time) : String :=
  toString (t / 2) ++ (if t % 2 = 0 then ".000" else ".500")

end Time

end LeaseOverlay
