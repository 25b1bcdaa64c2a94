namespace Screening

/-- A number of nanoseconds since the start of the clock. -/
abbrev Instant := Int64

namespace Instant

def nanosecondsPerMillisecond : Int64 := 1000000

def ofMilliseconds (ms : Int) : Instant := Int64.ofInt ms * nanosecondsPerMillisecond

def later (t : Instant) (ms : Int) : Instant := t + ofMilliseconds ms

end Instant

/-- The readings of a clock, and how many of them are taken. -/
structure Clock where
  reading : Nat → Instant
  taken : Nat

namespace Clock

def start (reading : Nat → Instant) : Clock := ⟨reading, 0⟩

def now (clock : Clock) : Instant := clock.reading clock.taken

def tick (clock : Clock) : Clock := { clock with taken := clock.taken + 1 }

end Clock

end Screening
