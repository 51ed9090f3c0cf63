import JarRank.Number.Binary64
import JarRank.Zip.Content

/-!
# Hosts

What a run finds around it, beside the files: the libraries that unpack members,
and a clock. The clock is read three times. A counter of seconds is read when an
analysis begins and when it has gone through all class files, and the date and
time are read when the report is made. Nothing is supposed of the readings but
that the time between the first two can be told in milliseconds.
-/
namespace JarRank

/-- The readings of a clock in the course of one run. -/
structure Clock where
  started : Binary64
  ended : Binary64
  now : String
  finite : ((ended.sub started).mul .thousand).isFinite = true

namespace Clock

/-- The milliseconds between the two readings of the counter. -/
def elapsed (c : Clock) : Binary64 := (c.ended.sub c.started).mul .thousand

/-- A clock that stands still. -/
def frozen : Clock := ⟨.zero, .zero, "2000-01-01T00:00:00+00:00", rfl⟩

@[simp] theorem isFinite_elapsed (c : Clock) : c.elapsed.isFinite = true := c.finite

end Clock

structure Host where
  unpackers : Zip.Unpackers
  clock : Clock

/-- A host without libraries, whose clock stands still. -/
def Host.bare : Host := ⟨.none, .frozen⟩

end JarRank
