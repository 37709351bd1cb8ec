import Marekvs.Lib.UInt

/-!
# The hybrid logical clock

A clock is one 64-bit word: 48 bits of milliseconds and a 16-bit counter. A local event reads `max (prev + 1) (wall << 16)`;
receiving a timestamp moves the clock past it, but no further than five seconds ahead of the wall clock. The wall clock is an
input of every operation.
-/

namespace Marekvs

def MAX_CLOCK_DRIFT_MS : UInt64 := 5000

def hlcPack (physMs : UInt64) (logical : UInt16) : UInt64 := (physMs <<< 16) ||| logical.toUInt64

def hlcPhysMs (hlc : UInt64) : UInt64 := hlc >>> 16

namespace Hlc

/-- A fresh process starts from the wall clock. -/
def new (wallMs : UInt64) : UInt64 := hlcPack wallMs 0

/-- The reading of a local event, which is also the clock after it. -/
def now (clock wallMs : UInt64) : UInt64 := max (clock + 1) (hlcPack wallMs 0)

/-- The clock after a remote timestamp is received, clamped to the allowed drift. -/
def observe (clock wallMs remote : UInt64) : UInt64 := max clock (min remote (hlcPack (wallMs + MAX_CLOCK_DRIFT_MS) 0)) + 1

end Hlc

end Marekvs
