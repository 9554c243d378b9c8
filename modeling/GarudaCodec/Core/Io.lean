import GarudaCodec.Foundation.Readers
import GarudaCodec.Foundation.Pipeline

/-! # `io.rs`: reading with a stop flag

The codec's own `read_exact` retries a read that was interrupted or timed out unless the stop
flag is set.  Both dispatchers treat its errors alike, which `exitOf` captures.
-/

namespace GarudaCodec.Core.Io

open GarudaCodec.Foundation.Readers
open GarudaCodec.Foundation.Pipeline (Exit)

/-- The error arms of the loop in `read_exact`. -/
def onError (kind : ErrorKind) (stopReading : Bool) : Option ErrorKind :=
  if kind = .interrupted ∨ kind = .wouldBlock ∨ kind = .timedOut then
    if stopReading then some .interrupted else none
  else some kind

def readExact (reader : Reader) (len : Nat) : Except ErrorKind (List UInt8) × Reader :=
  readExactWith onError reader len

/-- How a dispatcher returns on an error of `read_exact`: the end of the stream and a stop are
    normal. -/
def exitOf (kind : ErrorKind) : Exit :=
  if kind = .unexpectedEof ∨ kind = .interrupted then .ok else .failed

/-- The bound of `sync_channel(10)`, which all queues share. -/
def queueCapacity : Nat := 10

theorem queueCapacity_pos : 0 < queueCapacity := by decide

end GarudaCodec.Core.Io
