/-!
# Repeated work

* `Ticker` — work that is done again and again in the background until it is stopped.
-/

namespace Trellis

/-- Work that is done again and again, with the state it works on. -/
structure Ticker (σ : Type) where
  state : σ
  work : σ → σ
  running : Bool := true

namespace Ticker

variable {σ : Type}

/-- Does the work once more, unless the ticker is stopped. -/
def tick (ticker : Ticker σ) : Ticker σ :=
  if ticker.running then { ticker with state := ticker.work ticker.state } else ticker

/-- Does the work a number of times. -/
def ticks (ticker : Ticker σ) : Nat → Ticker σ
  | 0 => ticker
  | n + 1 => ticker.tick.ticks n

/-- Stops the ticker; the work under way is done with. -/
def stop (ticker : Ticker σ) : Ticker σ := { ticker with running := false }

@[simp] theorem stop_stop (ticker : Ticker σ) : ticker.stop.stop = ticker.stop := rfl

@[simp] theorem tick_stop (ticker : Ticker σ) : ticker.stop.tick = ticker.stop := rfl

end Ticker

end Trellis
