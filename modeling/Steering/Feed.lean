import Steering.Watcher

/-!
# `Steering.Feed` — where a watch loop gets its lists from

A watch loop does not care what is behind its lists. It needs to look at a call (`ask`), to know
when time alone will bring an answer (`due?`), and to say that it is done (`stop`). A `Feed` is
that.

It also promises to come to rest. A look that finds no answer may be repeated at the same time and
then changes nothing; and `budget` is a number that every answer lowers, except for the answer that
watching has ended, after which nobody asks again. So a loop that asks until no answer comes stops
after at most `budget` answers, as long as nothing else happens.
-/

namespace Steering

/-- A source of lists, in a state of type `σ`. Times are in milliseconds. -/
class Feed (σ : Type) where
  /-- One look at a call at a time; a call starts here if none is waiting. -/
  ask : Nat → σ → Option Reply × σ
  /-- When the waiting call will be answered if nothing else happens. -/
  due? : σ → Option Nat
  stop : σ → Except RegistryError Unit × σ
  /-- The number of answers that can come if nothing else happens. -/
  budget : σ → Nat
  ask_again : ∀ {now : Nat} {s s' : σ}, ask now s = (none, s') → ask now s' = (none, s')
  budget_lt : ∀ {now : Nat} {s s' : σ} {reply : Reply},
    ask now s = (some reply, s') → reply ≠ .error .canceled → budget s' < budget s

/-- How a backend answers the request to watch a name: after a while, with a feed or an error. -/
structure Opening (σ : Type) where
  delayMs : Nat
  result : Except RegistryError σ

end Steering
