import BitPacking.Archive.Basic

namespace BitPacking.Archive

structure Outlet where
  listens : Bool
  -- What an entry comes to, by the number of bytes read and the failure that cut it short.
  ending : Nat → Option IoError → Completion Nat

namespace Outlet

inductive Write
  | starting
  | reading (n : Nat)
  | done (c : Completion Nat)

namespace Write

def request : Write → Request
  | starting => .turn
  | reading _ => .input Bytes.blockSize
  | done c => .done c

def rank : Write → Nat
  | starting => 2
  | reading _ => 1
  | done _ => 0

end Write

def turn (o : Outlet) : Write → Write
  | .starting => if o.listens then .reading 0 else .done (o.ending 0 none)
  | w => w

def feed (o : Outlet) : Write → Source.Answer → Write
  | .reading n, .data bytes => .reading (n + bytes.length)
  | .reading n, .endOfInput => .done (o.ending n none)
  | .reading n, .failure e => .done (o.ending n (some e))
  | w, _ => w

instance : Archive Outlet where
  Write := Write
  begin _ := .starting
  request := Write.request
  turn o w := pure (o, o.turn w)
  feed o w a := (o, o.feed w a)
  rank := Write.rank
  rank_turn_lt o w h := by
    cases w with
    | starting => simp only [turn, Logged.value_pure]; split <;> simp [Write.rank]
    | reading | done => cases h
  rank_feed_lt o w n a h ha := by
    cases w <;> simp_all [Write.request]
    cases a <;> simp_all [Source.Answer.Final, Write.rank, feed]
  read _ name := .error (.entryNotFound name)
  contains _ _ := false
  names _ := []

end Outlet
end BitPacking.Archive
