import FileStash.Dict

namespace FileStash

/-- The numbers of a system's keepalive options: the idle time before probing,
the time between probes, the number of probes, and the single option of systems
without these. -/
structure Keepalive where
  idle : Option Int := none
  interval : Option Int := none
  count : Option Int := none
  single : Option Int := none
deriving DecidableEq, Repr

namespace Keepalive

def ofConstants (constants : Dict String Int) : Keepalive where
  idle := Dict.get? constants "TCP_KEEPIDLE"
  interval := Dict.get? constants "TCP_KEEPINTVL"
  count := Dict.get? constants "TCP_KEEPCNT"
  single := Dict.get? constants "TCP_KEEPALIVE"

def usual : Keepalive := { idle := some 4, interval := some 5, count := some 6 }

def setting (d : Dict Int Int) (option : Option Int) (value : Int) :
    Dict Int Int :=
  match option with
  | some n => Dict.insert d n value
  | none => d

/-- The options to set: probing after a second, every three seconds, five times.
The single option is set only where there is no other. -/
def options (k : Keepalive) : Dict Int Int :=
  let d := setting (setting (setting [] k.idle 1) k.interval 3) k.count 5
  if d.isEmpty then setting d k.single 60 else d

example : usual.options = [(4, 1), (5, 3), (6, 5)] := by decide

end Keepalive

end FileStash
