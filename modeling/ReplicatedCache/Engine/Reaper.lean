import ReplicatedCache.Engine.Basic

/-! # The reaper

A reaper sweeps an engine at fixed intervals, first at the moment at which it is
started. It keeps the time until its next sweep; letting time pass carries out
the sweeps that fall due, each at its own millisecond.
-/

namespace ReplicatedCache

/-- A sweep every `interval` milliseconds, the next one in `wait`. -/
structure Reaper where
  interval : Nat
  wait : Nat
  running : Bool := true
deriving DecidableEq, Inhabited, Repr

namespace Reaper

def started (interval : Nat) : Reaper := { interval, wait := interval }

def stop (reaper : Reaper) : Reaper := { reaper with running := false }

/-- How many sweeps fall into the next `millis` milliseconds. -/
def sweepsWithin (reaper : Reaper) (millis : Nat) : Nat :=
  if !reaper.running || millis < reaper.wait then 0
  else if reaper.interval = 0 then 1
  else (millis - reaper.wait) / reaper.interval + 1

/-- After how many milliseconds those sweeps take place. -/
def sweepsIn (reaper : Reaper) (millis : Nat) : List Nat :=
  (List.range (reaper.sweepsWithin millis)).map fun i => reaper.wait + i * reaper.interval

def passed (reaper : Reaper) (millis : Nat) : Reaper :=
  { reaper with wait := reaper.wait + reaper.sweepsWithin millis * reaper.interval - millis }

/-- Lets time pass for an engine with a reaper: every sweep that falls due
reaps the engine at the time that a clock shows at that moment. -/
def advance {A : Type} (reaper : Reaper) (hear : Instant → Hearing A) (engine : Engine A)
    (clock : Clock) (millis : Nat) : Reaper × Engine A :=
  let engine := (reaper.sweepsIn millis).foldl (fun engine offset =>
    let now := (clock.advance offset).now
    (engine.reap (hear now) now).1) engine
  (reaper.passed millis, engine)

end Reaper

/-- An engine in time: with the clock that it goes by, and with the reaper that
was started for it last. -/
structure TimedEngine (A : Type) where
  engine : Engine A
  clock : Clock
  reaper : Option Reaper := none

namespace TimedEngine

variable {A : Type}

def now (timed : TimedEngine A) : Instant := timed.clock.now

def advance (timed : TimedEngine A) (hear : Instant → Hearing A) (millis : Nat) :
    TimedEngine A :=
  let clock := timed.clock.advance millis
  match timed.reaper with
  | none => { timed with clock }
  | some reaper =>
    let (reaper, engine) := reaper.advance hear timed.engine timed.clock millis
    { engine, clock, reaper := some reaper }

/-- Starts a reaper, which sweeps at once. -/
def startReaper (timed : TimedEngine A) (hear : Instant → Hearing A) (interval : Nat) :
    TimedEngine A :=
  let (engine, _) := timed.engine.reap (hear timed.now) timed.now
  { timed with engine, reaper := some (.started interval) }

def stopReaper (timed : TimedEngine A) : TimedEngine A :=
  { timed with reaper := timed.reaper.map Reaper.stop }

def dropReaper (timed : TimedEngine A) : TimedEngine A := { timed with reaper := none }

end TimedEngine

end ReplicatedCache
