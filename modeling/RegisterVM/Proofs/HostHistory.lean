import RegisterVM.Processor.Run

/-!
# Histories of a host

A processor is embedded in a host, which enters frames, changes what it holds, puts memory in place
and lets the processor run. A history is a list of such actions, and `Session.perform` is what
becomes of a session in it.

Whatever holds of a processor no matter what its host does is stated over histories. The proof is by
the actions: `Session.perform_keeps` turns what one action keeps into what a history keeps.
-/

namespace RegisterVM

variable {σ : Type}

/-- What the host can do with a processor and its memory. Between two runs it may do anything to
frames, cache and memory that the interface lets it do; during a run it is present only as the
observer. -/
inductive HostAction (σ : Type) where
  /-- Enter a frame. -/
  | enter (pc : UInt32) (arguments : List Int32)
  /-- Change a frame that it holds. -/
  | modify (ticket : Nat) (change : Frame → Frame)
  /-- Put other frames, innermost first, in place of the active ones. -/
  | replaceFrames (frames : List Frame)
  /-- Put another memory in place, and with `refresh` empty the cache at once. -/
  | rewrite (memory : Memory) (refresh : Bool)
  /-- Empty the cache. -/
  | invalidate
  /-- Run for so many turns. -/
  | run (observer : Observer σ) (floor turns : Nat)

/-- What an action makes of a session, and how it ended if it is a run. A run starts without
patience, so the observer is asked before its first step. -/
def HostAction.apply : HostAction σ → Session σ → Session σ × Option Ending
  | .enter pc arguments, s => ({ s with processor := s.processor.enter pc arguments }, none)
  | .modify ticket change, s => ({ s with processor := s.processor.modifyHeld ticket change }, none)
  | .replaceFrames frames, s => ({ s with processor := { s.processor with frames } }, none)
  | .rewrite memory refresh, s =>
      let p := if refresh then s.processor.invalidateCache else s.processor
      ({ s with processor := p, memory }, none)
  | .invalidate, s => ({ s with processor := s.processor.invalidateCache }, none)
  | .run observer floor turns, s =>
      let result := Session.run observer floor turns { s with patience := 0 }
      (result.1, some result.2)

namespace Session

/-- What a history makes of a session, and how the runs in it ended. The actions are taken from the
front, each on what the one before left. -/
def perform : List (HostAction σ) → Session σ → Session σ × List Ending
  | [], s => (s, [])
  | action :: history, s =>
      let acted := action.apply s
      let performed := perform history acted.1
      (performed.1, acted.2.toList ++ performed.2)

/-- What every action of a history keeps, the history keeps. Only the actions that occur have to
keep it, so conditions on a history can be used for its actions. -/
theorem perform_keeps {P : Session σ → Prop} {history : List (HostAction σ)}
    (hactions : ∀ action ∈ history, ∀ s, P s → P (action.apply s).1) {s : Session σ}
    (hs : P s) : P (perform history s).1 := by
  induction history generalizing s with
  | nil => exact hs
  | cons action history ih =>
      rw [List.forall_mem_cons] at hactions
      exact ih hactions.2 (hactions.1 s hs)

end Session

end RegisterVM
