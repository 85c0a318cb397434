import StoneRidge.Kit.LockFile
import StoneRidge.Kit.Machine
import Mathlib.Tactic

/-!
# Daemons and their pid file

`stoneridge.daemonize` (`stoneridge.py:465-536`) from the fork on, for any number of
processes that are started with one `--pidfile`. The init scripts
(`linux/init/*/*`) start a daemon at will and stop it by `kill $(cat $PID)`.
-/

set_option autoImplicit false

namespace StoneRidge.Daemon
open StoneRidge.Kit StoneRidge.Kit.Machine

/-- Where a process is in `daemonize`, with the file it has open. -/
inductive Phase where
  | started
  | opened (file : ℕ)
  | locked (file : ℕ)
  | written (file : ℕ)
  /-- The handler of SIGTERM is set and the daemon's function is running. -/
  | serving (file : ℕ)
  /-- The pid file is unlinked, `sys.exit(0)` is on its way. -/
  | leaving (file : ℕ)
  deriving DecidableEq

/-- The file that a process, starting or serving, has open. -/
def Phase.file? : Phase → Option ℕ
  | .started | .leaving _ => none
  | .opened i | .locked i | .written i | .serving i => some i

/-- The file whose lock a process has. -/
def Phase.lock? : Phase → Option ℕ
  | .started | .opened _ => none
  | .locked i | .written i | .serving i | .leaving i => some i

structure Daemons where
  pidfile : LockFile ℕ
  phase : ℕ → Option Phase

inductive Action where
  | fork (p : ℕ)
  | openFile (p : ℕ)
  | lock (p : ℕ)
  | write (p : ℕ)
  | install (p : ℕ)
  /-- The function returns, or `daemon_sig` handles SIGTERM. -/
  | unlink (p : ℕ)
  | exit (p : ℕ)
  /-- An exception, a signal that is not handled. -/
  | die (p : ℕ)
  deriving DecidableEq

def pidText (p : ℕ) : List Char := (toString p).toList

namespace Daemons

/-- The machine before any start, with whatever an earlier boot has left. -/
def boot (f : LockFile ℕ) : Daemons := ⟨{ f with holder := fun _ => none }, fun _ => none⟩

def enter (s : Daemons) (p : ℕ) (ph : Phase) (f : LockFile ℕ) : Daemons :=
  ⟨f, Function.update s.phase p (some ph)⟩

def gone (s : Daemons) (p : ℕ) : Daemons :=
  ⟨s.pidfile.release p, Function.update s.phase p none⟩

/-- What `cat $PID` prints. -/
def cat (s : Daemons) : Option (List Char) := s.pidfile.entry.map s.pidfile.content

def fileOf (s : Daemons) (p : ℕ) : Option ℕ := (s.phase p).bind Phase.file?

def lockOf (s : Daemons) (p : ℕ) : Option ℕ := (s.phase p).bind Phase.lock?

/-- The process has the lock and has not given up the pid file. -/
def Active (s : Daemons) (p : ℕ) : Prop := ∃ i, s.fileOf p = some i ∧ s.lockOf p = some i

end Daemons

def step : Action → Daemons → Option Daemons
  | .fork p, s =>
    match s.phase p with
    | none => some (s.enter p .started s.pidfile)
    | some _ => none
  | .openFile p, s =>
    match s.phase p with
    | some .started =>
      some (s.enter p (.opened s.pidfile.openTruncating.1) s.pidfile.openTruncating.2)
    | _ => none
  | .lock p, s =>
    match s.phase p with
    | some (.opened i) =>
      match s.pidfile.lock i p with
      | some f => some (s.enter p (.locked i) f)
      -- IOError: the process ends and leaves the file
      | none => some (s.gone p)
    | _ => none
  | .write p, s =>
    match s.phase p with
    | some (.locked i) => some (s.enter p (.written i) (s.pidfile.writeAtStart i (pidText p)))
    | _ => none
  | .install p, s =>
    match s.phase p with
    | some (.written i) => some (s.enter p (.serving i) s.pidfile)
    | _ => none
  | .unlink p, s =>
    match s.phase p with
    -- a second SIGTERM runs the handler again
    | some (.serving i) | some (.leaving i) =>
      match s.pidfile.unlink with
      | some f => some (s.enter p (.leaving i) f)
      | none => some (s.gone p)
    | _ => none
  | .exit p, s =>
    match s.phase p with
    | some (.leaving _) => some (s.gone p)
    | _ => none
  | .die p, s =>
    match s.phase p with
    | some _ => some (s.gone p)
    | none => none

/-- What a step can do, one constructor for each way through `step`. -/
inductive Step : Action → Daemons → Daemons → Prop where
  | fork {s : Daemons} {p : ℕ} (hp : s.phase p = none) :
      Step (.fork p) s (s.enter p .started s.pidfile)
  | openFile {s : Daemons} {p : ℕ} (hp : s.phase p = some .started) :
      Step (.openFile p) s
        (s.enter p (.opened s.pidfile.openTruncating.1) s.pidfile.openTruncating.2)
  | locked {s : Daemons} {p i : ℕ} {f : LockFile ℕ} (hp : s.phase p = some (.opened i))
      (hf : s.pidfile.lock i p = some f) : Step (.lock p) s (s.enter p (.locked i) f)
  | refused {s : Daemons} {p i : ℕ} (hp : s.phase p = some (.opened i))
      (hf : s.pidfile.lock i p = none) : Step (.lock p) s (s.gone p)
  | write {s : Daemons} {p i : ℕ} (hp : s.phase p = some (.locked i)) :
      Step (.write p) s (s.enter p (.written i) (s.pidfile.writeAtStart i (pidText p)))
  | install {s : Daemons} {p i : ℕ} (hp : s.phase p = some (.written i)) :
      Step (.install p) s (s.enter p (.serving i) s.pidfile)
  | unlink {s : Daemons} {p i : ℕ} {f : LockFile ℕ}
      (hp : s.phase p = some (.serving i) ∨ s.phase p = some (.leaving i))
      (hf : s.pidfile.unlink = some f) : Step (.unlink p) s (s.enter p (.leaving i) f)
  | missing {s : Daemons} {p i : ℕ}
      (hp : s.phase p = some (.serving i) ∨ s.phase p = some (.leaving i))
      (hf : s.pidfile.unlink = none) : Step (.unlink p) s (s.gone p)
  | exit {s : Daemons} {p i : ℕ} (hp : s.phase p = some (.leaving i)) :
      Step (.exit p) s (s.gone p)
  | die {s : Daemons} {p : ℕ} {ph : Phase} (hp : s.phase p = some ph) :
      Step (.die p) s (s.gone p)

theorem step_sound {a : Action} {s s' : Daemons} (h : step a s = some s') : Step a s s' := by
  cases a with
  | fork p =>
    simp only [step] at h
    split at h
    next hp =>
      cases h
      exact .fork hp
    next => cases h
  | openFile p =>
    simp only [step] at h
    split at h
    next hp =>
      cases h
      exact .openFile hp
    next => cases h
  | lock p =>
    simp only [step] at h
    split at h
    next i hp =>
      split at h
      next f hf =>
        cases h
        exact .locked hp hf
      next hf =>
        cases h
        exact .refused hp hf
    next => cases h
  | write p =>
    simp only [step] at h
    split at h
    next i hp =>
      cases h
      exact .write hp
    next => cases h
  | install p =>
    simp only [step] at h
    split at h
    next i hp =>
      cases h
      exact .install hp
    next => cases h
  | unlink p =>
    have hcase : ∀ i, (s.phase p = some (.serving i) ∨ s.phase p = some (.leaving i)) →
        (match s.pidfile.unlink with
          | some f => some (s.enter p (.leaving i) f)
          | none => some (s.gone p)) = some s' → Step (.unlink p) s s' := by
      intro i hp h
      split at h
      next f hf =>
        cases h
        exact .unlink hp hf
      next hf =>
        cases h
        exact .missing hp hf
    simp only [step] at h
    split at h
    next i hp => exact hcase i (.inl hp) h
    next i hp => exact hcase i (.inr hp) h
    next => cases h
  | exit p =>
    simp only [step] at h
    split at h
    next i hp =>
      cases h
      exact .exit hp
    next => cases h
  | die p =>
    simp only [step] at h
    split at h
    next ph hp =>
      cases h
      exact .die hp
    next => cases h

end StoneRidge.Daemon
