import Mathlib.Data.List.Basic

/-!
The locks of `cache.c`, once `use_cache_lock` is set. Each section that holds
`lock_mutex` is one step; a thread is at one of the places between two sections.
-/

namespace TorAndroid.Dns.CacheLock

inductive Place
  -- In no lock function, without a lock.
  | out
  | reading
  | writing
  -- In `yield_lock_cache_rw` behind its test, still with the lock.
  | yielding
  -- In the pause of `yield_lock_cache_rw`, without the lock.
  | napping
  -- In `pthread_cond_wait` on `r_cond`, and past it without the mutex.
  | waitsR
  | wokenR
  -- The same for `rw_cond`; `timed` in `timedlock_cache_rw`.
  | waitsRw (timed : Bool)
  | wokenRw (timed : Bool)
  -- `pthread_cond_timedwait` has given up, without the mutex.
  | timedOut
deriving DecidableEq, Repr

structure State where
  cacheWLock : Nat
  cacheRLock : Nat
  rPend : Nat
  rwPend : Nat
  rSusp : Nat
  threads : List Place
deriving DecidableEq, Repr

def State.init (n : Nat) : State := ⟨0, 0, 0, 0, 0, List.replicate n .out⟩

def suspThresh (rPend : Nat) : Nat := rPend / 2 + 2

def State.move (s : State) (i : Nat) (p : Place) : State :=
  { s with threads := s.threads.set i p }

/-- `pthread_cond_signal(&rw_cond)`: one waiter is woken, if there is one. -/
def signalRw (s : State) : Option Nat → Option State
  | some k =>
      match s.threads[k]? with
      | some (.waitsRw timed) => some (s.move k (.wokenRw timed))
      | _ => none
  | none =>
      if Place.waitsRw false ∈ s.threads ∨ Place.waitsRw true ∈ s.threads then none
      else some s

def Place.wakeR : Place → Place
  | .waitsR => .wokenR
  | p => p

/-- `pthread_cond_broadcast(&r_cond)`. -/
def broadcastR (s : State) : State :=
  { s with threads := s.threads.map Place.wakeR }

/-- The loop of `lock_cache_r` from its test to the next wait or to the end. -/
def loopR (s : State) (i : Nat) : State :=
  let s := if suspThresh s.rPend < s.rwPend then { s with rSusp := 1 } else s
  if s.rSusp ≠ 0 ∨ s.cacheWLock ≠ 0 then s.move i .waitsR
  else { s with cacheRLock := s.cacheRLock + 1, rPend := s.rPend - 1 }.move i .reading

def lockCacheR (s : State) (i : Nat) : State :=
  loopR { s with rPend := s.rPend + 1 } i

def unlockCacheR (s : State) (i : Nat) (woken : Option Nat) : Option State :=
  let s := if 0 < s.cacheRLock then { s with cacheRLock := s.cacheRLock - 1 } else s
  let s := s.move i .out
  if s.cacheRLock = 0 then signalRw s woken else some s

/-- The loop of `lock_cache_rw`, which `timedlock_cache_rw` and the second half of
`yield_lock_cache_rw` repeat. -/
def loopRw (s : State) (i : Nat) (timed : Bool) : State :=
  if s.cacheWLock ≠ 0 ∨ s.cacheRLock ≠ 0 then s.move i (.waitsRw timed)
  else { s with cacheWLock := 1, rwPend := s.rwPend - 1 }.move i .writing

def lockCacheRw (s : State) (i : Nat) (timed : Bool) : State :=
  loopRw { s with rwPend := s.rwPend + 1 } i timed

/-- `cleanup_return` of `timedlock_cache_rw` after `ETIMEDOUT`. -/
def cleanupReturn (s : State) (i : Nat) : State :=
  { s with rwPend := s.rwPend - 1 }.move i .out

/-- The section that `unlock_cache_rw` and the first half of `yield_lock_cache_rw`
share. -/
def releaseRw (s : State) (woken : Option Nat) : Option State :=
  let s := { s with cacheWLock := 0, rSusp := 0 }
  if s.rPend = 0 ∨ suspThresh s.rPend < s.rwPend then signalRw s woken
  else some (broadcastR s)

def unlockCacheRw (s : State) (i : Nat) (woken : Option Nat) : Option State :=
  releaseRw (s.move i .out) woken

inductive Action
  | lockR (i : Nat)
  | resumeR (i : Nat)
  | unlockR (i : Nat) (woken : Option Nat)
  | lockRw (i : Nat)
  | timedlockRw (i : Nat)
  | resumeRw (i : Nat)
  | timeOut (i : Nat)
  | cleanupReturn (i : Nat)
  | unlockRw (i : Nat) (woken : Option Nat)
  | yieldTest (i : Nat)
  | yieldRelease (i : Nat) (woken : Option Nat)
  | yieldLock (i : Nat)
  -- Spurious wake-ups.
  | wakeR (i : Nat)
  | wakeRw (i : Nat)
deriving DecidableEq, Repr

/-- One step of one thread. A thread calls only the functions that fit the lock it
holds. -/
def step (s : State) : Action → Option State
  | .lockR i => if s.threads[i]? = some .out then some (lockCacheR s i) else none
  | .resumeR i => if s.threads[i]? = some .wokenR then some (loopR s i) else none
  | .unlockR i woken =>
      if s.threads[i]? = some .reading then unlockCacheR s i woken else none
  | .lockRw i => if s.threads[i]? = some .out then some (lockCacheRw s i false) else none
  | .timedlockRw i =>
      if s.threads[i]? = some .out then some (lockCacheRw s i true) else none
  | .resumeRw i =>
      match s.threads[i]? with
      | some (.wokenRw timed) => some (loopRw s i timed)
      | _ => none
  | .timeOut i =>
      if s.threads[i]? = some (.waitsRw true) then some (s.move i .timedOut) else none
  | .cleanupReturn i =>
      if s.threads[i]? = some .timedOut then
        some (TorAndroid.Dns.CacheLock.cleanupReturn s i)
      else none
  | .unlockRw i woken =>
      if s.threads[i]? = some .writing then unlockCacheRw s i woken else none
  | .yieldTest i =>
      if s.threads[i]? = some .writing then
        -- Without a pending thread the call returns at once.
        if s.rPend = 0 ∧ s.rwPend = 0 then some s else some (s.move i .yielding)
      else none
  | .yieldRelease i woken =>
      if s.threads[i]? = some .yielding then releaseRw (s.move i .napping) woken else none
  | .yieldLock i =>
      if s.threads[i]? = some .napping then some (lockCacheRw s i false) else none
  | .wakeR i =>
      if s.threads[i]? = some .waitsR then some (s.move i .wokenR) else none
  | .wakeRw i =>
      match s.threads[i]? with
      | some (.waitsRw timed) => some (s.move i (.wokenRw timed))
      | _ => none

def Place.inTimedlock : Place → Bool
  | .waitsRw true | .wokenRw true | .timedOut => true
  | _ => false

def Action.isTimedlock : Action → Bool
  | .timedlockRw _ => true
  | _ => false

/-- `timedlock_cache_rw` is only called while no thread is in it. -/
def OneTimed (s : State) (a : Action) : Prop :=
  a.isTimedlock = true → ∀ p ∈ s.threads, p.inTimedlock = false

instance (s : State) (a : Action) : Decidable (OneTimed s a) :=
  inferInstanceAs (Decidable (_ → _))

def Place.holdsRw : Place → Bool
  | .writing | .yielding => true
  | _ => false

def Place.holds (p : Place) : Bool := p.holdsRw || p = .reading

def Place.waits : Place → Bool
  | .waitsR | .waitsRw _ => true
  | _ => false

/-- The thread has been woken or is about to take the lock. -/
def Place.goesOn : Place → Bool
  | .wokenR | .wokenRw _ | .napping => true
  | _ => false

/-- A thread with the rw lock is the only one with a lock. -/
def State.Exclusive (s : State) : Prop :=
  ∀ (i k : Nat) (p q : Place), s.threads[i]? = some p → s.threads[k]? = some q →
    p.holdsRw = true → k ≠ i → q.holds = false

/-- Nobody has a lock, threads wait for one, and no thread will take it. -/
def State.Stuck (s : State) : Prop :=
  (∀ p ∈ s.threads, p.holds = false) ∧ (∃ p ∈ s.threads, p.waits = true) ∧
    ∀ p ∈ s.threads, p.goesOn = false

end TorAndroid.Dns.CacheLock
