import TorAndroid.Lib.GuardedRun
import TorAndroid.Lib.ThreadPool

/-!
The step system of `OrbotVpnManager`: intents and revocations handled on the
service thread, the VPN threads that `setupTun2Socks` creates and the bypass
threads that `startSocksBypass` creates. An intent is one step; a VPN or bypass
thread takes one step for each statement that reads or writes a shared field or
calls out of the class. The action names the outcome of the external call.
-/

namespace TorAndroid.Vpn.Manager

/-- The descriptor of an interface opened by `Builder.establish`. -/
inductive Descriptor
  -- Owned by its `ParcelFileDescriptor`.
  | held
  -- Handed over by `detachFd` to a running `Tun2Socks.Start`.
  | detached
  | closed
deriving DecidableEq, Repr

/-- Program points of `run()` in `setupTun2Socks`. The points after
`establish` carry the local variable `newInterface`, `enterStart` the
interface read as the argument of `Tun2Socks.Start`. -/
inductive VpnPoint
  | begin
  | sleeping
  | startDNS
  | configure
  | establish
  | checkOld (newInterface : Option Nat)
  | closeOld (newInterface : Option Nat)
  | clearOld (newInterface : Option Nat)
  | assign (newInterface : Option Nat)
  | callStart
  | enterStart (vpnInterface : Option Nat)
  | inStart (vpnInterface : Nat)
  | reset
  | ended
deriving DecidableEq, Repr

/-- The listening socket `ss` of a `ProxyServer` object. -/
inductive ServerSocketState
  | unset
  | listening
  | closed
deriving DecidableEq, Repr

/-- Program points of `run()` in `startSocksBypass`. -/
inductive BypassPoint
  | choosePort
  | stopOld
  | create
  | callStart
  | listen (server : Nat)
  | serving (server : Nat)
  | ended
deriving DecidableEq, Repr

inductive Outcome
  | ok
  | null
  | throws
deriving DecidableEq, Repr

inductive Action
  | start
  | stop (closeThrows : Bool)
  | refresh
  | onRevoke (closeThrows : Bool)
  | vpn (i : Nat) (outcome : Outcome)
  | bypass (i : Nat) (random : Fin 1000) (outcome : Outcome)
deriving DecidableEq, Repr

/-- Threads, interfaces and `ProxyServer` objects are named by their position
in the lists that record them. -/
structure State where
  mInterface : Option Nat
  isRestart : Bool
  mThreadVPN : Option Nat
  mSocksProxyServer : Option Nat
  sSocksProxyServerPort : Int
  threads : List VpnPoint
  interfaces : List Descriptor
  bypassThreads : List BypassPoint
  servers : List ServerSocketState
deriving DecidableEq, Repr

def State.init : State where
  mInterface := none
  isRestart := false
  mThreadVPN := none
  mSocksProxyServer := none
  sSocksProxyServerPort := -1
  threads := []
  interfaces := []
  bypassThreads := []
  servers := []

namespace State

def goto (s : State) (i : Nat) (p : VpnPoint) : State :=
  { s with threads := s.threads.set i p }

def gotoBypass (s : State) (i : Nat) (p : BypassPoint) : State :=
  { s with bypassThreads := s.bypassThreads.set i p }

def isAlive (s : State) (i : Nat) : Bool :=
  match s.threads[i]? with
  | some .ended => false
  | some _ => true
  | none => false

/-- `ParcelFileDescriptor.close`; a detached descriptor is not its to close. -/
def closeInterface (s : State) (j : Nat) : State :=
  match s.interfaces[j]? with
  | some .held => { s with interfaces := s.interfaces.set j .closed }
  | _ => s

/-- `ProxyServer.stop`, which does nothing before `ss` is set. -/
def stopServer (s : State) (k : Nat) : State :=
  match s.servers[k]? with
  | some .listening => { s with servers := s.servers.set k .closed }
  | _ => s

end State

/-- A running `Tun2Socks.Start` returns once `Tun2Socks.Stop` is called. -/
def VpnPoint.terminate : VpnPoint → VpnPoint
  | .inStart _ => .reset
  | p => p

/-- The native run closes the descriptor it was given when it ends. -/
def Descriptor.terminate : Descriptor → Descriptor
  | .detached => .closed
  | d => d

def tun2SocksStop (s : State) : State :=
  { s with
    threads := s.threads.map VpnPoint.terminate
    interfaces := s.interfaces.map Descriptor.terminate }

def stopSocksBypass (s : State) : State :=
  match s.mSocksProxyServer with
  | some k => { s.stopServer k with mSocksProxyServer := none }
  | none => s

def startSocksBypass (s : State) : State :=
  { s with bypassThreads := s.bypassThreads ++ [.choosePort] }

/-- The part of `setupTun2Socks` before the thread is created. -/
def stopPrevious (s : State) : State :=
  match s.mInterface with
  | some _ => tun2SocksStop { s with isRestart := true }
  | none => s

def setupTun2Socks (s : State) : State :=
  let s := stopPrevious s
  { s with
    threads := s.threads ++ [.begin]
    mThreadVPN := some s.threads.length }

/-- The guarded `mInterface.close()` of `stopVPN`. -/
def destroyInterface (s : State) (closeThrows : Bool) : State :=
  match s.mInterface with
  | some j =>
      if closeThrows then s else { s.closeInterface j with mInterface := none }
  | none => s

/-- `stopVPN`; the `killProcess` of pdnsd touches none of the fields. -/
def stopVPN (mIsLollipop : Bool) (s : State) (closeThrows : Bool) : State :=
  let s := if mIsLollipop then stopSocksBypass s else s
  let s := tun2SocksStop (destroyInterface s closeThrows)
  { s with mThreadVPN := none }

def hasLiveSession (s : State) : Bool :=
  match s.mThreadVPN with
  | some i => s.isAlive i
  | none => false

def handleStart (mIsLollipop : Bool) (s : State) : State :=
  if hasLiveSession s then s
  else setupTun2Socks (if mIsLollipop then s else startSocksBypass s)

def handleRefresh (mIsLollipop : Bool) (s : State) : State :=
  let s := if mIsLollipop then s else startSocksBypass s
  if s.isRestart then s else setupTun2Socks s

def onRevoke (mIsLollipop : Bool) (s : State) (closeThrows : Bool) : State :=
  let s := if s.isRestart then s else stopVPN mIsLollipop s closeThrows
  { s with isRestart := false }

/-- The program points whose external call may throw. -/
def VpnPoint.mayThrow : VpnPoint → Bool
  | .sleeping | .startDNS | .configure | .establish | .closeOld _
  | .enterStart (some _) => true
  | _ => false

/-- One step of the `i`-th VPN thread. Every exception ends up in the catch
block that only logs, so it ends the thread. -/
def vpnStep (s : State) (i : Nat) : Outcome → Option State
  | .throws =>
      match s.threads[i]? with
      | some p => if p.mayThrow then some (s.goto i .ended) else none
      | none => none
  | .null =>
      match s.threads[i]? with
      | some .establish => some (s.goto i (.checkOld none))
      | _ => none
  | .ok =>
      match s.threads[i]? with
      | some .begin => some (s.goto i (if s.isRestart then .sleeping else .startDNS))
      | some .sleeping => some (s.goto i .startDNS)
      | some .startDNS => some (s.goto i .configure)
      | some .configure => some (s.goto i .establish)
      | some .establish =>
          some ({ s with interfaces := s.interfaces ++ [Descriptor.held] }.goto i
            (.checkOld (some s.interfaces.length)))
      | some (.checkOld new) =>
          some (s.goto i (if s.mInterface.isSome then .closeOld new else .assign new))
      | some (.closeOld new) =>
          match s.mInterface with
          | some j => some ((s.closeInterface j).goto i (.clearOld new))
          -- the field is read again, so another step may have nulled it
          | none => some (s.goto i .ended)
      | some (.clearOld new) => some ({ s with mInterface := none }.goto i (.assign new))
      | some (.assign new) => some ({ s with mInterface := new }.goto i .callStart)
      | some .callStart => some (s.goto i (.enterStart s.mInterface))
      | some (.enterStart none) => some (s.goto i .reset)
      | some (.enterStart (some j)) =>
          match s.interfaces[j]? with
          | some .held =>
              some ({ s with interfaces := s.interfaces.set j .detached }.goto i
                (.inStart j))
          -- `detachFd` rejects a descriptor that is already closed
          | _ => some (s.goto i .ended)
      | some .reset => some ({ s with isRestart := false }.goto i .ended)
      | some (.inStart _) | some .ended | none => none

/-- One step of the `i`-th bypass thread; `random` is the value of
`Math.random() * 1000`, truncated. -/
def bypassStep (s : State) (i : Nat) (random : Fin 1000) : Outcome → Option State
  | .ok =>
      match s.bypassThreads[i]? with
      | some .choosePort =>
          let port : Int :=
            if s.sSocksProxyServerPort = -1 then random.val + 10000
            else s.sSocksProxyServerPort
          some ({ s with sSocksProxyServerPort := port }.gotoBypass i .stopOld)
      | some .stopOld => some ((stopSocksBypass s).gotoBypass i .create)
      | some .create =>
          some ({ s with
            servers := s.servers ++ [ServerSocketState.unset]
            mSocksProxyServer := some s.servers.length }.gotoBypass i .callStart)
      | some .callStart =>
          match s.mSocksProxyServer with
          | some k => some (s.gotoBypass i (.listen k))
          | none => some (s.gotoBypass i .ended)
      | some (.listen k) =>
          some ({ s with servers := s.servers.set k .listening }.gotoBypass i (.serving k))
      | some (.serving _) => some s
      | some .ended | none => none
  | .throws =>
      match s.bypassThreads[i]? with
      | some .callStart | some (.listen _) | some (.serving _) =>
          some (s.gotoBypass i .ended)
      | _ => none
  | .null => none

def step (mIsLollipop : Bool) (s : State) : Action → Option State
  | .start => some (handleStart mIsLollipop s)
  | .stop closeThrows => some (stopVPN mIsLollipop s closeThrows)
  | .refresh => some (handleRefresh mIsLollipop s)
  | .onRevoke closeThrows => some (onRevoke mIsLollipop s closeThrows)
  | .vpn i outcome => vpnStep s i outcome
  | .bypass i random outcome => bypassStep s i random outcome

end TorAndroid.Vpn.Manager
