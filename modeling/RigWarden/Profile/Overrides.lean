import RigWarden.Backend.Basic
import RigWarden.Profile.Basic

/-!
# Overrides

What a peer or a command line asks for; a profile and a backend that were set before fill in the
rest.
-/

namespace RigWarden

structure Overrides where
  backend : Option Backend := none
  pool : Option String := none
  wallet : Option String := none
  worker : Option String := none
  algorithm : Option String := none
  threads : Option Nat := none
  maxCpuUsage : Option Nat := none
  deriving Repr, DecidableEq, Inhabited

def Overrides.profile (o : Overrides) (base : Profile) : Profile :=
  { pool := o.pool.getD base.pool
    wallet := o.wallet.getD base.wallet
    worker := o.worker.getD base.worker
    algorithm := o.algorithm.getD base.algorithm
    threads := o.threads.getD base.threads
    maxCpuUsage := o.maxCpuUsage.getD base.maxCpuUsage }

end RigWarden
