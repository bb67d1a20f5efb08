import RigWarden.Backend.Basic
import RigWarden.Log.Simulated
import RigWarden.Log.SrbMiner
import RigWarden.Log.Xmrig

/-!
# Reading a line of any backend's log
-/

namespace RigWarden

def Backend.readLine : Backend → Text.Chars → Option Log.Sample
  | xmrig => Log.Xmrig.read
  | srbMiner => Log.SrbMiner.read
  | simulated => Log.Simulated.read

end RigWarden
