import Repkgs.Jsem.Broker
import Repkgs.Jigd.ServeAccounting
import Repkgs.Jigd.IdWrap
import Repkgs.Jigd.SkippedPacks
import Repkgs.Jigd.SealedPack
import Repkgs.Jigd.Restart
import Repkgs.Jigd.Crash
import Repkgs.Jigd.IdsDeadlock
import Repkgs.Jigd.IdsAnswers
import Repkgs.Jig.LinkerWords
import Repkgs.Jig.ATerm
import Repkgs.Nix.OverridesMerge
import Repkgs.Nix.OverridesApply
import Repkgs.Uptrack.Decide
import Repkgs.Jig.MachOSigned
import Repkgs.Jig.ElfSafety
import Repkgs.Jigd.SlotsFair
import Repkgs.Jigd.Wakeups
import Repkgs.Jig.RustArtefacts
import Repkgs.Jig.DirPut
import Repkgs.Jig.ResponseFiles
import Repkgs.Launch.CommandLine
import Repkgs.Jig.DaemonReplies
import Repkgs.Uptrack.LockAdds
import Repkgs.Builder.Links
import Repkgs.Builder.Shebangs
import Repkgs.CrtInterp.Load
import Repkgs.Jig.Nix32
import Repkgs.Jig.Sha256
import Repkgs.Jig.MovedPaths
import Repkgs.Builder.Exports
import Repkgs.Jig.RequestKey
