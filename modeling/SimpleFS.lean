import SimpleFS.Chained.FlatRuns
import SimpleFS.Chained.OwnRange
import SimpleFS.Image.Allocator
import SimpleFS.Image.BlockMap
import SimpleFS.Image.InodeTable
import SimpleFS.Requests.AllOrNothing
import SimpleFS.Requests.Crashes
import SimpleFS.Requests.FileRuns
import SimpleFS.Requests.Listing
import SimpleFS.Requests.Metadata
import SimpleFS.Requests.NameMap
import SimpleFS.Requests.NamesKept
import SimpleFS.Requests.Paths
import SimpleFS.Requests.Permissions
import SimpleFS.Requests.Pieces
import SimpleFS.Requests.Reclaim
import SimpleFS.Spec.CrashRuns
import SimpleFS.Spec.CrashStates
import SimpleFS.Spec.CrashSteps
import SimpleFS.Spec.StorePaths
import SimpleFS.Spec.TornStores
import SimpleFS.Spec.Alike
