import Wednesday.BlobCodec
import Wednesday.BtreeRoom
import Wednesday.CleanupCalls
import Wednesday.ErrorMessages
import Wednesday.ErrorTrace
import Wednesday.LatchThreads
import Wednesday.Lib.FenceTreeSteps
import Wednesday.PageInsert
import Wednesday.PageSearch
import Wednesday.PagerDeadlock
import Wednesday.PagerEntry
import Wednesday.PagerNext
import Wednesday.PagerProcess
import Wednesday.PagerReservations
import Wednesday.TreeAlone
import Wednesday.TreeFailures
import Wednesday.TreeForest
import Wednesday.TreeIndex
import Wednesday.TreeLatches
import Wednesday.TreeMoves
import Wednesday.TreeRoom
import Wednesday.TreeShape
import Wednesday.TreeSteps
import Wednesday.TreeUnseen
import Wednesday.TreeWaits
import Wednesday.Uuid
import Wednesday.VarintRoundTrip
