import OrderedBag.Element
import OrderedBag.Proofs.BothEnds
import OrderedBag.Proofs.CheckedTotals
import OrderedBag.Proofs.Confinement
import OrderedBag.Proofs.DoubleReversal
import OrderedBag.Proofs.Doubling
import OrderedBag.Proofs.ElementSets
import OrderedBag.Proofs.EntryTexts
import OrderedBag.Proofs.Evaluations
import OrderedBag.Proofs.Failures
import OrderedBag.Proofs.FlatRanges
import OrderedBag.Proofs.GatedCursors
import OrderedBag.Proofs.IntervalLaws
import OrderedBag.Proofs.Keepsakes
import OrderedBag.Proofs.Lifetimes
import OrderedBag.Proofs.LiveCursors
import OrderedBag.Proofs.Mirror
import OrderedBag.Proofs.Origins
import OrderedBag.Proofs.OwnedSets
import OrderedBag.Proofs.Overflow
import OrderedBag.Proofs.Partitions
import OrderedBag.Proofs.Readings
import OrderedBag.Proofs.Rebuilding
import OrderedBag.Proofs.Rejections
import OrderedBag.Proofs.SafeLookups
import OrderedBag.Proofs.Strides
import OrderedBag.Proofs.Tally
import OrderedBag.Proofs.ThinSources
import OrderedBag.Session.Basic
import OrderedBag.Proofs.OpenIterators
import OrderedBag.Proofs.SetReadings
