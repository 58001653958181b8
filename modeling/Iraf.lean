import Iraf.Lib.BracketSearch
import Iraf.Lib.IntBits
import Iraf.Lib.MixedRadix
import Iraf.Lib.RunLength
import Iraf.Lib.SegmentWalk
import Iraf.Lib.Tiling
import Iraf.Plio.LineRopBuffer
import Iraf.Plio.LinePut
import Iraf.Plio.LineToRanges
import Iraf.Plio.Readers
import Iraf.Plio.RopAgreement
import Iraf.Plio.Accounting
import Iraf.Plio.SectNotEmpty
import Iraf.Plio.PlaneAccess
import Iraf.Plio.SaveLoad
import Iraf.Pmio.VisitsOnce
import Iraf.Pmio.PlsegMasked
import Iraf.Fmtio.PatTotal
import Iraf.Osb.Mii32Inverse
import Iraf.Selector.RstEdits
import Iraf.Selector.RowNumber
import Iraf.Selector.RowIntersection
import Iraf.Selector.RowExpression
import Iraf.Fio.PushbackOrder
import Iraf.Fio.PushbackOverflow
import Iraf.Fio.LongLineExact
import Iraf.Cl.HistoryLog
import Iraf.Cl.HistoryMacros
import Iraf.Cl.ProcessNames
import Iraf.Cl.StacksApart
import Iraf.Imio.MaskHeaderKept
import Iraf.Boot.TarRoundTrip
import Iraf.Qpoe.LookupTable
import Iraf.Qpoe.ReadPixels
import Iraf.Qpoe.EventFileExact
import Iraf.Qpoe.ParseRanges
import Iraf.Qpoe.FailedTerm
import Iraf.Qpoe.IndexStored
import Iraf.Xtools.RangeAlgebra
import Iraf.Xtools.RangeNumbers
import Iraf.Symtab.Storage
import Iraf.Symtab.SaveRestore
import Iraf.Etc.Gqsort
import Iraf.Memio.Salloc
import Iraf.Fio.VfnClose
import Iraf.Fmtio.Gltoc
import Iraf.Fmtio.Strdic
import Iraf.Fmtio.LexnumLongest
import Iraf.Fmtio.PatLanguage
import Iraf.Fmtio.PatFirst
import Iraf.Etc.Brktime
import Iraf.Osb.Repack
import Iraf.Osb.Bitmov
import Iraf.Fmio.FileCacheValid
import Iraf.Imio.Iminfi
import Iraf.Imio.ImisecShows
import Iraf.Tty.Ttyindex
import Iraf.Tty.TtysubiMatched
import Iraf.Boot.Fncache
import Iraf.Mwcs.Wattrs
import Iraf.Mwcs.IwPutstr
import Iraf.Selector.TrsRows
import Iraf.Fnt.NameAssembly
