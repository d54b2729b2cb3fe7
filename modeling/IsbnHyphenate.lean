import IsbnHyphenate.VecWords
import IsbnHyphenate.FstPrefix
import IsbnHyphenate.FstInvariant
import IsbnHyphenate.FstPackSim
import IsbnHyphenate.FstMeasure
import IsbnHyphenate.FstDump
import IsbnHyphenate.IsbnReport
import IsbnHyphenate.IsbnDocument
import IsbnHyphenate.IsbnVerbose
import IsbnHyphenate.IsbnMessages
import IsbnHyphenate.IsbnLedger
import IsbnHyphenate.IsbnDump
import IsbnHyphenate.HyphenateLoaded
import IsbnHyphenate.HyphenateGroups
import IsbnHyphenate.DocumentOrder
import IsbnHyphenate.StreamEnd
import IsbnHyphenate.SglRecords
import IsbnHyphenate.CommandStreams
import IsbnHyphenate.CommandArgv
import IsbnHyphenate.SglLedger
import IsbnHyphenate.ParseCardinal
import IsbnHyphenate.FstCopies
