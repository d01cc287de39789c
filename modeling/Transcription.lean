import Transcription.Json.Quoted
import Transcription.Log
import Transcription.Remark.Codec
import Transcription.Session
import Transcription.Validation.Interleaving
import Transcription.Proofs.Scanning
import Transcription.Proofs.Segments
import Transcription.Proofs.WrittenNode
import Transcription.Proofs.Junctions
import Transcription.Proofs.Words
import Transcription.Proofs.WrittenGroup
import Transcription.Proofs.Seams
import Transcription.Proofs.Separation
import Transcription.Proofs.Projection
import Transcription.Proofs.Recompilation
import Transcription.Proofs.WellNested
import Transcription.Proofs.Fragments
import Transcription.Proofs.SingleChange
import Transcription.Proofs.TaggedWords
import Transcription.Proofs.ImportedText
import Transcription.Proofs.ManifestFiles
import Transcription.Proofs.BreakTags
import Transcription.Proofs.Reimport
import Transcription.Proofs.LocalEdits
import Transcription.Proofs.RemarkFiles
import Transcription.Proofs.WorkerSchedules
import Transcription.Proofs.SchemaCache
import Transcription.Proofs.GroupShapes
import Transcription.Proofs.LoneNodes
import Transcription.Proofs.InsertedTags
import Transcription.Proofs.CrossedElements
import Transcription.Proofs.WordNumbers
import Transcription.Proofs.LineNumbers
import Transcription.Proofs.NamedCharacters
import Transcription.Proofs.AttributeNames
import Transcription.Proofs.LegalMarkup
import Transcription.Proofs.ManifestFaults
import Transcription.Proofs.NormalizedReading
import Transcription.Proofs.SegmentNumbers
import Transcription.Proofs.BreakLabels
import Transcription.Proofs.VisibleCharacters
