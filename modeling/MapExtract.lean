import MapExtract.Main
import MapExtract.Proofs.ArrivalOrder
import MapExtract.Proofs.BoxClipping
import MapExtract.Proofs.CellRounding
import MapExtract.Proofs.CommandOutcome
import MapExtract.Proofs.ExpansionDepth
import MapExtract.Proofs.ExpansionSteps
import MapExtract.Proofs.FileRolling
import MapExtract.Proofs.FixtureRoundTrip
import MapExtract.Proofs.ParentLookup
import MapExtract.Proofs.SelectionOrder
import MapExtract.Proofs.StoreConstruction
import MapExtract.Proofs.SummaryAnonymity
import MapExtract.Proofs.SummaryTies
import MapExtract.Proofs.TileBits
import MapExtract.Proofs.TileCover
import MapExtract.Proofs.NearestRank
import MapExtract.Proofs.NumberReading
import MapExtract.Proofs.BoxText
import MapExtract.Proofs.StoreConsistency
