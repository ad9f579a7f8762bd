import ObjectGraph.Document.Print
import ObjectGraph.Proofs.DocumentWalk
import ObjectGraph.Proofs.Slots
import ObjectGraph.Value.Build
import ObjectGraph.Value.Display
import ObjectGraph.Value.Equal
import ObjectGraph.Proofs.Acts
import ObjectGraph.Proofs.Synced
import ObjectGraph.Proofs.Built
import ObjectGraph.Proofs.ReadBack
import ObjectGraph.Proofs.Concrete
import ObjectGraph.Proofs.LocationTypes
import ObjectGraph.Proofs.Soundness
import ObjectGraph.Proofs.RoundTrip
import ObjectGraph.Proofs.Updates
import ObjectGraph.Proofs.Owners
import ObjectGraph.Proofs.Locality
import ObjectGraph.Proofs.Commute
import ObjectGraph.Proofs.NamedFields
import ObjectGraph.Proofs.LastWrite
import ObjectGraph.Proofs.Resolves
import ObjectGraph.Proofs.WriteBack
import ObjectGraph.Proofs.FollowedTwice
import ObjectGraph.Proofs.MapOrder
import ObjectGraph.Proofs.DocumentReadBack
import ObjectGraph.Proofs.Accessors
import ObjectGraph.Proofs.Printing
import ObjectGraph.Proofs.Construction
import ObjectGraph.Proofs.Equality
import ObjectGraph.Proofs.Display
import ObjectGraph.Proofs.Observers
import ObjectGraph.Proofs.Holds
import ObjectGraph.Proofs.Located
import ObjectGraph.Proofs.MapEntries
import ObjectGraph.Proofs.CacheLife
