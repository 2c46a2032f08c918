import NamedContent.Bytes.Width
import NamedContent.Flow.Run
import NamedContent.Flow.Settings
import NamedContent.Controller.Pull
import NamedContent.Proofs.Bytes.Order
import NamedContent.Proofs.Flow.History
import NamedContent.Proofs.Flow.Meeting
import NamedContent.Proofs.Flow.Overtaking
import NamedContent.Proofs.Flow.Record
import NamedContent.Proofs.Flow.Skipping
import NamedContent.Proofs.Flow.Succession
import NamedContent.Proofs.Flow.Conservation
import NamedContent.Proofs.Flow.Consumption
import NamedContent.Proofs.Flow.Failing
import NamedContent.Proofs.Flow.Serving
import NamedContent.Proofs.Controller.Interleaving
import NamedContent.Proofs.Controller.Publishing
import NamedContent.Proofs.Table.Listing
import NamedContent.Proofs.Flow.Occupancy
import NamedContent.Proofs.Name.Text
import NamedContent.Proofs.Flow.Forgetting
import NamedContent.Proofs.Flow.Mirroring
import NamedContent.Proofs.Flow.Renewal
import NamedContent.Proofs.Flow.Separation
import NamedContent.Proofs.Flow.Dismissal
import NamedContent.Proofs.Flow.Progress
import NamedContent.Proofs.Flow.Straying
import NamedContent.Proofs.Controller.Closing
import NamedContent.Proofs.Flow.Ranking
import NamedContent.Proofs.Flow.Retrieval
import NamedContent.Proofs.Flow.Waiting
import NamedContent.Proofs.Flow.Stranding
import NamedContent.Proofs.Controller.Pulling
import NamedContent.Proofs.Interest.Children
import NamedContent.Proofs.Interest.Excluding
import NamedContent.Proofs.Table.Removal
import NamedContent.Proofs.Table.Visiting
import NamedContent.Proofs.Flow.Lifetime
import NamedContent.Proofs.Flow.Batching
import NamedContent.Proofs.Content.Identity
import NamedContent.Proofs.Name.Grammar
import NamedContent.Proofs.Name.Truncation
import NamedContent.Proofs.NameIndex.Runs
import NamedContent.Proofs.DeliveryQueue.Custody
import NamedContent.Proofs.Controller.Versions
