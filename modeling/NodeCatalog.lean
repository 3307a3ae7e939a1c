import NodeCatalog.Assembly
import NodeCatalog.Catalog.Move
import NodeCatalog.Proofs.After.Extension
import NodeCatalog.Proofs.After.Idempotence
import NodeCatalog.Proofs.After.Numbering
import NodeCatalog.Proofs.Assembly.Anchored
import NodeCatalog.Proofs.Assembly.Complete
import NodeCatalog.Proofs.Assembly.Reordered
import NodeCatalog.Proofs.Catalog.Addressed
import NodeCatalog.Proofs.Catalog.Changes
import NodeCatalog.Proofs.Catalog.Commute
import NodeCatalog.Proofs.Catalog.Conservation
import NodeCatalog.Proofs.Catalog.Faults
import NodeCatalog.Proofs.Catalog.Lookup
import NodeCatalog.Proofs.Catalog.MoveBack
import NodeCatalog.Proofs.Catalog.Refusal
import NodeCatalog.Proofs.Catalog.Reports
import NodeCatalog.Proofs.Catalog.Searches
import NodeCatalog.Proofs.Catalog.SideBySide
import NodeCatalog.Proofs.Catalog.Supply
import NodeCatalog.Proofs.Container.Relocated
import NodeCatalog.Proofs.Json.Declared
import NodeCatalog.Proofs.Path.Normal
import NodeCatalog.Proofs.Snapshot.Factory
import NodeCatalog.Proofs.Snapshot.Faithful
import NodeCatalog.Proofs.Snapshot.Written
import NodeCatalog.Proofs.After.Layout
