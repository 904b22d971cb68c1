import TagStore.Catalog
import TagStore.CommandLine.Command
import TagStore.CommandLine.Files
import TagStore.CommandLine.Options
import TagStore.CommandLine.Run
import TagStore.CommandLine.Snapshot
import TagStore.Decimal.Binary64
import TagStore.Decimal.Shortest
import TagStore.Error
import TagStore.Item.Basic
import TagStore.Json.Basic
import TagStore.Json.Numeral
import TagStore.Json.Reader
import TagStore.Json.Token
import TagStore.Json.Tree
import TagStore.Json.Writer
import TagStore.Key
import TagStore.Listing.Ids
import TagStore.Listing.Token
import TagStore.Log
import TagStore.Main
import TagStore.Proofs.Agreement
import TagStore.Proofs.Ascending
import TagStore.Proofs.AtomicWrites
import TagStore.Proofs.Attempts
import TagStore.Proofs.BatchAdditions
import TagStore.Proofs.BatchEffects
import TagStore.Proofs.BatchEntries
import TagStore.Proofs.CalendarOrder
import TagStore.Proofs.CanonicalItems
import TagStore.Proofs.Changes
import TagStore.Proofs.CompositeKeys
import TagStore.Proofs.Creating
import TagStore.Proofs.Dates
import TagStore.Proofs.Deletable
import TagStore.Proofs.DeletedResources
import TagStore.Proofs.Deleting
import TagStore.Proofs.Effects
import TagStore.Proofs.Families
import TagStore.Proofs.FoundAgain
import TagStore.Proofs.Hydration
import TagStore.Proofs.IndependentWrites
import TagStore.Proofs.Intersection
import TagStore.Proofs.Journals
import TagStore.Proofs.KeptFiles
import TagStore.Proofs.KeptItems
import TagStore.Proofs.KeptTables
import TagStore.Proofs.KeyParts
import TagStore.Proofs.LatestStates
import TagStore.Proofs.ListWalks
import TagStore.Proofs.ListingTokens
import TagStore.Proofs.Listings
import TagStore.Proofs.Loading
import TagStore.Proofs.Locations
import TagStore.Proofs.Lookup
import TagStore.Proofs.MemoryPages
import TagStore.Proofs.MergedUpdates
import TagStore.Proofs.Merging
import TagStore.Proofs.NarrowedListings
import TagStore.Proofs.NewResources
import TagStore.Proofs.NewestTags
import TagStore.Proofs.Octets
import TagStore.Proofs.OrderingTexts
import TagStore.Proofs.Outcome
import TagStore.Proofs.Paging
import TagStore.Proofs.Parents
import TagStore.Proofs.PlannedBatches
import TagStore.Proofs.ProperItems
import TagStore.Proofs.Queries
import TagStore.Proofs.QuotedText
import TagStore.Proofs.Registry
import TagStore.Proofs.RegistrySteps
import TagStore.Proofs.Repointing
import TagStore.Proofs.Resuming
import TagStore.Proofs.RowLimits
import TagStore.Proofs.Runs
import TagStore.Proofs.Serving
import TagStore.Proofs.Simulation
import TagStore.Proofs.SoundSteps
import TagStore.Proofs.StableWalks
import TagStore.Proofs.StalePlans
import TagStore.Proofs.Statements
import TagStore.Proofs.StoredItems
import TagStore.Proofs.StoredTexts
import TagStore.Proofs.SuccessiveWrites
import TagStore.Proofs.Survivors
import TagStore.Proofs.TableListings
import TagStore.Proofs.TableReads
import TagStore.Proofs.TagStream
import TagStore.Proofs.TextItems
import TagStore.Proofs.Timestamps
import TagStore.Proofs.Transactions
import TagStore.Proofs.TypePages
import TagStore.Proofs.UndoneCreations
import TagStore.Proofs.Updatable
import TagStore.Proofs.UpdatedResources
import TagStore.Proofs.Updating
import TagStore.Proofs.Walks
import TagStore.Proofs.Watermarks
import TagStore.Proofs.WrittenTags
import TagStore.Read.Request
import TagStore.Read.Selection
import TagStore.Read.Walk
import TagStore.Resource.Basic
import TagStore.Resource.Checks
import TagStore.Resource.Create
import TagStore.Resource.Delete
import TagStore.Resource.Document
import TagStore.Resource.Find
import TagStore.Resource.Ids
import TagStore.Resource.Items
import TagStore.Resource.List
import TagStore.Resource.Update
import TagStore.ResourceType
import TagStore.Settings
import TagStore.SortedMap
import TagStore.Store.Address
import TagStore.Store.Backend
import TagStore.Store.Basic
import TagStore.Store.Database
import TagStore.Store.Error
import TagStore.Store.Location
import TagStore.Store.Memory
import TagStore.Store.Statement
import TagStore.Store.TableName
import TagStore.Tag.Basic
import TagStore.Tag.Change
import TagStore.Tag.Filter
import TagStore.Tag.Search
import TagStore.Text.Base64Url
import TagStore.Text.Blank
import TagStore.Text.Digits
import TagStore.Text.Percent
import TagStore.Text.Split
import TagStore.Text.Utf8
import TagStore.Time.Date
import TagStore.Time.Instant
import TagStore.Time.Rfc3339.Lenient
import TagStore.Time.Rfc3339.Reader
import TagStore.Time.Rfc3339.Writer
import TagStore.Version.Ordering
import TagStore.Version.Pointer
import TagStore.Version.Upkeep
import TagStore.Write.Batch
import TagStore.Write.Commit
import TagStore.Write.Operation
import TagStore.Write.Reason
