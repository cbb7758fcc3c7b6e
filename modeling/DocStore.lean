import DocStore.Log.Loggers
import DocStore.Proofs.Filter.Meaning
import DocStore.Proofs.Filter.Merge
import DocStore.Proofs.Session.Answers
import DocStore.Proofs.Session.Windows
import DocStore.Session.Migration
import DocStore.Settings.Source
import DocStore.Proofs.Filter.Embedded
import DocStore.Proofs.Filter.Refusals
import DocStore.Proofs.Filter.Evaluation
import DocStore.Proofs.Codec.Conforming
import DocStore.Proofs.Codec.RoundTrip
import DocStore.Proofs.Calendar.Iso
import DocStore.Proofs.Number.BigEndian
import DocStore.Proofs.Wire.Head
import DocStore.Proofs.Regex.Again
import DocStore.Proofs.Wire.Scalar
import DocStore.Proofs.Wire.RoundTrip
import DocStore.Proofs.Wire.Limits
import DocStore.Proofs.Value.Mark
import DocStore.Proofs.Store.Orderly
import DocStore.Proofs.Store.Operations
import DocStore.Proofs.Store.Loading
import DocStore.Proofs.Store.Snapshot
import DocStore.Proofs.Filter.Dictionary
import DocStore.Proofs.Store.Seniority
import DocStore.Proofs.Store.Updating
import DocStore.Proofs.Wire.Lossless
import DocStore.Proofs.Wire.Corruption
import DocStore.Proofs.Store.Delivery
import DocStore.Proofs.Session.Closing
import DocStore.Proofs.Codec.Faults
import DocStore.Proofs.Query.Arrangement
import DocStore.Proofs.Query.Projected
import DocStore.Proofs.Codec.Identity
import DocStore.Proofs.Codec.Optional
import DocStore.Proofs.Store.Shown
import DocStore.Proofs.Session.Beside
import DocStore.Proofs.Session.Tracking
import DocStore.Proofs.Session.Persisting
import DocStore.Proofs.Session.Reclassing
import DocStore.Proofs.Session.Renaming
import DocStore.Proofs.Session.Clearing
import DocStore.Proofs.Session.Deleting
import DocStore.Proofs.Store.Refusing
import DocStore.Proofs.Session.Selecting
import DocStore.Proofs.CollectionName
import DocStore.Proofs.Query.Building
import DocStore.Proofs.Codec.Attributes
import DocStore.Proofs.Codec.Discriminator
import DocStore.Proofs.Value.Reflexive
import DocStore.Proofs.Codec.Definite
import DocStore.Proofs.Filter.Attributes
import DocStore.Proofs.Document.Joined
import DocStore.Proofs.Query.Ties
import DocStore.Proofs.Query.Landing
import DocStore.Proofs.Store.InPlace
import DocStore.Proofs.Query.Drafts
