import ConfigTree.Main
import ConfigTree.Proofs.Json.Record
import ConfigTree.Proofs.Message.RoundTrip
import ConfigTree.Proofs.Path.RoundTrip
import ConfigTree.Proofs.Scalar.Exact
import ConfigTree.Proofs.Schema.Homes
import ConfigTree.Proofs.Schema.Kept
import ConfigTree.Proofs.Store.Bytes
import ConfigTree.Proofs.Store.Commute
import ConfigTree.Proofs.Store.Entries
import ConfigTree.Proofs.Store.Fail
import ConfigTree.Proofs.Store.ForeignKeys
import ConfigTree.Proofs.Store.Identity
import ConfigTree.Proofs.Store.Update
import ConfigTree.Proofs.Subscription.Pipeline
import ConfigTree.Proofs.Subscription.Restore
import ConfigTree.Proofs.Tree.Addressable
import ConfigTree.Proofs.Tree.PruneAgain
import ConfigTree.Proofs.Tree.Walk
import ConfigTree.Proofs.Tree.Wildcard
import ConfigTree.Proofs.Text.Utf8
