import Moqx.Fetch.Ascending
import Moqx.Fetch.DescendingRange
import Moqx.Fetch.DescendingLoss
import Moqx.Ranking.Publishers
import Moqx.Cache.Pins
import Moqx.Fetch.Found
import Moqx.Namespace.Overlap
import Moqx.Namespace.Exact
import Moqx.Namespace.Routes
import Moqx.Namespace.Network
import Moqx.Auth.Issue
import Moqx.Auth.Gate
import Moqx.Service.Duplicates
import Moqx.Rendezvous.Pairs
import Moqx.Subscription.Waiting
import Moqx.LocalForwarder.Tickets
import Moqx.Publication.Replaced
import Moqx.Cache.Records
import Moqx.SafeTrackName
import Moqx.Admin.Json
import Moqx.Auth.Cbor
import Moqx.Relay.CrossExec
