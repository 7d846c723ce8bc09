import Huliho.Lib.Table
import Huliho.Lib.Journal
import Huliho.Store.Types
import Huliho.Store.Changes
import Huliho.Store.Ledger
import Huliho.Store.Threads
import Huliho.Store.Folders
import Huliho.Store.Gmail
import Huliho.Store.Emails
import Huliho.Store.Moves
import Huliho.Store.Mailboxes
import Huliho.Store.View
import Huliho.Store.Tracking
import Huliho.Store.RowSteps
import Huliho.Store.Joins
import Huliho.Store.Arrivals
import Huliho.Store.Leaving
import Huliho.Store.Closing
import Huliho.Lib.Loops
import Huliho.Store.Batches
import Huliho.Store.ClientWrites
import Huliho.Store.PassWrites
import Huliho.Store.Run
import Huliho.Store.Passes
import Huliho.Store.Collisions
import Huliho.Jmap.Changes
import Huliho.Jmap.Windows
import Huliho.Jmap.Replica
import Huliho.Jmap.Recall
import Huliho.Lib.Lines
import Huliho.Message.Header
import Huliho.Message.Fields
import Huliho.Message.Forms
import Huliho.Message.Sendable
import Huliho.Lib.Partition
import Huliho.Store.Threading
import Huliho.Sync.Walk
import Huliho.Sync.Record
import Huliho.Sync.Journey
import Huliho.Sync.Narrowing
import Huliho.Lib.Patches
import Huliho.Lib.Record
import Huliho.Cache.Types
import Huliho.Cache.Patch
import Huliho.Cache.Counts
import Huliho.Cache.Lists
import Huliho.Cache.Pending
import Huliho.Cache.Overlay
import Huliho.Cache.Landing
import Huliho.Cache.Flush
import Huliho.Cache.Jobs
import Huliho.Cache.Run
import Huliho.Cache.Toasts
import Huliho.Cache.Changes
import Huliho.Cache.Landings
import Huliho.Cache.Restated
import Huliho.Cache.Logged
import Huliho.Cache.Answers
import Huliho.Cache.Invariants
import Huliho.Cache.Emptying
import Huliho.Cache.Served
import Huliho.Cache.Losses
import Huliho.Lib.Feeds
import Huliho.Session.Lexer
import Huliho.Session.Guard
import Huliho.Folders.Types
import Huliho.Folders.Plan
import Huliho.Fetching.Bodies
import Huliho.Fetching.Worker
import Huliho.Fetching.Kept
import Huliho.Fetching.Settled
import Huliho.Folders.Checks
import Huliho.Folders.Rows
import Huliho.Folders.Roles
import Huliho.Lib.Forests
import Huliho.Folders.Tree
import Huliho.Folders.Moves
import Huliho.Folders.Following
import Huliho.Folders.Subscriptions
import Huliho.Lib.Steps
import Huliho.Gate.Rules
import Huliho.Gate.Stops
import Huliho.Login.Types
import Huliho.Login.Sessions
import Huliho.Lib.Effects
import Huliho.Upstream.Networks
import Huliho.Upstream.Outbound
import Huliho.Upstream.Reach
import Huliho.Lib.Spans
import Huliho.Search.Window
import Huliho.Search.Pages
import Huliho.Search.Front
import Huliho.Search.Gathering
import Huliho.Lib.Claims
import Huliho.Sync.Rematch
import Huliho.Sync.Renumbered
import Huliho.Lib.Scans
import Huliho.Search.Pieces
import Huliho.Search.Tree
import Huliho.Search.Query
import Huliho.Search.Reread
import Huliho.Search.Kept
import Huliho.Lib.Json
import Huliho.Bodies.Request
import Huliho.Bodies.Pass
import Huliho.Bodies.Structure
import Huliho.Bodies.Conforming
import Huliho.Bodies.Told
import Huliho.Bodies.Proxied
import Huliho.Session.CopyUid
import Huliho.Session.Walk
import Huliho.Jmap.Keywords
import Huliho.Folders.Utf7
import Huliho.Jmap.Resolved
import Huliho.Bodies.Decode
import Huliho.Session.SearchWire
import Huliho.Session.Nesting
import Huliho.Store.Parked
import Huliho.Store.Moved
import Huliho.Lib.Saturating
import Huliho.Lib.Meters
import Huliho.Rate.Limiter
import Huliho.Rate.Delays
import Huliho.Rate.Buckets
import Huliho.Rate.Allowance
import Huliho.Lib.Spacing
import Huliho.Gate.Counting
import Huliho.Jmap.PartLists
import Huliho.Jmap.PartsListed
import Huliho.Jmap.Planned
import Huliho.Text.Flowed
import Huliho.Lib.Frames
import Huliho.Lib.Cutting
import Huliho.Uploads.Files
import Huliho.Uploads.Blocks
import Huliho.Uploads.Writing
import Huliho.Uploads.ReadBack
import Huliho.Lib.Turns
import Huliho.Uploads.Directory
import Huliho.Uploads.Room
import Huliho.Uploads.Account
import Huliho.Lib.Reading
import Huliho.AuthResults.Kept
import Huliho.AuthResults.Grammar
import Huliho.AuthResults.Layout
import Huliho.AuthResults.Written
import Huliho.Lib.Walks
import Huliho.Cache.Visible
import Huliho.Lib.Escapes
import Huliho.Bodies.Values
import Huliho.Bodies.Served
import Huliho.Drafts.Draft
import Huliho.Drafts.Create
import Huliho.Drafts.Build
import Huliho.Drafts.Synced
import Huliho.Drafts.Read
import Huliho.Drafts.Tree
import Huliho.Drafts.Rows
import Huliho.EmailSet.Plan
import Huliho.Store.Filing
import Huliho.Store.Walks
import Huliho.Store.ClientWalks
import Huliho.Store.Filed
import Huliho.Store.Driven
import Huliho.Lib.Ranking
import Huliho.Listing.Query
import Huliho.Listing.Search
import Huliho.Listing.Agree
import Huliho.Store.Woven
import Huliho.Store.Weaving
import Huliho.Store.OneThread
import Huliho.Requests.Apart
