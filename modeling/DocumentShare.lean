import DocumentShare.Authority.Area
import DocumentShare.Authority.Capability
import DocumentShare.Authority.Delegation
import DocumentShare.Authority.Entry
import DocumentShare.Authority.Pack
import DocumentShare.Authority.SubspaceCapability
import DocumentShare.Authority.TimeRange
import DocumentShare.Authority.Token
import DocumentShare.Bytes.Basic
import DocumentShare.Bytes.Cursor
import DocumentShare.Bytes.Reader
import DocumentShare.Credentials.Basic
import DocumentShare.Credentials.Query
import DocumentShare.Crypto.Aes
import DocumentShare.Crypto.Basic
import DocumentShare.Crypto.Blake3
import DocumentShare.Crypto.Ed25519
import DocumentShare.Crypto.KeyDerivation
import DocumentShare.Crypto.Sha256
import DocumentShare.Crypto.Sha512
import DocumentShare.Crypto.Standard
import DocumentShare.Error
import DocumentShare.Naming.Digest
import DocumentShare.Naming.Generation
import DocumentShare.Naming.Identifier
import DocumentShare.Naming.Keypair
import DocumentShare.Naming.Path
import DocumentShare.Naming.Shortname
import DocumentShare.Site.Basic
import DocumentShare.Site.Entropy
import DocumentShare.Site.Slots
import DocumentShare.Storage.Backend
import DocumentShare.Storage.Contents
import DocumentShare.Storage.KeyRange
import DocumentShare.Storage.Payloads
import DocumentShare.Storage.Scan
import DocumentShare.Store.Archive
import DocumentShare.Store.Basic
import DocumentShare.Store.Document
import DocumentShare.Store.Event
import DocumentShare.Store.Key
import DocumentShare.Store.Listing
import DocumentShare.Store.Outcome
import DocumentShare.Store.Query
import DocumentShare.Store.Stream
import DocumentShare.Text.Base32
import DocumentShare.Text.Base64
import DocumentShare.Text.Bits
import DocumentShare.Text.Hex
import DocumentShare.Text.Quoted
import DocumentShare.Text.Shown
import DocumentShare.Text.Utf8
import DocumentShare.Vault.Basic
import DocumentShare.Vault.Config
import DocumentShare.Vault.Sealing
import DocumentShare.Work
import DocumentShare.Proofs.Crypto.Transparent
import DocumentShare.Proofs.Authority.Containment
import DocumentShare.Proofs.Authority.Attenuation
import DocumentShare.Proofs.Bytes.Reading
import DocumentShare.Proofs.Bytes.Text
import DocumentShare.Proofs.Bytes.Order
import DocumentShare.Proofs.Naming.Encoding
import DocumentShare.Proofs.Naming.Descent
import DocumentShare.Proofs.Authority.Encoding
import DocumentShare.Proofs.Work
import DocumentShare.Proofs.Storage.Contents
import DocumentShare.Proofs.Storage.Backend
import DocumentShare.Proofs.Storage.Scanning
import DocumentShare.Proofs.Storage.Watching
import DocumentShare.Proofs.Store.Keys
import DocumentShare.Proofs.Store.Families
import DocumentShare.Proofs.Store.Ledger
import DocumentShare.Proofs.Store.Records
import DocumentShare.Proofs.Store.Tracking
import DocumentShare.Proofs.Store.Calls
import DocumentShare.Proofs.Store.Listing
import DocumentShare.Proofs.Store.Moves
import DocumentShare.Proofs.Store.Accounts
import DocumentShare.Proofs.Store.Plans
import DocumentShare.Proofs.Store.Breaking
import DocumentShare.Proofs.Store.Making
import DocumentShare.Proofs.Store.Outcomes
import DocumentShare.Proofs.Store.Performing
import DocumentShare.Proofs.Store.Guarding
import DocumentShare.Proofs.Store.Writing
import DocumentShare.Proofs.Store.Steps
import DocumentShare.Proofs.Store.Coherence
import DocumentShare.Proofs.Authority.Recency
import DocumentShare.Proofs.Store.Convergence
import DocumentShare.Proofs.Credentials.Entitlement
import DocumentShare.Proofs.Store.Vouching
import DocumentShare.Proofs.Authority.Handover
import DocumentShare.Proofs.Credentials.Minting
import DocumentShare.Proofs.Store.Replaying
import DocumentShare.Proofs.Store.Chronicle
import DocumentShare.Proofs.Naming.Ordering
import DocumentShare.Proofs.Naming.Succession
import DocumentShare.Proofs.Naming.Canonical
import DocumentShare.Proofs.Store.Querying
import DocumentShare.Proofs.Store.Retention
import DocumentShare.Proofs.Bytes.Canonical
import DocumentShare.Proofs.Bytes.Accounting
import DocumentShare.Proofs.Authority.Canonical
import DocumentShare.Proofs.Authority.Signing
import DocumentShare.Proofs.Authority.Purpose
import DocumentShare.Proofs.Credentials.Readback
import DocumentShare.Proofs.Store.Clearing
import DocumentShare.Proofs.Store.Beating
import DocumentShare.Proofs.Store.Obsolescence
import DocumentShare.Proofs.Store.Filing
import DocumentShare.Proofs.Store.Streaming
import DocumentShare.Proofs.Store.Readback
import DocumentShare.Proofs.Authority.Binding
import DocumentShare.Proofs.Text.Bits
import DocumentShare.Proofs.Text.Base64
import DocumentShare.Proofs.Text.Base32
import DocumentShare.Proofs.Naming.Address
import DocumentShare.Proofs.Naming.PathText
import DocumentShare.Proofs.Vault.Unlocking
import DocumentShare.Proofs.Vault.Operating
import DocumentShare.Proofs.Vault.Turns
import DocumentShare.Proofs.Crypto.Exclusive
import DocumentShare.Proofs.Vault.Durability
import DocumentShare.Proofs.Vault.Barrier
import DocumentShare.Proofs.Vault.Keys
import DocumentShare.Proofs.Credentials.Requesting
import DocumentShare.Proofs.Credentials.Selection
import DocumentShare.Proofs.Vault.Independence
import DocumentShare.Proofs.Vault.Neighbours
import DocumentShare.Proofs.Vault.Separation
import DocumentShare.Proofs.Store.Effects
import DocumentShare.Proofs.Store.Pulling
import DocumentShare.Proofs.Store.Timestamps
import DocumentShare.Proofs.Store.Draining
import DocumentShare.Proofs.Store.Ranking
import DocumentShare.Proofs.Store.Browsing
import DocumentShare.Proofs.Credentials.Texts
import DocumentShare.Proofs.Credentials.Serving
import DocumentShare.Proofs.Credentials.Inventory
import DocumentShare.Proofs.Store.Refusing
import DocumentShare.Proofs.Store.Stops
import DocumentShare.Proofs.Store.Changing
import DocumentShare.Proofs.Store.Interrupting
import DocumentShare.Proofs.Store.Sizing
