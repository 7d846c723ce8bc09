import Mathlib.Data.List.Basic
import Mathlib.Order.Nat

/-!
# The upload store's terms

What `upload/mod.rs` and `seal.rs` name: the bounds of a store, an upload's place in it, the sidecar
beside an upload and the errors of a write and of a read. Words are the numbers they denote. The
`Bounds` of a store carry that the words of the code hold what they bound; `BOUNDS` are those every host
runs.
-/

namespace Huliho.Uploads

abbrev Bytes := List UInt8

/-- What names an account to the host. -/
abbrev AccountKey := String

abbrev UploadId := String

/-- The greatest unsigned word of 32 bits. -/
def maxU32 : Nat := 4294967295

/-- The greatest unsigned word of 64 bits. -/
def maxU64 : Nat := 18446744073709551615

/-- The plaintext of one sealed block; a read holds one at a time. -/
def uploadBlockBytes : Nat := 1048576

/-- What a store holds itself to. Times are nanoseconds. -/
structure Bounds where
  /-- The bytes of one upload. -/
  bytes : Nat
  /-- The bytes on disk of one account. -/
  quota : Nat
  /-- The uploads of one account, in flight ones counted. -/
  count : Nat
  /-- How long an upload lives. -/
  ttl : Nat
  /-- The blocks of one upload can be counted. -/
  counted : bytes < (maxU32 - 1) * uploadBlockBytes
  /-- A sum that saturates is past the quota. -/
  summed : quota < maxU64

/-- The bounds of every store the host runs. -/
def BOUNDS : Bounds where
  bytes := 25 * 1024 * 1024
  quota := 256 * 1024 * 1024
  count := 1024
  ttl := 24 * 3600 * 1000000000
  counted := by decide
  summed := by decide

/-- Why an upload was not kept. -/
inductive UploadError
  /-- More bytes than one upload may hold. -/
  | tooLarge
  /-- No upload of the account left to evict for room. -/
  | overQuota
  /-- The host's key names no directory the store can make. -/
  | unnamed
  | sealing
  | io
  | task
deriving DecidableEq, Repr

/-- An upload whose file does not open as the store wrote it. -/
inductive Broken
  | broken
deriving DecidableEq, Repr

/-! ## The host's cipher -/

/-- Where one block of an upload belongs: the upload, its place in it and whether it closes it. -/
structure Block where
  upload : UploadId
  index : Nat
  last : Bool
deriving DecidableEq, Repr

/-- The host's cryptography for the blocks of an upload. Sealing fails where the host's randomness or
cipher does. -/
structure Sealer where
  sealBlock : AccountKey → Block → Bytes → Option Bytes
  openBlock : AccountKey → Block → Bytes → Option Bytes

/-- A block the host sealed: where it belongs, what it holds and what came of it. -/
structure Sealing where
  block : Block
  plain : Bytes
  out : Bytes
deriving DecidableEq, Repr

end Huliho.Uploads
