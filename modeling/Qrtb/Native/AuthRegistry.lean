import Qrtb.Lib.OrderedDict
import Qrtb.Native.Merkle

/-!
# The native registry (`native/src/auth_registry.rs`)

One map holds the root of an address and the number of its rotations. The number has 32
bits. When it overflows, a build with overflow checks panics, which is `none`, and a
build without them wraps around.
-/

namespace Qrtb.Native

/-- `[u8; MERKLE_HASH_SIZE]`. -/
abbrev MerkleHash := { hash : Bytes // hash.length = MERKLE_HASH_SIZE }

structure AuthEntry where
  authRoot : MerkleHash
  rotationCount : UInt32

structure AuthRegistry where
  entries : OrderedDict Bytes AuthEntry := ∅

namespace AuthRegistry

variable (r : AuthRegistry)

def new : AuthRegistry := {}

def register (address : Bytes) (authRoot : MerkleHash) : Bool × AuthRegistry :=
  if r.entries.contains address then (false, r)
  else (true, { entries := r.entries.set address { authRoot, rotationCount := 0 } })

def rotate (overflowChecks : Bool) (address : Bytes) (newAuthRoot : MerkleHash) :
    Option (Bool × AuthRegistry) :=
  match r.entries.get? address with
  | none => some (false, r)
  | some entry =>
    if overflowChecks ∧ entry.rotationCount.toNat + 1 = UInt32.size then none
    else
      some (true,
        { entries := r.entries.set address
            { authRoot := newAuthRoot, rotationCount := entry.rotationCount + 1 } })

def isRegistered (address : Bytes) : Bool := r.entries.contains address

def getAuthRoot (address : Bytes) : Option MerkleHash :=
  (r.entries.get? address).map AuthEntry.authRoot

def getRotationCount (address : Bytes) : Option UInt32 :=
  (r.entries.get? address).map AuthEntry.rotationCount

theorem rotate_of_lt {overflowChecks : Bool} {address : Bytes} {entry : AuthEntry}
    (h : r.entries.get? address = some entry)
    (hlt : entry.rotationCount.toNat + 1 < UInt32.size) (newAuthRoot : MerkleHash) :
    r.rotate overflowChecks address newAuthRoot =
      some (true,
        { entries := r.entries.set address
            { authRoot := newAuthRoot, rotationCount := entry.rotationCount + 1 } }) := by
  rw [rotate, h]
  exact if_neg fun hoverflow => absurd hoverflow.2 hlt.ne

end AuthRegistry

end Qrtb.Native
