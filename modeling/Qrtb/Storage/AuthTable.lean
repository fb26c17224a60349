import Qrtb.Storage.BlockStore

/-!
# The table of authentication roots (`src/storage.py`)

The address is the primary key, so that a second registration violates it and is
rolled back. A rotation updates the rows with its address and returns whether there
was one. An epoch that does not fit its column cannot be bound: registering raises
then, as it expects a violated key only, and rotating returns `False`.
-/

namespace Qrtb

/-- A row of the table `auth_registry`, without its key. -/
structure AuthRow where
  authRoot : Bytes
  epoch : ℤ
  txHash : Option Bytes
  rotationCount : ℤ := 0
  deriving DecidableEq

/-- The row after `UPDATE auth_registry`. -/
def AuthRow.rotated (row : AuthRow) (newAuthRoot : Bytes) (epoch : ℤ) (txHash : Option Bytes) :
    AuthRow :=
  { authRoot := newAuthRoot, epoch, txHash, rotationCount := row.rotationCount + 1 }

structure AuthTable where
  rows : OrderedDict Bytes AuthRow := ∅

namespace AuthTable

variable (s : AuthTable)

/-- `INSERT INTO auth_registry`. -/
def insertRow (address authRoot : Bytes) (epoch : ℤ) (txHash : Option Bytes) :
    Except PyError AuthTable := do
  let epoch ← sqlInt epoch
  if s.rows.contains address then .error .integrityError
  else return { s with rows := s.rows.set address { authRoot, epoch, txHash } }

def registerAuth (address authRoot : Bytes) (epoch : ℤ) (txHash : Option Bytes) :
    Except PyError Bool × AuthTable :=
  match s.insertRow address authRoot epoch txHash with
  | .ok s' => (.ok true, s')
  | .error .integrityError => (.ok false, s)
  | .error e => (.error e, s)

/-- `UPDATE auth_registry`, with the number of rows it changes. -/
def updateRow (address newAuthRoot : Bytes) (epoch : ℤ) (txHash : Option Bytes) :
    Except PyError (ℕ × AuthTable) := do
  let epoch ← sqlInt epoch
  match s.rows.get? address with
  | none => return (0, s)
  | some row =>
    return (1, { s with rows := s.rows.set address (row.rotated newAuthRoot epoch txHash) })

def rotateAuth (address newAuthRoot : Bytes) (epoch : ℤ) (txHash : Option Bytes) :
    Bool × AuthTable :=
  match s.updateRow address newAuthRoot epoch txHash with
  | .ok (rowcount, s') => (decide (0 < rowcount), s')
  | .error _ => (false, s)

def getAuthRoot (address : Bytes) : Option Bytes := (s.rows.get? address).map AuthRow.authRoot

def isAddressRegistered (address : Bytes) : Bool := s.rows.contains address

variable {s} {address authRoot : Bytes} {epoch : ℤ}

theorem registerAuth_eq (h : FitsSql epoch) (txHash : Option Bytes) :
    s.registerAuth address authRoot epoch txHash =
      if s.rows.contains address then (.ok false, s)
      else (.ok true, { s with rows := s.rows.set address { authRoot, epoch, txHash } }) := by
  have hepoch : sqlInt epoch = .ok epoch := sqlInt_eq_ok.mpr ⟨h, rfl⟩
  rw [registerAuth, insertRow, hepoch]
  simp only [bind, Except.bind]
  split_ifs <;> rfl

theorem rotateAuth_eq (h : FitsSql epoch) (txHash : Option Bytes) :
    s.rotateAuth address authRoot epoch txHash =
      match s.rows.get? address with
      | none => (false, s)
      | some row =>
        (true, { s with rows := s.rows.set address (row.rotated authRoot epoch txHash) }) := by
  have hepoch : sqlInt epoch = .ok epoch := sqlInt_eq_ok.mpr ⟨h, rfl⟩
  rw [rotateAuth, updateRow, hepoch]
  simp only [bind, Except.bind]
  cases s.rows.get? address <;> rfl

theorem registerAuth_of_not_fits (h : ¬ FitsSql epoch) (txHash : Option Bytes) :
    s.registerAuth address authRoot epoch txHash = (.error .overflowError, s) ∧
      s.rotateAuth address authRoot epoch txHash = (false, s) := by
  have hepoch : sqlInt epoch = .error .overflowError := if_neg h
  rw [registerAuth, insertRow, rotateAuth, updateRow, hepoch]
  exact ⟨rfl, rfl⟩

end AuthTable

end Qrtb
