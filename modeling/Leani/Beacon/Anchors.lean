import Leani.Beacon.Agreement

/-!
# The persisted finality anchor

The newest verified finalized anchor, kept in a file, and the choice of the root a light client
bootstraps from at startup.
-/

namespace Leani.Beacon

structure BeaconNetwork where
  genesisTime : Nat
  secondsPerSlot : Nat

inductive CheckpointOrigin where
  | operator
  | locallyVerified
  deriving DecidableEq

structure TrustedCheckpoint where
  root : Root
  slot : Option Nat
  origin : CheckpointOrigin
  deriving DecidableEq

structure PersistedFinalityAnchor where
  anchor : VerifiedFinalityAnchor
  checkpointRoot : Root
  deriving DecidableEq

inductive AnchorFile where
  | disabled
  | readOnly
  | readWrite
  deriving DecidableEq

inductive StoredAnchor where
  | missing
  | unreadable (error : String)
  | holds (persisted : PersistedFinalityAnchor)

structure StartAnchor where
  root : Root
  slot : Option Nat
  checkpointRoot : Root
  /-- Whether `root` is a persisted anchor rather than the configured checkpoint itself. -/
  persisted : Bool
  deriving DecidableEq

def StartAnchor.configured (checkpoint : TrustedCheckpoint) : StartAnchor where
  root := checkpoint.root
  slot := checkpoint.slot
  checkpointRoot := checkpoint.root
  persisted := false

inductive CheckpointAgeError where
  | invalidCheckpointTime
  | checkpointTooOld (ageSeconds maximumSeconds : Nat)

def verifyCheckpointAge (network : BeaconNetwork) (slot maxAge : Nat) (now : Option Nat) :
    Except CheckpointAgeError Unit :=
  let checkpointTime := network.genesisTime + satMul slot network.secondsPerSlot
  if u64Max < checkpointTime then .error .invalidCheckpointTime
  else
    match now with
    | none => .error .invalidCheckpointTime
    | some now =>
      if maxAge < now - checkpointTime then
        .error (.checkpointTooOld (now - checkpointTime) maxAge)
      else .ok ()

def readFinalityAnchor : StoredAnchor → Except String (Option PersistedFinalityAnchor)
  | .missing => .ok none
  | .unreadable error => .error error
  | .holds persisted => .ok (some persisted)

def sameLineage (persisted : PersistedFinalityAnchor) (checkpoint : TrustedCheckpoint) : Bool :=
  persisted.checkpointRoot == checkpoint.root || persisted.anchor.beaconBlockRoot == checkpoint.root

def notOlder (persisted : PersistedFinalityAnchor) (checkpoint : TrustedCheckpoint) : Bool :=
  checkpoint.slot.all fun slot => slot ≤ persisted.anchor.beaconSlot

def isLater (persisted : PersistedFinalityAnchor) (checkpoint : TrustedCheckpoint) : Bool :=
  checkpoint.slot.any fun slot => slot < persisted.anchor.beaconSlot

def anchorApplies (persisted : PersistedFinalityAnchor) (checkpoint : TrustedCheckpoint) : Bool :=
  (sameLineage persisted checkpoint && notOlder persisted checkpoint) ||
    (checkpoint.origin == .locallyVerified && isLater persisted checkpoint)

def StartAnchor.ofPersisted (persisted : PersistedFinalityAnchor) : StartAnchor where
  root := persisted.anchor.beaconBlockRoot
  slot := some persisted.anchor.beaconSlot
  checkpointRoot := persisted.checkpointRoot
  persisted := true

def resolveStartAnchor (network : BeaconNetwork) (file : AnchorFile) (stored : StoredAnchor)
    (checkpoint : TrustedCheckpoint) (maxAge : Nat) (now : Option Nat) : StartAnchor :=
  if file = .disabled then .configured checkpoint
  else
    match readFinalityAnchor stored with
    | .ok none => .configured checkpoint
    | .error _ => .configured checkpoint
    | .ok (some persisted) =>
      if !anchorApplies persisted checkpoint then .configured checkpoint
      else
        match verifyCheckpointAge network persisted.anchor.beaconSlot maxAge now with
        | .error _ => .configured checkpoint
        | .ok () => .ofPersisted persisted

inductive WriteEnd where
  | written
  | notRenamed (error : String)
  | notSynced (error : String)

/-- Persist `anchor` unless the file already holds one at the same or a newer slot. -/
def persistFinalityAnchor (stored : StoredAnchor) (anchor : PersistedFinalityAnchor)
    (write : WriteEnd) : StoredAnchor × Except String Bool :=
  let replace : StoredAnchor × Except String Bool :=
    match write with
    | .written => (.holds anchor, .ok true)
    | .notRenamed error => (stored, .error error)
    | .notSynced error => (.holds anchor, .error error)
  match readFinalityAnchor stored with
  | .ok (some current) =>
    if anchor.anchor.beaconSlot ≤ current.anchor.beaconSlot then (stored, .ok false) else replace
  | _ => replace

def isBootstrapAnchor (anchor : VerifiedFinalityAnchor) : Bool := anchor.beaconSlot % 32 == 0

structure AnchorWriter where
  file : AnchorFile
  persistedSlot : Option Nat
  writeFailures : Nat

/-- Persist `anchor`, verified from `checkpointRoot`, when the file is writable and the anchor is
epoch-aligned and newer than any written. -/
def AnchorWriter.persist (writer : AnchorWriter) (stored : StoredAnchor)
    (anchor : VerifiedFinalityAnchor) (checkpointRoot : Root) (write : WriteEnd) :
    AnchorWriter × StoredAnchor :=
  if writer.file ≠ .readWrite then (writer, stored)
  else if !isBootstrapAnchor anchor then (writer, stored)
  else if writer.persistedSlot.any (anchor.beaconSlot ≤ ·) then (writer, stored)
  else
    match persistFinalityAnchor stored ⟨anchor, checkpointRoot⟩ write with
    | (stored, .ok _) => ({ writer with persistedSlot := some anchor.beaconSlot }, stored)
    | (stored, .error _) => ({ writer with writeFailures := writer.writeFailures + 1 }, stored)

section

variable {network : BeaconNetwork} {file : AnchorFile} {stored : StoredAnchor}
  {checkpoint : TrustedCheckpoint} {maxAge : Nat} {now : Option Nat}

theorem resolveStartAnchor_cases :
    resolveStartAnchor network file stored checkpoint maxAge now = .configured checkpoint ∨
    ∃ persisted, stored = .holds persisted ∧ file ≠ .disabled ∧ anchorApplies persisted checkpoint =
    true ∧ verifyCheckpointAge network persisted.anchor.beaconSlot maxAge now = .ok () ∧
    resolveStartAnchor network file stored checkpoint maxAge now = .ofPersisted persisted := by
  unfold resolveStartAnchor
  by_cases hfile : file = .disabled
  · exact .inl (if_pos hfile)
  · rw [if_neg hfile]
    cases stored with
    | missing => exact .inl rfl
    | unreadable error => exact .inl rfl
    | holds persisted =>
      simp only [readFinalityAnchor]
      cases happlies : anchorApplies persisted checkpoint with
      | false => exact .inl rfl
      | true =>
        cases hage : verifyCheckpointAge network persisted.anchor.beaconSlot maxAge now with
        | error e => exact .inl rfl
        | ok u => exact .inr ⟨persisted, rfl, hfile, happlies, hage, rfl⟩

theorem resolveStartAnchor_of_applies {saved : PersistedFinalityAnchor}
    (hfile : file ≠ .disabled) (happlies : anchorApplies saved checkpoint = true)
    (hage : verifyCheckpointAge network saved.anchor.beaconSlot maxAge now = .ok ()) :
    resolveStartAnchor network file (.holds saved) checkpoint maxAge now = .ofPersisted saved := by
  simp [resolveStartAnchor, hfile, readFinalityAnchor, happlies, hage]

theorem AnchorWriter.persist_cases {writer : AnchorWriter} {anc : VerifiedFinalityAnchor}
    {checkpointRoot : Root} {write : WriteEnd} :
    (writer.persist stored anc checkpointRoot write).2 = stored ∨
      (writer.file = .readWrite ∧ isBootstrapAnchor anc = true ∧
        (writer.persist stored anc checkpointRoot write).2 = .holds ⟨anc, checkpointRoot⟩) := by
  unfold AnchorWriter.persist
  by_cases hfile : writer.file = .readWrite
  · rw [if_neg (by simp [hfile])]
    cases haligned : isBootstrapAnchor anc with
    | false => exact .inl rfl
    | true =>
      split
      · rename_i h; cases h
      · split
        · exact .inl rfl
        · have hstore : (persistFinalityAnchor stored ⟨anc, checkpointRoot⟩ write).1 = stored ∨
              (persistFinalityAnchor stored ⟨anc, checkpointRoot⟩ write).1 =
                .holds ⟨anc, checkpointRoot⟩ := by
            unfold persistFinalityAnchor
            cases write <;> cases stored <;> simp [readFinalityAnchor]
            all_goals split <;> simp
          cases hp : persistFinalityAnchor stored ⟨anc, checkpointRoot⟩ write with
          | mk next result =>
            rw [hp] at hstore
            cases result with
            | ok _ => exact hstore.imp id fun h => ⟨hfile, rfl, h⟩
            | error _ => exact hstore.imp id fun h => ⟨hfile, rfl, h⟩
  · rw [if_pos hfile]; exact .inl rfl

@[simp] theorem AnchorWriter.persist_file {writer : AnchorWriter} {anc : VerifiedFinalityAnchor}
    {checkpointRoot : Root} {write : WriteEnd} :
    (writer.persist stored anc checkpointRoot write).1.file = writer.file := by
  unfold AnchorWriter.persist
  split
  · rfl
  · split
    · rfl
    · split
      · rfl
      · split <;> rfl

end

end Leani.Beacon
