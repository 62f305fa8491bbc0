import Leani.Library.Fallible
import Leani.Primitives
import Mathlib.Data.List.Sort

/-!
# A beacon chain's forks

The upstream `config.yaml` is read line by line. Forks are sorted by their epochs, the blob schedule
stays in the file's order, and both are searched from the end.
-/

namespace Leani.Chain

open Library List

def slotsPerEpoch : Nat := 32

def farFutureEpoch : Nat := u64Max

inductive ChainError where
  | unreadableLine (line : List Char)
  | unsigned (value : List Char)
  | version (value : List Char)
  | blobEntryWithoutEpoch
  | unknownBlobKey (key : List Char)
  | forkWithoutEpoch (name : List Char)
  | noGenesisVersion
  | missing (key : String)
  deriving DecidableEq

structure BeaconFork where
  name : List Char
  version : Nat
  epoch : Nat
  deriving DecidableEq

structure BeaconNetwork where
  configName : List Char
  genesisTime : Nat
  secondsPerSlot : Nat
  genesisValidatorsRoot : List UInt8
  forks : List BeaconFork
  maxBlobsPerBlockElectra : Nat
  blobSchedule : List (Nat × Nat)
  deriving DecidableEq

def trimEnd (p : Char → Bool) (text : List Char) : List Char := (text.reverse.dropWhile p).reverse

def trimMatches (p : Char → Bool) (text : List Char) : List Char := trimEnd p (text.dropWhile p)

def trim : List Char → List Char := trimMatches isWhitespace

/-- `trim_start_matches("- ")` -/
def trimDashes : List Char → List Char
  | '-' :: ' ' :: rest => trimDashes rest
  | text => text

def splitOnce (separator : Char) (text : List Char) : Option (List Char × List Char) :=
  if separator ∈ text then
    some (text.takeWhile (· ≠ separator), (text.dropWhile (· ≠ separator)).tail)
  else none

def stripSuffix (text : List Char) (suffix : String) : Option (List Char) :=
  if suffix.toList <:+ text then some (text.take (text.length - suffix.toList.length)) else none

def digitValue (base : Nat) (ch : Char) : Option Nat :=
  let digit := if ch.isDigit then ch.toNat - 48 else if 'a' ≤ ch.toLower ∧ ch.toLower ≤ 'f' then
    ch.toLower.toNat - 87 else base
  if digit < base then some digit else none

/-- An unsigned number below the limit, with or without a plus sign. -/
def fromRadix (base limit : Nat) (text : List Char) : Option Nat := do
  let digits := if text.head? = some '+' then text.tail else text
  guard (digits ≠ [])
  let number := (← digits.mapM (digitValue base)).foldl (base * · + ·) 0
  guard (number ≤ limit)
  pure number

def parseU64 (value : List Char) : Except ChainError Nat :=
  required (fromRadix 10 u64Max value) (.unsigned value)

def parseVersion (value : List Char) : Except ChainError Nat := do
  let hex := value.drop 2
  ensure (value.take 2 = ['0', 'x']) (.version value)
  let number ← required (fromRadix 16 (2 ^ 32 - 1) hex) (.version value)
  ensure (hex.length = 8) (.version value)
  pure number

structure Parsed where
  configName : Option (List Char)
  secondsPerSlot : Option Nat
  maxBlobsPerBlockElectra : Option Nat
  versions : List (List Char × Nat)
  epochs : List (List Char × Nat)
  blobSchedule : List (Nat × Nat)
  inBlobSchedule : Bool

def lowercase (text : List Char) : List Char := text.map Char.toLower

def Parsed.entry (parsed : Parsed) (key value : List Char) : Except ChainError Parsed := do
  let parsed := { parsed with inBlobSchedule := key = "BLOB_SCHEDULE".toList }
  match stripSuffix key "_FORK_VERSION", stripSuffix key "_FORK_EPOCH" with
  | some fork, _ =>
    let version ← parseVersion value
    pure { parsed with versions := parsed.versions ++ [(lowercase fork, version)] }
  | none, some fork =>
    let epoch ← parseU64 value
    pure { parsed with epochs := parsed.epochs ++ [(lowercase fork, epoch)] }
  | none, none =>
    if key = "CONFIG_NAME".toList then pure { parsed with configName := some value }
    else if key = "SECONDS_PER_SLOT".toList then
      pure { parsed with secondsPerSlot := some (← parseU64 value) }
    else if key = "MAX_BLOBS_PER_BLOCK_ELECTRA".toList then
      pure { parsed with maxBlobsPerBlockElectra := some (← parseU64 value) }
    else pure parsed

def Parsed.blobEntry (parsed : Parsed) (key value : List Char) : Except ChainError Parsed := do
  let number ← parseU64 value
  if key = "EPOCH".toList then
    pure { parsed with blobSchedule := parsed.blobSchedule ++ [(number, 0)] }
  else if key = "MAX_BLOBS_PER_BLOCK".toList then
    let last ← required parsed.blobSchedule.getLast? .blobEntryWithoutEpoch
    pure { parsed with blobSchedule := parsed.blobSchedule.dropLast ++ [(last.1, number)] }
  else .error (.unknownBlobKey key)

def Parsed.line (parsed : Parsed) (line : List Char) : Except ChainError Parsed := do
  let line := trimEnd isWhitespace (line.takeWhile (· ≠ '#'))
  if (trim line).isEmpty then pure parsed
  else
    let indented := line.head? = some ' ' ∨ line.head? = some '-'
    let (key, value) ← required (splitOnce ':' (trimDashes (trim line))) (.unreadableLine line)
    let (key, value) := (trim key, trimMatches (· = '\'') (trim value))
    if parsed.inBlobSchedule ∧ indented then parsed.blobEntry key value else parsed.entry key value

/-- The fork of a version, unless it is not scheduled. -/
def beaconFork (epochs : List (List Char × Nat)) (version : List Char × Nat) :
    Except ChainError (Option BeaconFork) := do
  if version.1 = "genesis".toList then pure (some ⟨"phase0".toList, version.2, 0⟩)
  else
    let epoch ← required (epochs.find? (·.1 = version.1)) (.forkWithoutEpoch version.1)
    pure (if epoch.2 = farFutureEpoch then none else some ⟨version.1, version.2, epoch.2⟩)

-- A carriage return at a line's end and an empty last line are trimmed away with the whitespace.
def fromConfigYaml (genesisTime : Nat) (genesisValidatorsRoot : List UInt8) (yaml : List Char) :
    Except ChainError BeaconNetwork := do
  let parsed ← foldExcept Parsed.line ⟨none, none, none, [], [], [], false⟩ (yaml.splitOn '\n')
  let forks := (← parsed.versions.mapM (beaconFork parsed.epochs)).reduceOption.insertionSort
    fun a b => a.epoch ≤ b.epoch
  ensure (forks.head?.map (·.name) = some "phase0".toList) .noGenesisVersion
  let configName ← required parsed.configName (.missing "CONFIG_NAME")
  let secondsPerSlot ← required (parsed.secondsPerSlot.filter (0 < ·)) (.missing "SECONDS_PER_SLOT")
  pure ⟨configName, genesisTime, secondsPerSlot, genesisValidatorsRoot, forks,
    parsed.maxBlobsPerBlockElectra.getD 0, parsed.blobSchedule⟩

namespace BeaconNetwork

variable (network : BeaconNetwork) (epoch : Nat)

def fork (name : String) : Option BeaconFork := network.forks.find? (·.name = name.toList)

def forkAtEpoch : Option BeaconFork :=
  (network.forks.reverse.find? (·.epoch ≤ epoch)).or network.forks.head?

def fuluActive : Bool := (network.fork "fulu").any (·.epoch ≤ epoch)

def blobParameters : Nat × Nat :=
  (network.blobSchedule.reverse.find? (·.1 ≤ epoch)).getD
    ((network.fork "electra").elim 0 (·.epoch), network.maxBlobsPerBlockElectra)

def forkDigest (sha256 : List UInt8 → List UInt8) (slot : Nat) : List UInt8 :=
  let epoch := slot / slotsPerEpoch
  let version := (network.forkAtEpoch epoch).elim 0 (·.version)
  let digest := sha256 ((toBeBytes version).drop 4 ++ replicate 28 0 ++ network.genesisValidatorsRoot)
  let parameters := network.blobParameters epoch
  let mask := sha256 ((toBeBytes parameters.1).reverse ++ (toBeBytes parameters.2).reverse)
  (if network.fuluActive epoch then zipWith (· ^^^ ·) digest mask else digest).take 4

end BeaconNetwork

section

variable {α : Type} (activation : α → Nat) (elements : List α) (epoch : Nat)

/-- An element with the greatest activation that is not above the epoch. -/
def Latest (a : α) : Prop :=
  (a ∈ elements ∧ activation a ≤ epoch) ∧
    ∀ b ∈ elements, activation b ≤ epoch → activation b ≤ activation a

/-- Of the active elements none is listed before the last one and activated after it. -/
def InOrder : Prop :=
  ∀ before a after, elements = before ++ a :: after → activation a ≤ epoch →
    (∀ b ∈ after, epoch < activation b) → ∀ b ∈ before, activation b ≤ epoch → activation b ≤ activation a

def lastActive : Option α := elements.reverse.find? (activation · ≤ epoch)

variable {activation elements epoch} {a : α}

theorem lastActive_eq_some : lastActive activation elements epoch = some a ↔ activation a ≤ epoch ∧
    ∃ bef after, elements = bef ++ a :: after ∧ ∀ b ∈ after, epoch < activation b := by
  rw [lastActive, find?_eq_some_iff_append, decide_eq_true_iff]
  refine and_congr_right fun _ => ⟨?_, ?_⟩
  · rintro ⟨bef, after, heq, hall⟩
    refine ⟨after.reverse, bef.reverse, by simpa using congrArg reverse heq, fun b hb => ?_⟩
    simpa using hall b (mem_reverse.1 hb)
  · rintro ⟨bef, after, rfl, hall⟩
    exact ⟨after.reverse, bef.reverse, by simp, fun b hb => by simpa using hall b (mem_reverse.1 hb)⟩

theorem exists_lastActive (h : ∃ a ∈ elements, activation a ≤ epoch) :
    ∃ a, lastActive activation elements epoch = some a := by
  obtain ⟨a, hmem, hle⟩ := h
  exact Option.isSome_iff_exists.1 (find?_isSome.2 ⟨a, mem_reverse.2 hmem, decide_eq_true hle⟩)

/-- The last active element in a list's order is the latest one when the list is in order. -/
theorem latest_lastActive_iff (h : lastActive activation elements epoch = some a) :
    Latest activation elements epoch a ↔ InOrder activation elements epoch := by
  constructor
  · intro hlatest bef b after hsplit hb hafter
    cases h.symm.trans (lastActive_eq_some.2 ⟨hb, bef, after, hsplit, hafter⟩)
    exact fun c hc => hlatest.2 c (hsplit ▸ mem_append_left _ hc)
  · intro horder
    obtain ⟨hle, bef, after, hsplit, hafter⟩ := lastActive_eq_some.1 h
    refine ⟨⟨hsplit ▸ mem_append_right _ mem_cons_self, hle⟩, fun b hb hact => ?_⟩
    rw [hsplit, mem_append, mem_cons] at hb
    rcases hb with hb | rfl | hb
    · exact horder bef a after hsplit hle hafter b hb hact
    · exact le_rfl
    · exact absurd hact (Nat.not_le.2 (hafter b hb))

theorem inOrder_of_pairwise (h : elements.Pairwise fun a b => activation a ≤ activation b) :
    InOrder activation elements epoch := by
  rintro _ a _ rfl - - b hb -
  exact (pairwise_append.1 h).2.2 b hb a mem_cons_self

end

namespace BeaconNetwork

/-- The digest takes the version of the latest fork and, once Fulu is active, the latest scheduled
parameters; before any are active it takes Electra's. -/
def DigestIsCurrent (network : BeaconNetwork) (epoch : Nat) : Prop :=
  (∃ fork ∈ network.forkAtEpoch epoch, Latest (·.epoch) network.forks epoch fork) ∧
    (network.fuluActive epoch = true → (∃ entry ∈ network.blobSchedule, entry.1 ≤ epoch) →
      Latest (·.1) network.blobSchedule epoch (network.blobParameters epoch))

variable {network : BeaconNetwork} {epoch : Nat}

theorem forks_sorted {genesisTime : Nat} {root : List UInt8} {yaml : List Char}
    (h : fromConfigYaml genesisTime root yaml = .ok network) :
    network.forks.Pairwise fun a b => a.epoch ≤ b.epoch := by
  simp only [fromConfigYaml, eq_ok] at h
  obtain ⟨_, -, _, -, _, -, _, -, _, -, rfl⟩ := h
  exact pairwise_insertionSort _ _

/-- For the configurations the parser accepts the digest is current exactly when a fork is active and,
once Fulu is, the blob schedule was listed in order. -/
theorem digestIsCurrent_iff {genesisTime : Nat} {root : List UInt8} {yaml : List Char}
    (h : fromConfigYaml genesisTime root yaml = .ok network) (epoch : Nat) :
    network.DigestIsCurrent epoch ↔ (∃ fork ∈ network.forks, fork.epoch ≤ epoch) ∧
      (network.fuluActive epoch = true → InOrder (·.1) network.blobSchedule epoch) := by
  refine and_congr ⟨fun ⟨fork, _, hlatest⟩ => ⟨fork, hlatest.1⟩, fun hact => ?_⟩
    (imp_congr_right fun _ => ⟨fun hlatest => ?_, fun horder hact => ?_⟩)
  · obtain ⟨fork, hfork⟩ := exists_lastActive hact
    exact ⟨fork, congrArg (Option.or · _) hfork,
      (latest_lastActive_iff hfork).2 (inOrder_of_pairwise (forks_sorted h))⟩
  · intro before entry after hsplit hle hafter
    have hlast := lastActive_eq_some.2 ⟨hle, before, after, hsplit, hafter⟩
    have hentry : network.blobParameters epoch = entry := congrArg (Option.getD · _) hlast
    have hlatest := hlatest ⟨entry, hsplit ▸ mem_append_right _ mem_cons_self, hle⟩
    rw [hentry] at hlatest
    exact (latest_lastActive_iff hlast).1 hlatest before entry after hsplit hle hafter
  · obtain ⟨entry, hentry⟩ := exists_lastActive hact
    have hparms : network.blobParameters epoch = entry := congrArg (Option.getD · _) hentry
    rw [hparms]; exact (latest_lastActive_iff hentry).2 horder

def descendingYaml : List Char := ("CONFIG_NAME: 'x'\nSECONDS_PER_SLOT: 12\n" ++
  "GENESIS_FORK_VERSION: 0x00000000\nFULU_FORK_VERSION: 0x06000000\nFULU_FORK_EPOCH: 0\n" ++
  "BLOB_SCHEDULE:\n  - EPOCH: 20\n    MAX_BLOBS_PER_BLOCK: 21\n" ++
  "  - EPOCH: 10\n    MAX_BLOBS_PER_BLOCK: 15\n").toList

def descendingNetwork : BeaconNetwork :=
  ⟨['x'], 0, 12, [], [⟨"phase0".toList, 0, 0⟩, ⟨"fulu".toList, 0x06000000, 0⟩], 0, [(20, 21), (10, 15)]⟩

theorem fromConfigYaml_descending : fromConfigYaml 0 [] descendingYaml = .ok descendingNetwork := by
  decide +kernel

theorem digestIsCurrent_iff_descending : ¬ descendingNetwork.DigestIsCurrent 25 := by
  rw [digestIsCurrent_iff fromConfigYaml_descending]
  exact fun h => absurd (h.2 (by decide) [(20, 21)] (10, 15) [] rfl (by decide) nofun (20, 21)
    mem_cons_self (by decide)) (by decide)

/-- With both entries active the digest takes the ones of epoch 10, which are listed last. -/
theorem descending_schedule_misread : fromConfigYaml 0 [] descendingYaml = .ok descendingNetwork ∧
    descendingNetwork.fuluActive 25 = true ∧ (20, 21) ∈ descendingNetwork.blobSchedule ∧
    descendingNetwork.blobParameters 25 = (10, 15) := by
  exact ⟨fromConfigYaml_descending, by decide⟩

end BeaconNetwork

end Leani.Chain
