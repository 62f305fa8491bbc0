import Leani.Filtering.Scope
import Mathlib.Data.List.Induction

/-!
# The game ledger

Games whose claim matched a block the sequencer signed, until the registry names one: that block is
then final. A run feeds the ledger signed blocks and observations of finalized L1 blocks, and may
restart it from its file.
-/

namespace Leani.L1Anchor

open Library Std List Option Table ExtTreeMap L1Anchor

abbrev Address := Filtering.Address

inductive ClaimedBlock where
  | number (number : Nat)
  | time (time : Nat)

inductive Observation where
  | gameCreated (game : Address) (l2Block : ClaimedBlock) (root : BitVec 256)
  | anchorUpdated (game : Address)
  | assertionConfirmed (blockHash : BlockHash)
  | signerChanged (signer : Address)
  | gameTypeChanged (gameType : Nat)

structure SignedBlock where
  hash : BlockHash
  outputRoot : BitVec 256
  time : Nat

abbrev FinalBlock := Nat × BlockHash

structure GameLedger where
  capacity : Nat
  signed : Table Nat SignedBlock
  games : Table Address FinalBlock
  /-- The stored games of the file at `path`: `some none` before the file exists. -/
  path : Option (Option (Table Address FinalBlock))

namespace GameLedger

def popFirst (signed : Table Nat SignedBlock) : Table Nat SignedBlock :=
  match signed.minKey? with
  | some number => signed.erase number
  | none => signed

def popAbove (capacity : Nat) : Nat → Table Nat SignedBlock → Table Nat SignedBlock
  | 0, signed => signed
  | rounds + 1, signed =>
    if capacity < signed.size then popAbove capacity rounds (popFirst signed) else signed

variable (ledger : GameLedger)

def recordBlock (number : Nat) (block : SignedBlock) : GameLedger :=
  let signed := ledger.signed.insert number block
  { ledger with signed := popAbove ledger.capacity signed.size signed }

def claimed : ClaimedBlock → Option (Nat × SignedBlock)
  | .number number => ledger.signed[number]?.map (number, ·)
  | .time time => Table.firstWhere ledger.signed fun _ block => block.time = time

/-- `save`; a write that fails leaves the file as it was. -/
def save (writes : Bool) : GameLedger × Except String Unit :=
  match ledger.path with
  | none => (ledger, .ok ())
  | some _ =>
    if writes then ({ ledger with path := some (some ledger.games) }, .ok ())
    else (ledger, .error "the ledger file cannot be written")

/-- `observe`: apply one observation, and return the block it finalizes. -/
def observe (observation : Observation) (writes : Bool) :
    GameLedger × Except String (Option FinalBlock) :=
  match observation with
  | .gameCreated game l2Block root =>
    match ledger.claimed l2Block with
    | some (number, block) =>
      if block.outputRoot = root then
        let (saved, result) :=
          { ledger with games := ledger.games.insert game (number, block.hash) }.save writes
        (saved, result.map fun _ => none)
      else (ledger, .ok none)
    | none => (ledger, .ok none)
  | .anchorUpdated game =>
    match ledger.games[game]? with
    | none => (ledger, .ok none)
    | some finalBlock =>
      -- Games anchored earlier than the new anchor can no longer become it.
      let games := Table.deleteWhere (ledger.games.erase game) fun _ kept =>
        kept.1 ≤ finalBlock.1
      let (saved, result) := { ledger with games }.save writes
      (saved, result.map fun _ => some finalBlock)
  | .assertionConfirmed _ | .signerChanged _ | .gameTypeChanged _ => (ledger, .ok none)

def reload (capacity : Nat) : GameLedger where
  capacity
  signed := ∅
  games := (ledger.path.bind id).getD ∅
  path := ledger.path

def fresh (capacity : Nat) (persists : Bool) : GameLedger :=
  ⟨capacity, ∅, ∅, if persists then some none else none⟩

end GameLedger

inductive Input where
  | record (number : Nat) (block : SignedBlock)
  | observe (observation : Observation) (writes : Bool)
  | restart (capacity : Nat)

def step (ledger : GameLedger) : Input → GameLedger × Option FinalBlock
  | .record number block => (ledger.recordBlock number block, none)
  | .observe observation writes =>
    let (next, result) := ledger.observe observation writes
    (next, result.toOption.join)
  | .restart capacity => (ledger.reload capacity, none)

def run (ledger : GameLedger) : List Input → GameLedger
  | [] => ledger
  | input :: inputs => run (step ledger input).1 inputs

def finals (ledger : GameLedger) : List Input → List FinalBlock
  | [] => []
  | input :: inputs => (step ledger input).2.toList ++ finals (step ledger input).1 inputs

variable {ledger : GameLedger}

theorem run_append (bef after : List Input) :
    run ledger (bef ++ after) = run (run ledger bef) after := by
  induction bef generalizing ledger with
  | nil => rfl
  | cons input bef ih => exact ih

theorem finals_append (bef after : List Input) :
    finals ledger (bef ++ after) = finals ledger bef ++ finals (run ledger bef) after := by
  induction bef generalizing ledger with
  | nil => rfl
  | cons input bef ih => rw [cons_append, finals, finals, ih, append_assoc, run]

section Window

variable {signed : Table Nat SignedBlock} {capacity : Nat}

theorem size_popFirst : (GameLedger.popFirst signed).size = signed.size - 1 := by
  unfold GameLedger.popFirst
  cases hmin : signed.minKey? with
  | none =>
    have hempty := minKey?_eq_none_iff.1 hmin; rw [hempty, size_empty]
  | some number =>
    have hmem := minKey?_mem hmin; rw [size_erase, if_pos (mem_iff_contains.1 hmem)]

variable {block : SignedBlock}

theorem getElem?_popFirst {num : Nat}
    (h : (GameLedger.popFirst signed)[num]? = some block) : signed[num]? = some block := by
  unfold GameLedger.popFirst at h
  split at h
  · obtain ⟨-, h⟩ := erase_cases h; exact h
  · exact h

theorem size_popAbove {rounds : Nat} (h : signed.size ≤ capacity + rounds) :
    (GameLedger.popAbove capacity rounds signed).size ≤ capacity := by
  induction rounds generalizing signed with
  | zero => exact h
  | succ rounds ih =>
    rw [GameLedger.popAbove]
    split
    · apply ih
      rw [size_popFirst]; omega
    · omega

theorem getElem?_popAbove {rounds num : Nat}
    (h : (GameLedger.popAbove capacity rounds signed)[num]? = some block) :
    signed[num]? = some block := by
  induction rounds generalizing signed with
  | zero => exact h
  | succ rounds ih =>
    rw [GameLedger.popAbove] at h
    split at h
    · exact getElem?_popFirst (ih h)
    · exact h

end Window

def Recorded (before : List Input) (number : Nat) (block : SignedBlock) : Prop :=
  ∃ earlier later, before = earlier ++ .record number block :: later ∧
    ∀ other, .record number other ∉ later

def ClaimedBlock.Names (number : Nat) (block : SignedBlock) : ClaimedBlock → Prop
  | .number claimed => claimed = number
  | .time claimed => claimed = block.time

def Named (before : List Input) (game : Address) (final : FinalBlock) : Prop :=
  ∃ earlier later l2Block writes block,
    before = earlier ++ .observe (.gameCreated game l2Block block.outputRoot) writes :: later ∧
      Recorded earlier final.1 block ∧ block.hash = final.2 ∧ l2Block.Names final.1 block

structure Knows (before : List Input) (ledger : GameLedger) : Prop where
  window : ledger.signed.size ≤ ledger.capacity
  signed : ∀ number block, ledger.signed[number]? = some block → Recorded before number block
  games : ∀ game final, ledger.games[game]? = some final → Named before game final
  stored : ∀ games, ledger.path = some (some games) → ∀ game final, games[game]? = some final →
    Named before game final

variable {block : SignedBlock} {input : Input}

theorem Recorded.snoc {bef : List Input} {num : Nat} (h : Recorded bef num block)
    (hother : ∀ other, input ≠ .record num other) : Recorded (bef ++ [input]) num block := by
  obtain ⟨prior, later, rfl, hlater⟩ := h
  refine ⟨prior, later ++ [input], by simp, fun other hmem => ?_⟩
  rcases mem_append.1 hmem with hmem | hmem
  · exact hlater other hmem
  · exact hother other (mem_singleton.1 hmem).symm

variable {final : FinalBlock}

theorem Named.snoc {bef : List Input} {game : Address}
    (h : Named bef game final) (input : Input) : Named (bef ++ [input]) game final := by
  obtain ⟨prior, later, l2Block, writes, block, rfl, hrest⟩ := h
  exact ⟨prior, later ++ [input], l2Block, writes, block, by simp, hrest⟩

theorem claimed_eq_some {l2Block : ClaimedBlock} {number : Nat} (h : ledger.claimed l2Block =
    some (number, block)) : ledger.signed[number]? = some block ∧ l2Block.Names number block := by
  cases l2Block with
  | number claimed =>
    obtain ⟨_, hfound, heq⟩ := map_eq_some_iff.1 h; cases heq; exact ⟨hfound, rfl⟩
  | time claimed =>
    obtain ⟨hfound, hmade, -⟩ := firstWhere_eq_some h
    exact ⟨hfound, (of_decide_eq_true hmade).symm⟩

namespace Knows

variable {before : List Input}

section

variable (h : Knows before ledger)

include h

theorem save (writes : Bool) : Knows before (ledger.save writes).1 := by
  unfold GameLedger.save
  split
  · exact h
  · split
    · refine ⟨h.window, h.signed, h.games, fun games hgames => ?_⟩
      cases hgames; exact h.games
    · exact h

theorem with_games {games : Table Address FinalBlock} (hgames : ∀ game final,
    games[game]? = some final → Named before game final) : Knows before { ledger with games } :=
  ⟨h.window, h.signed, hgames, h.stored⟩

theorem snoc {input : Input}
    (hother : ∀ number block, input ≠ .record number block) : Knows (before ++ [input]) ledger where
  window := h.window
  signed number block hblock := (h.signed number block hblock).snoc (hother number)
  games game final hfinal := (h.games game final hfinal).snoc input
  stored games hgames game final hfinal := (h.stored games hgames game final hfinal).snoc input

theorem record (num : Nat) (block : SignedBlock) :
    Knows (before ++ [.record num block]) (ledger.recordBlock num block) where
  window := size_popAbove (Nat.le_add_left _ _)
  signed kept found hfound := by
    have hinsert := getElem?_popAbove hfound
    rw [get?_insert_ite] at hinsert
    split at hinsert
    · rename_i heq
      cases heq; cases hinsert; exact ⟨before, [], rfl, fun _ hmem => by cases hmem⟩
    · rename_i hne
      refine (h.signed kept found hinsert).snoc fun _ heq => hne ?_
      cases heq; rfl
  games game final hfinal := (h.games game final hfinal).snoc _
  stored games hgames game final hfinal := (h.stored games hgames game final hfinal).snoc _

theorem created {game : Address} {l2Block : ClaimedBlock} {writes : Bool}
    {num : Nat} {block : SignedBlock} (hclm : ledger.claimed l2Block = some (num, block)) :
    Knows (before ++ [.observe (.gameCreated game l2Block block.outputRoot) writes])
    { ledger with games := ledger.games.insert game (num, block.hash) } := by
  have hnext : Knows (before ++ [.observe (.gameCreated game l2Block block.outputRoot) writes])
      ledger := h.snoc fun _ _ heq => by cases heq
  refine hnext.with_games fun other final hfinal => ?_
  rw [get?_insert_ite] at hfinal
  split at hfinal
  · rename_i heq
    cases heq
    cases hfinal
    obtain ⟨hsign, hnames⟩ := claimed_eq_some hclm
    exact ⟨before, [], l2Block, writes, block, rfl, h.signed num block hsign, rfl, hnames⟩
  · exact hnext.games other final hfinal

theorem step (input : Input) : Knows (before ++ [input]) (step ledger input).1 := by
  cases input with
  | record num block => exact h.record num block
  | restart capacity =>
    refine ⟨by simp [L1Anchor.step, GameLedger.reload], fun num block hblk => ?_,
      fun game final hfinal => ?_, fun games hgames => ?_⟩
    · exact (not_mem_empty hblk).elim
    · refine Named.snoc ?_ _
      cases hpath : ledger.path with
      | none =>
        simp only [L1Anchor.step, GameLedger.reload, hpath] at hfinal
        exact (not_mem_empty hfinal).elim
      | some file =>
        cases file with
        | none =>
          simp only [L1Anchor.step, GameLedger.reload, hpath] at hfinal
          exact (not_mem_empty hfinal).elim
        | some games =>
          simp only [L1Anchor.step, GameLedger.reload, hpath] at hfinal
          exact h.stored games hpath game final hfinal
    · exact fun game final hfinal => (h.stored games hgames game final hfinal).snoc _
  | observe observation writes =>
    have hnext : Knows (before ++ [.observe observation writes]) ledger :=
      h.snoc fun _ _ heq => by cases heq
    cases observation with
    | gameCreated game l2Block root =>
      simp only [L1Anchor.step, GameLedger.observe]
      split
      · rename_i num block hclm
        split
        · rename_i hroot
          subst hroot; exact (h.created hclm).save writes
        · exact hnext
      · exact hnext
    | anchorUpdated game =>
      simp only [L1Anchor.step, GameLedger.observe]
      split
      · exact hnext
      · rename_i final hfinal
        refine (hnext.with_games fun other kept hkept => ?_).save writes
        rw [get?_deleteWhere_eq_some, get?_erase_ite] at hkept
        obtain ⟨hkept, -⟩ := hkept
        split at hkept
        · cases hkept
        · exact hnext.games other kept hkept
    | assertionConfirmed blockHash => exact hnext
    | signerChanged signer => exact hnext
    | gameTypeChanged gameType => exact hnext

end

theorem run (capacity : Nat) (persists : Bool) (inputs : List Input) :
    Knows inputs (run (.fresh capacity persists) inputs) := by
  induction inputs using reverseRecOn with
  | nil =>
    refine ⟨by simp [L1Anchor.run, GameLedger.fresh], fun _ _ h => (not_mem_empty h).elim,
      fun _ _ h => (not_mem_empty h).elim, fun _ hgames => ?_⟩
    cases persists <;> cases hgames
  | append_singleton inputs input ih =>
    rw [run_append]; exact ih.step input

end Knows

theorem step_eq_some (h : (step ledger input).2 = some final) : ∃ game writes,
    input = .observe (.anchorUpdated game) writes ∧ ledger.games[game]? = some final := by
  cases input with
  | record number block => cases h
  | restart capacity => cases h
  | observe observation writes =>
    cases observation with
    | gameCreated game l2Block root =>
      simp only [step, GameLedger.observe] at h
      split at h
      · split at h
        · cases hsave : (GameLedger.save _ writes).2 <;> rw [hsave] at h <;> cases h
        · cases h
      · cases h
    | anchorUpdated game =>
      refine ⟨game, writes, rfl, ?_⟩
      simp only [step, GameLedger.observe] at h
      split at h
      · cases h
      · rename_i kept hkept
        cases hsave : (GameLedger.save _ writes).2 with
        | error e =>
          rw [hsave] at h; cases h
        | ok _ =>
          rw [hsave] at h; cases h; exact hkept
    | assertionConfirmed blockHash => cases h
    | signerChanged signer => cases h
    | gameTypeChanged gameType => cases h

def Ascending (start : GameLedger) (inputs : List Input) : Prop :=
  ∀ earlier game l2Block root writes later,
    inputs = earlier ++ .observe (.gameCreated game l2Block root) writes :: later →
      ∀ number block, (run start earlier).claimed l2Block = some (number, block) →
        block.outputRoot = root → ∀ final ∈ finals start earlier, final.1 < number

structure GamesAbove (ledger : GameLedger) (number : Nat) : Prop where
  games : ∀ (game : Address) kept, ledger.games[game]? = some kept → number < kept.1
  stored : ∀ games, ledger.path = some (some games) → ∀ (game : Address) kept,
    games[game]? = some kept → number < kept.1

namespace GamesAbove

variable {number : Nat}

theorem save (h : GamesAbove ledger number) (writes : Bool) :
    GamesAbove (ledger.save writes).1 number := by
  unfold GameLedger.save
  split
  · exact h
  · split
    · refine ⟨h.games, fun games hgames => ?_⟩
      cases hgames; exact h.games
    · exact h

theorem with_games (h : GamesAbove ledger number) {games : Table Address FinalBlock}
    (hgames : ∀ (game : Address) kept, games[game]? = some kept → number < kept.1) :
    GamesAbove { ledger with games } number :=
  ⟨hgames, h.stored⟩

theorem step (h : GamesAbove ledger number) {input : Input}
    (hcreated : ∀ game l2Block root writes, input = .observe (.gameCreated game l2Block root) writes →
    ∀ claimed block, ledger.claimed l2Block = some (claimed, block) →
    block.outputRoot = root → number < claimed) : GamesAbove (step ledger input).1 number := by
  cases input with
  | record claimed block => exact ⟨h.games, h.stored⟩
  | restart capacity =>
    refine ⟨fun game kept hkept => ?_, h.stored⟩
    cases hpath : ledger.path with
    | none =>
      simp only [L1Anchor.step, GameLedger.reload, hpath] at hkept; exact (not_mem_empty hkept).elim
    | some file =>
      cases file with
      | none =>
        simp only [L1Anchor.step, GameLedger.reload, hpath] at hkept
        exact (not_mem_empty hkept).elim
      | some games =>
        simp only [L1Anchor.step, GameLedger.reload, hpath] at hkept
        exact h.stored games hpath game kept hkept
  | observe observation writes =>
    cases observation with
    | gameCreated game l2Block root =>
      simp only [L1Anchor.step, GameLedger.observe]
      split
      · rename_i claimed block hclm
        split
        · rename_i hroot
          have hbelow := hcreated game l2Block root writes rfl claimed block hclm hroot
          refine (h.with_games fun other kept hkept => ?_).save writes
          rcases insert_cases hkept with ⟨-, rfl⟩ | ⟨-, hkept⟩
          · exact hbelow
          · exact h.games other kept hkept
        · exact h
      · exact h
    | anchorUpdated game =>
      simp only [L1Anchor.step, GameLedger.observe]
      split
      · exact h
      · refine (h.with_games fun other kept hkept => ?_).save writes
        rw [get?_deleteWhere_eq_some, get?_erase_ite] at hkept
        obtain ⟨hkept, -⟩ := hkept
        split at hkept
        · cases hkept
        · exact h.games other kept hkept
    | assertionConfirmed blockHash => exact h
    | signerChanged signer => exact h
    | gameTypeChanged gameType => exact h

theorem of_step_eq_some {input : Input} {final : FinalBlock} (h : (L1Anchor.step ledger input).2 =
    some final) : GamesAbove (L1Anchor.step ledger input).1 final.1 := by
  obtain ⟨game, writes, rfl, hgame⟩ := step_eq_some h
  have habove : ∀ (other : Address) kept, (deleteWhere (ledger.games.erase game) fun _ kept =>
      decide (kept.1 ≤ final.1))[other]? = some kept → final.1 < kept.1 := by
    intro other kept hkept
    obtain ⟨-, hkeeps⟩ := get?_deleteWhere_eq_some.1 hkept
    have := of_decide_eq_false hkeeps; omega
  simp only [L1Anchor.step, GameLedger.observe, hgame, GameLedger.save] at h ⊢
  cases hpath : ledger.path with
  | none =>
    refine ⟨habove, fun games hgames => ?_⟩
    cases hgames
  | some file =>
    cases writes with
    | false =>
      simp only [hpath] at h; cases h
    | true =>
      simp only [if_true]
      refine ⟨habove, fun games hgames => ?_⟩
      cases hgames; exact habove

end GamesAbove

theorem finals_increase {start : GameLedger} {inputs : List Input} (h : Ascending start inputs) :
    ((finals start inputs).map Prod.fst).Pairwise (· < ·) ∧
      ∀ final ∈ finals start inputs, GamesAbove (run start inputs) final.1 := by
  induction inputs using reverseRecOn with
  | nil => exact ⟨List.Pairwise.nil, fun final hfinal => by cases hfinal⟩
  | append_singleton inputs input ih =>
    have hbef : Ascending start inputs := by
      rintro prior game l2Block root writes later rfl
      exact h prior game l2Block root writes (later ++ [input]) (by simp)
    obtain ⟨hincrease, habove⟩ := ih hbef
    have hkeeps : ∀ final ∈ finals start inputs,
        GamesAbove (step (run start inputs) input).1 final.1 := by
      intro final hfinal
      refine (habove final hfinal).step ?_
      rintro game l2Block root writes rfl num block hclm hroot
      exact h inputs game l2Block root writes [] rfl num block hclm hroot final hfinal
    rw [finals_append, run_append, finals, finals, run, run, append_nil]
    cases hstep : (step (run start inputs) input).2 with
    | none =>
      simp only [toList_none, append_nil]; exact ⟨hincrease, hkeeps⟩
    | some final =>
      obtain ⟨game, writes, rfl, hgame⟩ := step_eq_some hstep
      simp only [toList_some]
      constructor
      · rw [map_append, pairwise_append]
        refine ⟨hincrease, pairwise_singleton _ _, fun num hnum _ hlast => ?_⟩
        obtain ⟨prior, hearlier, rfl⟩ := mem_map.1 hnum
        cases mem_singleton.1 hlast; exact (habove prior hearlier).games game final hgame
      · intro other hother
        rcases mem_append.1 hother with hother | hother
        · exact hkeeps other hother
        · cases mem_singleton.1 hother; exact GamesAbove.of_step_eq_some hstep

/-- In every run, restarts included: a block is returned as final only when the registry names a
game that was created for it, with the output root it was recorded as signed with; the signed window
stays within its capacity; and the numbers of the final blocks increase as long as no created game
claims a signed block at or below a final one. -/
theorem ledger_finality (capacity : Nat) (persists : Bool) (inputs : List Input) :
    (∀ earlier input later final, inputs = earlier ++ input :: later →
      (step (run (.fresh capacity persists) earlier) input).2 = some final →
        ∃ game writes, input = .observe (.anchorUpdated game) writes ∧ Named earlier game final) ∧
    (run (.fresh capacity persists) inputs).signed.size ≤
      (run (.fresh capacity persists) inputs).capacity ∧
    (Ascending (.fresh capacity persists) inputs →
      ((finals (.fresh capacity persists) inputs).map Prod.fst).Pairwise (· < ·)) := by
  refine ⟨?_, (Knows.run capacity persists inputs).window, fun h => (finals_increase h).1⟩
  intro earlier input later final _ hfinal
  obtain ⟨game, writes, rfl, hgame⟩ := step_eq_some hfinal
  exact ⟨game, writes, rfl, (Knows.run capacity persists earlier).games game final hgame⟩

def lowerGame : List Input :=
  [.record 5 ⟨50, 500, 0⟩, .record 6 ⟨60, 600, 0⟩,
    .observe (.gameCreated (.replicate 20 1) (.number 6) 600) true,
    .observe (.anchorUpdated (.replicate 20 1)) true,
    .observe (.gameCreated (.replicate 20 2) (.number 5) 500) true,
    .observe (.anchorUpdated (.replicate 20 2)) true]

/-- A game created for a lower block after a final one is kept, and returned. -/
theorem lowerGame_goes_back : ¬ ∀ (capacity : Nat) (persists : Bool) (inputs : List Input),
    ((finals (.fresh capacity persists) inputs).map Prod.fst).Pairwise (· < ·) := by
  intro h
  have hfinals : (finals (.fresh 4 false) lowerGame).map Prod.fst = [6, 5] := by
    decide +kernel
  have hpair := h 4 false lowerGame
  rw [hfinals] at hpair
  revert hpair
  decide

end Leani.L1Anchor
