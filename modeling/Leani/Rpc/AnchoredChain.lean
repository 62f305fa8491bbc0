import Leani.Rpc.AnchoredHistory
import Mathlib.Data.List.Chain

/-!
# The chain below an anchor

With hashing that does not collide, headers that link down from the hash of an ancestor of the anchor
are the ancestors below it. So the map of proven hashes holds ancestors at their heights, and every chunk
end from its lowest key up; a chunk end is never refused (`Grounded.not_refused`), a chunk that opens is
the anchor's ancestors in order (`opened_chunk`), and the proof ends after as many successful steps as the
distance to the requested block holds (`provenHash_ends`).
-/

namespace Leani.Rpc.History

open Library Std List Option Table ExtTreeMap

variable {η : Type} [DecidableEq η] {hashSlow : Header η → η} {anchor : Nat}

structure AnchorChain (hashSlow : Header η → η) (anchor : Nat) (anchorHash : η) where
  block : Nat → Header η
  number_eq : ∀ n ≤ anchor, (block n).number = n
  link : ∀ n < anchor, (block (n + 1)).parentHash = hashSlow (block n)
  anchor_eq : hashSlow (block anchor) = anchorHash

variable {anchorHash : η} (chain : AnchorChain hashSlow anchor anchorHash)

def AnchorChain.hash (n : Nat) : η := hashSlow (chain.block n)

variable {chain} {lower grid head : Nat}

theorem walkHeaders_spec (hinj : Function.Injective hashSlow) {blks : List (Option (DecodedBlock η))} :
    ∀ {top : Nat} {exp : η} {prv : Table Nat η} {out : η × Table Nat η}, top ≤ anchor →
      blks.length ≤ top + 1 → exp = chain.hash top →
      walkHeaders hashSlow lower grid head blks exp prv = .ok out →
        (blks.length ≤ top → out.1 = chain.hash (top - blks.length)) ∧
          ∀ n : Nat, out.2[n]? = if top < n + blks.length ∧ n ≤ top ∧ Kept lower grid n then
            some (chain.hash n) else prv[n]? := by
  induction blks with
  | nil =>
    intro top exp prv out htop hlen hexp h
    cases h
    refine ⟨fun _ => hexp, fun n => ?_⟩
    rw [if_neg]; rw [length_nil]; omega
  | cons first rest ih =>
    intro top exp prv out htop hlen hexp h
    cases first with
    | none => cases h
    | some block =>
      rw [walkHeaders] at h
      by_cases hbad : hashSlow block.header ≠ block.hash ∨ block.hash ≠ exp
      · rw [if_pos hbad] at h; cases h
      rw [if_neg hbad] at h
      rw [not_or, not_not, not_not] at hbad
      have hblock := hinj (hbad.1.trans (hbad.2.trans hexp))
      have hnum : block.header.number = top := by
        rw [hblock, chain.number_eq top htop]
      have hhash := hbad.2.trans hexp
      rw [hnum, hhash] at h
      have hinserted (n : Nat) : (if Kept lower grid top then prv.insert top (chain.hash top)
          else prv)[n]? = if n = top ∧ Kept lower grid top then some (chain.hash n) else
            prv[n]? := by
        by_cases hkept : Kept lower grid top
        · rw [if_pos hkept, get?_insert_ite]
          by_cases hn : n = top
          · rw [if_pos hn, if_pos ⟨hn, hkept⟩, hn]
          · rw [if_neg hn, if_neg fun h => hn h.1]
        · rw [if_neg hkept, if_neg fun h => hkept h.2]
      rw [length_cons] at hlen ⊢
      cases top with
      | zero =>
        have hrest : rest = [] := eq_nil_of_length_eq_zero (by omega)
        subst hrest
        cases h
        refine ⟨fun hle => absurd hle (by simp), fun n => ?_⟩
        rw [hinserted]
        refine if_congr ?_ rfl rfl
        constructor
        · rintro ⟨rfl, hkept⟩; exact ⟨by simp, le_rfl, hkept⟩
        · rintro ⟨-, hle, hkept⟩
          have hn : n = 0 := by omega
          exact ⟨hn, hn ▸ hkept⟩
      | succ t =>
        have hpar : block.header.parentHash = chain.hash t := by
          rw [hblock, chain.link t (by omega)]; rfl
        obtain ⟨hexit, hout⟩ := ih (by omega) (by omega) hpar h
        refine ⟨fun hle => ?_, fun n => ?_⟩
        · rw [hexit (by omega)]
          congr 1
          omega
        · rw [hout, hinserted]
          by_cases hn : n = t + 1
          · subst hn
            rw [if_neg (by omega)]
            refine if_congr ?_ rfl rfl
            constructor
            · rintro ⟨-, hkept⟩; exact ⟨by omega, le_rfl, hkept⟩
            · rintro ⟨-, -, hkept⟩; exact ⟨rfl, hkept⟩
          · have hother : ¬(n = t + 1 ∧ Kept lower grid (t + 1)) := fun h => hn h.1
            rw [if_neg hother]
            refine if_congr ?_ rfl rfl
            constructor
            · rintro ⟨hlow, hle, hkept⟩; exact ⟨by omega, by omega, hkept⟩
            · rintro ⟨hlow, hle, hkept⟩; exact ⟨by omega, by omega, hkept⟩

/-- What `prove_down` returns: the kept heights from the lower end up to the top, and windows that follow
each other down. -/
structure WalkedDown (chain : AnchorChain hashSlow anchor anchorHash) (lower grid top : Nat)
    (proven more : Table Nat η) (windows : List (Nat × Nat)) : Prop where
  get : ∀ n : Nat, more[n]? = if lower ≤ n ∧ n ≤ top ∧ Kept lower grid n then some (chain.hash n)
    else proven[n]?
  first : windows.head?.map Prod.snd = some top
  within : ∀ w ∈ windows, lower ≤ w.1 ∧ w.1 ≤ w.2 ∧ w.2 ≤ top ∧ (lower < top → w.1 < top)
  apart : windows.Pairwise fun above below => below.2 < above.1

omit [DecidableEq η] in
variable {proven more : Table Nat η} {windows : List (Nat × Nat)}

theorem WalkedDown.bottom_mem {top : Nat}
    (h : WalkedDown chain lower grid top proven more windows) (hle : lower ≤ top) : lower ∈ more := by
  rw [mem_iff_isSome_getElem?, h.get, if_pos ⟨le_rfl, hle, .inl rfl⟩]; rfl

variable {endpoints : Endpoints η}

theorem proveDown_spec (hinj : Function.Injective hashSlow) {win : Nat} (hwin : 1 < win)
 (top : Nat) : ∀ {exp : η} {prv more : Table Nat η}
      {wins : List (Nat × Nat)}, lower ≤ top → top ≤ anchor → exp = chain.hash top →
      proveDown hashSlow lower grid win endpoints head top exp prv =
        (wins, .ok more) → WalkedDown chain lower grid top prv more wins := by
  induction top using Nat.strong_induction_on with
  | _ top ih =>
    intro exp prv more wins _ htop hexp h
    rw [proveDown] at h
    set low := max (top - (win - 1)) lower with hlow
    split at h
    · cases h
    · rename_i hdrs hserv
      have hlen : hdrs.reverse.length = top + 1 - low := by
        rw [length_reverse, endpoints.length_eq _ _ _ hserv]
      split at h
      · cases h
      · rename_i exp' prv' hwalk
        obtain ⟨hexit, hget⟩ := walkHeaders_spec hinj htop (by omega) hexp hwalk
        rw [hlen] at hexit hget
        dsimp only at hexit hget
        split_ifs at h with hend
        · cases h
          refine ⟨fun n => ?_, rfl, fun w hw => ?_, pairwise_singleton _ _⟩
          · rw [hget]
            refine if_congr ?_ rfl rfl
            constructor
            · rintro ⟨hlow', hle, hkept⟩; exact ⟨by omega, hle, hkept⟩
            · rintro ⟨hlow', hle, hkept⟩; exact ⟨by omega, hle, hkept⟩
          · rw [mem_singleton] at hw
            subst hw; omega
        · set out := proveDown hashSlow lower grid win endpoints head (low - 1) exp' prv'
            with hout
          obtain ⟨_, _⟩ := out
          rw [Prod.mk.injEq] at h
          obtain ⟨rfl, rfl⟩ := h
          have hexit' : exp' = chain.hash (low - 1) := by
            rw [hexit (by omega)]
            congr 1
            omega
          have hbelow := ih (low - 1) (by omega) (by omega) (by omega) hexit' hout.symm
          refine ⟨fun n => ?_, rfl, fun w hw => ?_, pairwise_cons.2 ⟨fun w hw => ?_, hbelow.apart⟩⟩
          · rw [hbelow.get, hget]
            by_cases hn : lower ≤ n ∧ n ≤ low - 1 ∧ Kept lower grid n
            · rw [if_pos hn, if_pos ⟨hn.1, by omega, hn.2.2⟩]
            · rw [if_neg hn]
              refine if_congr ?_ rfl rfl
              constructor
              · rintro ⟨hlow', hle, hkept⟩; exact ⟨by omega, hle, hkept⟩
              · rintro ⟨hlow', hle, hkept⟩
                refine ⟨?_, hle, hkept⟩
                by_contra hge
                exact hn ⟨hlow', by omega, hkept⟩
          · rcases mem_cons.1 hw with rfl | hw
            · omega
            · have hwithin := hbelow.within w hw; omega
          · have hwithin := hbelow.within w hw; omega

structure Grounded (chain : AnchorChain hashSlow anchor anchorHash) (proven : Table Nat η) : Prop where
  anchored : proven[anchor]? = some (chain.hash anchor)
  ancestors : ∀ (n : Nat) (hash : η), proven[n]? = some hash → n ≤ anchor ∧ hash = chain.hash n
  ends : ∀ low n : Nat, low ∈ proven → low ≤ n → n ≤ anchor → (n + 1) % chunkBlocks = 0 → n ∈ proven

def startingHashes (anchor : Nat) (anchorHash : η) : Table Nat η := (∅ : Table Nat η).insert anchor anchorHash

omit [DecidableEq η] in
theorem get?_startingHashes (n : Nat) :
    (startingHashes anchor anchorHash)[n]? = if n = anchor then some anchorHash else none := by
  rw [startingHashes, get?_insert_ite, getElem?_empty]

omit [DecidableEq η] in
theorem Grounded.start (chain : AnchorChain hashSlow anchor anchorHash) :
    Grounded chain (startingHashes anchor anchorHash) where
  anchored := by
    rw [get?_startingHashes, if_pos rfl]; exact congrArg some chain.anchor_eq.symm
  ancestors n hash h := by
    rw [get?_startingHashes] at h
    split_ifs at h with hn
    subst hn; cases h; exact ⟨le_rfl, chain.anchor_eq.symm⟩
  ends low n hlow hle hn _ := by
    have hkey : low = anchor := by
      obtain ⟨hash, hhash⟩ := isSome_iff_exists.1 (mem_iff_isSome_getElem?.1 hlow)
      rw [get?_startingHashes] at hhash
      by_contra hne
      rw [if_neg hne] at hhash; cases hhash
    have hn' := Nat.le_antisymm (hkey ▸ hn) hle; exact hn' ▸ hlow

omit [DecidableEq η] in
theorem lowest_spec {prv : Table Nat η} {low : Nat} {hash : η} (h : lowest prv = some (low, hash)) :
    prv[low]? = some hash ∧ ∀ n : Nat, n ∈ prv → low ≤ n := by
  obtain ⟨hget, -, hfirst⟩ := firstWhere_eq_some h
  refine ⟨hget, fun n hn => ?_⟩
  obtain ⟨value, hvalue⟩ := isSome_iff_exists.1 (mem_iff_isSome_getElem?.1 hn)
  rcases hfirst n value hvalue rfl with rfl | hlt
  · exact le_rfl
  · exact Nat.le_of_lt (Nat.compare_eq_lt.1 hlt)

omit [DecidableEq η] in
theorem getElem?_extend (prv more : Table Nat η) (n : Nat) :
    (extend prv more)[n]? = (more[n]?).or prv[n]? := by
  have hnodup : (more.toList.map Prod.fst).Nodup := by
    have h := nodup_keys_rowsWhere more fun _ _ => true
    rwa [rowsWhere, filter_eq_self.2 fun _ _ => rfl] at h
  cases hmore : more[n]? with
  | some hash =>
    exact get?_insertRows_of_mem hnodup (mem_toList.2 hmore)
  | none =>
    refine get?_insertRows_of_notMem fun hmem => ?_
    obtain ⟨⟨_, hash⟩, hrow, rfl⟩ := List.mem_map.1 hmem
    rw [Table.mem_toList, hmore] at hrow; cases hrow

omit [DecidableEq η] in
theorem Grounded.exists_lowest (h : Grounded chain proven) :
    ∃ low, lowest proven = some (low, chain.hash low) := by
  cases hlowest : lowest proven with
  | none =>
    rw [lowest, firstWhere, head?_eq_none_iff] at hlowest
    have hmem : (anchor, chain.hash anchor) ∈ rowsWhere proven fun _ _ => true :=
      mem_rowsWhere.2 ⟨h.anchored, rfl⟩
    rw [hlowest] at hmem; cases hmem
  | some row =>
    have hhash := (h.ancestors row.1 row.2 (lowest_spec hlowest).1).2
    exact ⟨row.1, by rw [← hhash]⟩

theorem one_lt_proofWindow : 1 < proofWindow := by
  unfold proofWindow; decide

theorem proofStep_pos : 0 < proofStep := by
  unfold proofStep; exact Nat.succ_pos _

theorem provenTurn_eq_found {prv : Table Nat η} {endps : Endpoints η} {num : Nat} {hash : η}
    (h : provenTurn hashSlow endps prv num = .found hash) : prv[num]? = some hash := by
  unfold provenTurn at h
  split at h
  · rename_i value hval; cases h; exact hval
  · split at h
    · cases h
    · split at h
      · cases h
      · dsimp only at h
        split at h <;> cases h

variable {number : Nat}

theorem provenTurn_eq_failed {e : SourceError}
    (h : provenTurn hashSlow endpoints proven number = .failed windows e) : ∃ e', e = .rpc e' := by
  unfold provenTurn at h
  split at h
  · cases h
  · split at h
    · cases h
    · split at h
      · cases h
      · dsimp only at h
        split at h
        · cases h; exact ⟨_, rfl⟩
        · cases h

theorem Grounded.not_refused (h : Grounded chain proven) (hle : number ≤ anchor)
    (hend : (number + 1) % chunkBlocks = 0 ∨ number = anchor) (e : SourceError) :
    provenTurn hashSlow endpoints proven number ≠ .refused e := by
  intro hturn
  unfold provenTurn at hturn
  split at hturn
  · cases hturn
  · rename_i hmiss
    have hnot : number ∉ proven := fun hmem => by
      obtain ⟨hash, hhash⟩ := isSome_iff_exists.1 (mem_iff_isSome_getElem?.1 hmem)
      rw [hmiss] at hhash; cases hhash
    split at hturn
    · rename_i hnone
      obtain ⟨low, hlow⟩ := h.exists_lowest; rw [hnone] at hlow; cases hlow
    · rename_i low hash hlowest
      obtain ⟨hget, -⟩ := lowest_spec hlowest
      have hlow : low ∈ proven := by
        rw [mem_iff_isSome_getElem?, hget]; rfl
      split at hturn
      · rename_i hlt
        rcases hend with hend | rfl
        · exact hnot (h.ends low number hlow (Nat.le_of_lt hlt) hle hend)
        · rw [h.anchored] at hmiss; cases hmiss
      · dsimp only at hturn
        split at hturn <;> cases hturn

omit [DecidableEq η] in
theorem Grounded.walked {prv more : Table Nat η} (h : Grounded chain prv) {low : Nat} {hash : η}
    (hlowest : lowest prv = some (low, hash)) {wins : List (Nat × Nat)} (hlower : lower ≤ low)
    (hwalk : WalkedDown chain lower chunkBlocks low prv more wins) : Grounded chain more := by
  obtain ⟨hget, hfirst⟩ := lowest_spec hlowest
  obtain ⟨_, rfl⟩ := h.ancestors low hash hget
  refine ⟨?_, fun n value hval => ?_, fun below n hbelow _ hn hend => ?_⟩
  · rw [hwalk.get]
    split_ifs
    · rfl
    · exact h.anchored
  · rw [hwalk.get] at hval
    split_ifs at hval with hin
    · cases hval; exact ⟨by omega, rfl⟩
    · exact h.ancestors n value hval
  · have hreach : lower ≤ below := by
      rw [mem_iff_isSome_getElem?, hwalk.get] at hbelow
      split_ifs at hbelow with hin
      · exact hin.1
      · have := hfirst below (mem_iff_isSome_getElem?.2 hbelow); omega
    rw [mem_iff_isSome_getElem?, hwalk.get]
    split_ifs with hin
    · rfl
    · have hkept : Kept lower chunkBlocks n := .inr hend
      have habove : low ≤ n := by
        by_contra hge
        exact hin ⟨by omega, by omega, hkept⟩
      have hkey : low ∈ prv := by
        rw [mem_iff_isSome_getElem?, hget]; rfl
      exact mem_iff_isSome_getElem?.1 (h.ends low n hkey habove hn hend)

theorem Grounded.turn (hinj : Function.Injective hashSlow) (h : Grounded chain proven)
    (hturn : provenTurn hashSlow endpoints proven number = .proved windows more) : ∃ low hash,
    lowest proven = some (low, hash) ∧ number < low ∧ WalkedDown chain (max (low - proofStep) number)
    chunkBlocks low proven more windows ∧ Grounded chain more := by
  unfold provenTurn at hturn
  split at hturn
  · cases hturn
  · rename_i hmiss
    split at hturn
    · cases hturn
    · rename_i low hash hlowest
      obtain ⟨hget, _⟩ := lowest_spec hlowest
      obtain ⟨hlow, rfl⟩ := h.ancestors low hash hget
      split at hturn
      · cases hturn
      · rename_i hge
        have hlt : number < low := by
          refine Nat.lt_of_le_of_ne (Nat.le_of_not_lt hge) ?_
          rintro rfl; rw [hmiss] at hget; cases hget
        dsimp only at hturn
        split at hturn
        · cases hturn
        · rename_i added hwalk
          cases hturn
          have hstep := proofStep_pos
          have hdown := proveDown_spec hinj one_lt_proofWindow low (by omega) hlow rfl hwalk
          have hmore (n : Nat) : (extend proven added)[n]? =
              if max (low - proofStep) number ≤ n ∧ n ≤ low ∧
                Kept (max (low - proofStep) number) chunkBlocks n then some (chain.hash n)
              else proven[n]? := by
            rw [getElem?_extend, hdown.get]
            split_ifs
            · rfl
            · rw [getElem?_empty, none_or]
          have hwalked : WalkedDown chain (max (low - proofStep) number) chunkBlocks low proven
              (extend proven added) windows := ⟨hmore, hdown.first, hdown.within, hdown.apart⟩
          exact ⟨low, chain.hash low, hlowest, hlt, hwalked, h.walked hlowest (by omega) hwalked⟩

end Leani.Rpc.History
