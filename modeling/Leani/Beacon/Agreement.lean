import Leani.Library.Grouping
import Leani.Primitives

/-!
# Endpoint agreement

What one poll of the Beacon endpoints agrees on. Endpoints are untrusted transports; the anchors and
heads they return have been verified by the light client. An anchor is agreed when enough endpoints
verified finality at or beyond its slot, and different anchors at one slot fail closed.
-/

namespace Leani.Beacon

open Library Std List Option

abbrev Root := BitVec 256

structure VerifiedFinalityAnchor where
  beaconSlot : Nat
  beaconBlockRoot : Root
  executionBlockNumber : Nat
  executionBlockHash : BlockHash
  deriving DecidableEq

structure AttestedHead where
  beaconSlot : Nat
  beaconBlockRoot : Root
  blockNumber : Nat
  blockHash : BlockHash
  deriving DecidableEq

structure EndpointProbe where
  endpoint : String
  verified : Bool
  anchor : Option VerifiedFinalityAnchor
  checkpointAnchor : Option VerifiedFinalityAnchor
  attestedHead : Option AttestedHead
  attestedHeadError : Option String
  updatesVerified : Nat
  error : Option String

structure FinalityProbeReport where
  checkpointRoot : Root
  checkpointAnchor : Option VerifiedFinalityAnchor
  minimumAgreement : Nat
  accepted : Bool
  selected : Option VerifiedFinalityAnchor
  attestedHead : Option AttestedHead
  agreeingEndpoints : Nat
  disagreements : List String
  endpoints : List EndpointProbe

/-- `heads.iter().max_by_key(|head| head.beacon_slot)`: the last of the newest. -/
def newestHead : List AttestedHead → Option AttestedHead
  | [] => none
  | head :: rest =>
    match newestHead rest with
    | none => some head
    | some newest => if head.beaconSlot ≤ newest.beaconSlot then some newest else some head

def selectAttestedHead (heads : List AttestedHead) : Option AttestedHead :=
  match newestHead heads with
  | none => none
  | some newest =>
    if heads.any fun head => head.beaconSlot == newest.beaconSlot && head != newest then none
    else some newest

def anyConflict : List VerifiedFinalityAnchor → Bool
  | first :: second :: rest => first != second || anyConflict (second :: rest)
  | _ => false

def sameSlot (anchors : List VerifiedFinalityAnchor) : Table Nat (List VerifiedFinalityAnchor) :=
  groupBy VerifiedFinalityAnchor.beaconSlot anchors

def slotDisagreements (anchors : List VerifiedFinalityAnchor) : List String :=
  (sameSlot anchors).toList.filterMap fun row =>
    if anyConflict row.2 then
      some ("verified endpoints returned conflicting roots or execution hashes at slot " ++
        toString row.1)
    else none

/-- The endpoints that verified finality at or beyond `slot`. -/
def agreeing (anchors : List VerifiedFinalityAnchor) (slot : Nat) : Nat :=
  anchors.countP fun anchor => slot ≤ anchor.beaconSlot

def selection (minimumAgreement : Nat) (anchors : List VerifiedFinalityAnchor) :
    Option (VerifiedFinalityAnchor × Nat) :=
  (sameSlot anchors).toList.reverse.findSome? fun row =>
    if minimumAgreement ≤ agreeing anchors row.1 then
      row.2.head?.map fun anchor => (anchor, agreeing anchors row.1)
    else none

def selectionDisagreements (minimumAgreement : Nat) (endpoints : List EndpointProbe) : List String :=
  ("no verified anchor reached minimum endpoint agreement " ++ toString minimumAgreement) ::
    endpoints.filterMap fun endpoint =>
      endpoint.error.map fun error => endpoint.endpoint ++ " failed: " ++ error

/-- Select the highest slot that at least `minimumAgreement` endpoints verified finality at or
beyond. -/
def selectEndpointAgreement (checkpointRoot : Root) (minimumAgreement : Nat)
    (endpoints : List EndpointProbe) : FinalityProbeReport :=
  let anchors := endpoints.filterMap EndpointProbe.anchor
  let selected := selection minimumAgreement anchors
  let disagreements := slotDisagreements anchors ++
    if selected.isNone then selectionDisagreements minimumAgreement endpoints else []
  { checkpointRoot
    checkpointAnchor := none
    minimumAgreement
    accepted := selected.isSome && disagreements.isEmpty
    selected := selected.map Prod.fst
    attestedHead := selectAttestedHead (endpoints.filterMap EndpointProbe.attestedHead)
    agreeingEndpoints := (selected.map Prod.snd).getD 0
    disagreements
    endpoints }

/-- `anchor` is what the endpoints agree on: one of them verified it, no two verified different
anchors at one slot, enough of them verified finality at or beyond its slot, and not so at any
higher slot one of them verified. -/
structure Agreed (minimumAgreement : Nat) (endpoints : List EndpointProbe)
    (anchor : VerifiedFinalityAnchor) : Prop where
  verified : ∃ endpoint ∈ endpoints, endpoint.anchor = some anchor
  noConflict : ∀ endpoint ∈ endpoints, ∀ endpoint' ∈ endpoints, ∀ a a' : VerifiedFinalityAnchor,
    endpoint.anchor = some a → endpoint'.anchor = some a' → a.beaconSlot = a'.beaconSlot → a = a'
  enough : minimumAgreement ≤ endpoints.countP fun endpoint =>
    endpoint.anchor.any (anchor.beaconSlot ≤ ·.beaconSlot)
  highest : ∀ endpoint ∈ endpoints, ∀ a : VerifiedFinalityAnchor, endpoint.anchor = some a →
    (minimumAgreement ≤ endpoints.countP fun endpoint =>
      endpoint.anchor.any (a.beaconSlot ≤ ·.beaconSlot)) → a.beaconSlot ≤ anchor.beaconSlot

section

variable {anchors : List VerifiedFinalityAnchor} {endpoints : List EndpointProbe}
  {minimumAgreement : Nat}

theorem anyConflict_eq_false {anchors : List VerifiedFinalityAnchor} :
    anyConflict anchors = false ↔ ∀ a ∈ anchors, ∀ a' ∈ anchors, a = a' := by
  induction anchors with
  | nil => simp [anyConflict]
  | cons first rest ih =>
    cases rest with
    | nil => simp [anyConflict]
    | cons second rest =>
      rw [anyConflict, Bool.or_eq_false_iff, ih]
      constructor
      · intro ⟨hfst, hrest⟩ a ha a' ha'
        have hsecond : first = second := by simpa using hfst
        have heq : ∀ b ∈ first :: second :: rest, b = second := by
          intro b hb
          rcases mem_cons.1 hb with rfl | hb
          · exact hsecond
          · exact hrest b hb second mem_cons_self
        rw [heq a ha, heq a' ha']
      · intro h
        refine ⟨by simp [h first (by simp) second (by simp)], ?_⟩
        intro a ha a' ha'; exact h a (mem_cons_of_mem _ ha) a' (mem_cons_of_mem _ ha')

def Consistent (anchors : List VerifiedFinalityAnchor) : Prop :=
  ∀ a ∈ anchors, ∀ a' ∈ anchors, a.beaconSlot = a'.beaconSlot → a = a'

variable {a : VerifiedFinalityAnchor}

theorem exists_sameSlot (ha : a ∈ anchors) :
    ∃ group, (sameSlot anchors)[a.beaconSlot]? = some group :=
  exists_group ha

theorem slotDisagreements_eq_nil : slotDisagreements anchors = [] ↔ Consistent anchors := by
  unfold slotDisagreements
  rw [filterMap_eq_nil_iff]
  constructor
  · intro h a ha a' ha' hslot
    obtain ⟨group, hgroup⟩ := exists_sameSlot ha
    have hnone := h _ (Table.mem_toList.2 hgroup)
    have hconflict : anyConflict group = false := by simpa using hnone
    have heq := (group_eq hgroup).1
    refine anyConflict_eq_false.1 hconflict a ?_ a' ?_
    · simp [heq, ha]
    · simp [heq, ha', hslot]
  · intro h row hrow
    have heq := (group_eq (Table.mem_toList.1 hrow)).1
    have hconflict : anyConflict row.2 = false := by
      refine anyConflict_eq_false.2 ?_
      intro a ha a' ha'
      rw [heq, mem_filter] at ha ha'
      have hslot : a.beaconSlot = row.1 := by simpa using ha.2
      have hslot' : a'.beaconSlot = row.1 := by simpa using ha'.2
      exact h a ha.1 a' ha'.1 (hslot.trans hslot'.symm)
    simp only [hconflict]; rfl

theorem agreeing_filterMap (endps : List EndpointProbe) (slot : Nat) :
    agreeing (endps.filterMap EndpointProbe.anchor) slot =
      endps.countP fun endp => endp.anchor.any (slot ≤ ·.beaconSlot) := by
  unfold agreeing
  rw [countP_filterMap]
  refine countP_congr fun endp _ => ?_
  cases endp.anchor with
  | none => simp
  | some a => simp

variable {anchor : VerifiedFinalityAnchor}

theorem of_selection {count : Nat} (h : selection minimumAgreement anchors = some (anchor, count)) :
    anchor ∈ anchors ∧ minimumAgreement ≤ agreeing anchors anchor.beaconSlot ∧ ∀ a ∈ anchors,
    minimumAgreement ≤ agreeing anchors a.beaconSlot → a.beaconSlot ≤ anchor.beaconSlot := by
  obtain ⟨slot, _, hgroup, hf, habove⟩ := findSome?_reverse_toList h
  obtain ⟨heq, -⟩ := group_eq hgroup
  split at hf
  · rename_i henough
    obtain ⟨_, hhead, hpair⟩ := map_eq_some_iff.1 hf
    cases hpair
    have hmem := heq ▸ mem_of_head? hhead
    obtain ⟨hanch, hslot⟩ := mem_filter.1 hmem
    have hslot : anchor.beaconSlot = slot := by simpa using hslot
    subst hslot
    refine ⟨hanch, henough, ?_⟩
    intro a ha hagree
    by_contra hlt
    obtain ⟨group', hgroup'⟩ := exists_sameSlot ha
    have hnone := habove _ _ hgroup' (Nat.compare_eq_lt.2 (by omega))
    have hne := (group_eq hgroup').2
    cases group' with
    | nil => exact hne rfl
    | cons b rest => simp [hagree] at hnone
  · cases hf

theorem isSome_selection (ha : a ∈ anchors) (h : minimumAgreement ≤ agreeing anchors a.beaconSlot) :
    ∃ result, selection minimumAgreement anchors = some result := by
  cases hs : selection minimumAgreement anchors with
  | some result => exact ⟨result, rfl⟩
  | none =>
    obtain ⟨group, hgroup⟩ := exists_sameSlot ha
    have hnone := of_findSome?_reverse_toList_eq_none hs hgroup
    have hne := (group_eq hgroup).2
    cases group with
    | nil => exact absurd rfl hne
    | cons b rest => simp [h] at hnone

theorem consistent_filterMap : Consistent (endpoints.filterMap EndpointProbe.anchor) ↔
    ∀ endp ∈ endpoints, ∀ endp' ∈ endpoints, ∀ a a' : VerifiedFinalityAnchor,
      endp.anchor = some a → endp'.anchor = some a' → a.beaconSlot = a'.beaconSlot → a = a' := by
  constructor
  · intro h endp he endp' he' a a' ha ha'
    exact h a (mem_filterMap.2 ⟨_, he, ha⟩) a' (mem_filterMap.2 ⟨_, he', ha'⟩)
  · intro h a ha a' ha'
    obtain ⟨endp, he, ha⟩ := mem_filterMap.1 ha
    obtain ⟨endp', he', ha'⟩ := mem_filterMap.1 ha'
    exact h endp he endp' he' a a' ha ha'

variable {root : Root}

theorem accepted_iff : (selectEndpointAgreement root minimumAgreement endpoints).accepted = true ↔
      (∃ result, selection minimumAgreement (endpoints.filterMap EndpointProbe.anchor) =
        some result) ∧ Consistent (endpoints.filterMap EndpointProbe.anchor) := by
  rw [← slotDisagreements_eq_nil]
  simp only [selectEndpointAgreement]
  cases hs : selection minimumAgreement (endpoints.filterMap EndpointProbe.anchor) with
  | none => simp
  | some result => simp

theorem accepted_selected_iff : (selectEndpointAgreement root minimumAgreement endpoints).accepted =
    true ∧ (selectEndpointAgreement root minimumAgreement endpoints).selected =
    some anchor ↔ Agreed minimumAgreement endpoints anchor := by
  rw [accepted_iff]
  constructor
  · intro ⟨⟨_, hconsis⟩, hsel⟩
    obtain ⟨⟨sel, count⟩, hs, rfl⟩ := map_eq_some_iff.1 hsel
    obtain ⟨hmem, henough, hhighest⟩ := of_selection hs
    obtain ⟨endp, he, ha⟩ := mem_filterMap.1 hmem
    refine ⟨⟨endp, he, ha⟩, consistent_filterMap.1 hconsis, ?_, ?_⟩
    · rwa [agreeing_filterMap] at henough
    · intro endp' he' a ha' hagree
      refine hhighest a (mem_filterMap.2 ⟨_, he', ha'⟩) ?_
      rwa [agreeing_filterMap]
  · intro h
    obtain ⟨endp, he, ha⟩ := h.verified
    have hmem := mem_filterMap.2 ⟨_, he, ha⟩
    have hconsis := consistent_filterMap.2 h.noConflict
    have henough : minimumAgreement ≤
        agreeing (endpoints.filterMap EndpointProbe.anchor) anchor.beaconSlot := by
      rw [agreeing_filterMap]; exact h.enough
    obtain ⟨⟨sel, count⟩, hs⟩ := isSome_selection hmem henough
    obtain ⟨hsel, hagree, habove⟩ := of_selection hs
    refine ⟨⟨⟨_, hs⟩, hconsis⟩, map_eq_some_iff.2 ⟨_, hs, ?_⟩⟩
    obtain ⟨endp', he', ha'⟩ := mem_filterMap.1 hsel
    refine hconsis sel hsel anchor hmem (Nat.le_antisymm ?_ ?_)
    · exact h.highest endp' he' sel ha' (by rwa [agreeing_filterMap] at hagree)
    · exact habove anchor hmem henough

theorem agreed_of_perm {endpoints' : List EndpointProbe} (hperm : endpoints.Perm endpoints')
 (h : Agreed minimumAgreement endpoints anchor) : Agreed minimumAgreement endpoints' anchor where
  verified := by
    obtain ⟨endp, he, ha⟩ := h.verified; exact ⟨endp, hperm.mem_iff.1 he, ha⟩
  noConflict endp he endp' he' :=
    h.noConflict endp (hperm.mem_iff.2 he) endp' (hperm.mem_iff.2 he')
  enough := by
    rw [← hperm.countP_eq]; exact h.enough
  highest endp he a ha hagree := by
    rw [← hperm.countP_eq] at hagree; exact h.highest endp (hperm.mem_iff.2 he) a ha hagree

end

end Leani.Beacon
