import Leani.Library.Overwrites
import Leani.Wasm.Host

/-!
# The net changes of a block

A block publishes the last change of every key, whatever its kind. So a consumer with one view for each
kind ends where every emitted change would have led it exactly when no key has changes of two kinds.
-/

namespace Leani.Wasm

open Library Delivery List DomainChange Prod

/-- `last_change_per_key`, by a map from each key to the index of its last change. -/
def lastChangePerKeyIndexed (changes : List DomainChange) : List DomainChange :=
  let last := changes.zipIdx.foldl (fun last item => last.insert item.1.key item.2)
    (∅ : Table Bytes Nat)
  (changes.zipIdx.filter fun item => last[item.1.key]? = some item.2).map Prod.fst

def identity (change : DomainChange) : String × Bytes := (change.kind, change.key)

def valueOf (change : DomainChange) : Option Bytes :=
  match change.operation with
  | .upsert => some change.payload
  | .delete => none

def follow (views : String × Bytes → Option Bytes) (changes : List DomainChange) :
    String × Bytes → Option Bytes :=
  overwrite identity valueOf views changes

def KeysNameOneKind (changes : List DomainChange) : Prop :=
  ∀ a ∈ changes, ∀ b ∈ changes, a.key = b.key → a.kind = b.kind

variable {changes : List DomainChange}

theorem lastChangePerKey_eq (chgs : List DomainChange) :
    lastChangePerKey chgs = keepNewest key chgs := by
  induction chgs with
  | nil => rfl
  | cons change rest ih => rw [lastChangePerKey, keepNewest, ih]

theorem lastChangePerKeyIndexed_eq (chgs : List DomainChange) :
    lastChangePerKeyIndexed chgs = lastChangePerKey chgs := by
  have hrows : chgs.zipIdx.foldl (fun last item => last.insert item.1.key item.2)
      (∅ : Table Bytes Nat) = Table.insertRows ∅ (indexRows key chgs 0) := by
    rw [indexRows, Table.insertRows, foldl_map]
  rw [lastChangePerKey_eq, lastChangePerKeyIndexed, hrows]; exact keepNewest_eq_filter

theorem KeysNameOneKind.keepNewest_eq (h : KeysNameOneKind changes) :
    keepNewest key changes = keepNewest identity changes := by
  induction changes with
  | nil => rfl
  | cons change rest ih =>
    have hrest : KeysNameOneKind rest := fun a ha b hb =>
      h a (mem_cons_of_mem _ ha) b (mem_cons_of_mem _ hb)
    have hlater : (rest.any fun b => b.key = change.key) =
        rest.any fun b => identity b = identity change := by
      rw [Bool.eq_iff_iff, any_key_iff, any_key_iff]
      constructor
      · rintro ⟨b, hb, hkey⟩
        have hkind := h b (mem_cons_of_mem _ hb) change mem_cons_self hkey
        exact ⟨b, hb, Prod.ext hkind hkey⟩
      · rintro ⟨b, hb, hsame⟩; exact ⟨b, hb, congrArg snd hsame⟩
    rw [keepNewest, keepNewest, ih hrest, hlater]

theorem KeysNameOneKind.of_kept (h : ∀ a ∈ changes,
    ∃ kept ∈ keepNewest key changes, identity kept = identity a) : KeysNameOneKind changes := by
  intro a ha b hb hkey
  obtain ⟨x, hx, hxa⟩ := h a ha
  obtain ⟨y, hy, hyb⟩ := h b hb
  have hxy : x = y := by
    refine inj_on_of_nodup_map nodup_keepNewest hx hy ?_
    exact (congrArg snd hxa).trans (hkey.trans (congrArg snd hyb).symm)
  calc a.kind = x.kind := (congrArg fst hxa).symm
    _ = b.kind := by rw [hxy]; exact congrArg fst hyb

theorem keysNameOneKind_of_views (h : ∀ views,
    follow views (keepNewest key changes) = follow views changes) : KeysNameOneKind changes := by
  refine .of_kept fun a ha => ?_
  obtain ⟨last, hlast⟩ := exists_newest identity ha
  -- Views that differ from what the last change of the pair leaves tell whether one is published.
  let views : String × Bytes → Option Bytes := fun _ =>
    if valueOf last = none then some [] else none
  have hsame := congrFun (h views) (identity a)
  simp only [follow, overwrite_apply, hlast, Option.map_some, Option.getD_some] at hsame
  cases hkept : newest identity (keepNewest key changes) (identity a) with
  | some kept => exact ⟨kept, newest_mem hkept⟩
  | none =>
    rw [hkept, Option.map_none, Option.getD_none] at hsame
    by_cases hnone : valueOf last = none
    · simp [views, hnone] at hsame
    · simp [views, hnone] at hsame; exact absurd hsame.symm hnone

/-- The published changes are the last ones of the keys, in the order of emission. They are the last
ones of the pairs of kind and key, and lead every consumer's views where all the changes would have,
exactly when each key has changes of one kind. -/
theorem published_changes (changes : List DomainChange) :
    (lastChangePerKeyIndexed changes).Sublist changes ∧
      (∀ key, (lastChangePerKeyIndexed changes).filter (fun change => change.key = key) =
        (newest DomainChange.key changes key).toList) ∧
      (lastChangePerKeyIndexed changes = keepNewest identity changes ↔ KeysNameOneKind changes) ∧
      ((∀ views, follow views (lastChangePerKeyIndexed changes) = follow views changes) ↔
        KeysNameOneKind changes) := by
  rw [lastChangePerKeyIndexed_eq, lastChangePerKey_eq]
  refine ⟨keepNewest_sublist, fun key => ?_, ⟨fun h => ?_, fun h => h.keepNewest_eq⟩,
    ⟨keysNameOneKind_of_views, fun h views => ?_⟩⟩
  · exact filter_keepNewest
  · refine .of_kept fun a ha => ?_
    obtain ⟨last, hlast⟩ := exists_newest identity ha
    rw [h]; rw [← newest_keepNewest] at hlast; exact ⟨last, newest_mem hlast⟩
  · funext pair
    rw [h.keepNewest_eq, follow, follow, overwrite_apply, overwrite_apply, newest_keepNewest]

/-- An owner and a balance under one address: the owner's change is not published, and the view of
owners misses it. -/
theorem shared_key_loses_change :
    let owner : DomainChange := ⟨"owner", [1], .upsert, [7]⟩
    let balance : DomainChange := ⟨"balance", [1], .upsert, [9]⟩
    lastChangePerKeyIndexed [owner, balance] = [balance] ∧ newest identity [owner, balance]
      ("owner", [1]) = some owner ∧ follow (fun _ => none) (lastChangePerKeyIndexed [owner, balance])
      ("owner", [1]) = none ∧ follow (fun _ => none) [owner, balance] ("owner", [1]) = some [7] := by
  decide +kernel

end Leani.Wasm
