import Leani.Aws.RangeCache

/-!
# The bytes of kept ranges

Which bytes stand on the file under a kept entry, and which a reader has in hand. Each step that writes
clear of other kept bytes leaves the bytes of the writes that claimed the entries (`Sound.step`).
-/

namespace Leani.Aws

open Library Std List Option Table RangeCache Ring Turn

def WritePhase.Landed (phase : WritePhase) : Prop := phase = .landed ∨ phase = .marked

instance instDecidableLanded (phase : WritePhase) : Decidable phase.Landed :=
  inferInstanceAs (Decidable (_ ∨ _))

def TurnOk (ring : Ring) (writes : Table Nat WriteJob) (fetched : List (Key × Bytes)) (key : Key) :
    Turn → Prop
  | .reading _ entry => entry.id ≤ ring.claimed ∧ ∀ e : Entry, ring.entries[key]? = some e →
      e.id = entry.id → e.offset = entry.offset ∧ e.len = entry.len ∧ e.written = true
  | .loaded _ entry bytes => entry.id ≤ ring.claimed ∧ ∀ e : Entry, ring.entries[key]? = some e →
      e.id = entry.id → ∀ job : WriteJob, writes[e.id]? = some job → job.bytes = bytes
  | .found bytes => (key, bytes) ∈ fetched
  | .kept _ bytes => (key, bytes) ∈ fetched
  | _ => True

structure WriteJob.Of (job : WriteJob) (key : Key) (entry : Entry) : Prop where
  key_eq : job.key = key
  offset_eq : job.entry.offset = entry.offset
  length_eq : job.bytes.length = entry.len
  marked : job.phase = .marked ↔ entry.written = true

structure Sound (capacity : Nat) (s : RangeCache) : Prop where
  laid : s.ring.Laid capacity
  claimed : ∀ (id : Nat) (job : WriteJob), s.writes[id]? = some job →
    id ≤ s.ring.claimed ∧ job.entry.id = id
  origin : ∀ (id : Nat) (job : WriteJob), s.writes[id]? = some job → (job.key, job.bytes) ∈ s.fetched
  job : ∀ (key : Key) (entry : Entry), s.ring.entries[key]? = some entry →
    ∃ job : WriteJob, s.writes[entry.id]? = some job ∧ job.Of key entry
  intact : ∀ (key : Key) (entry : Entry) (job : WriteJob), s.ring.entries[key]? = some entry →
    s.writes[entry.id]? = some job → job.phase.Landed →
      RangeCache.readAt s.file entry.offset entry.len = job.bytes
  puts : ∀ range ∈ s.puts, range ∈ s.fetched
  turns : ∀ (c : Nat) (call : Call), s.calls[c]? = some call → ∀ range ∈ call.ranges,
    TurnOk s.ring s.writes s.fetched range.1 range.2

def Clear (s : RangeCache) : Action → Prop
  | .land id _ _ => ∀ (job : WriteJob), s.writes[id]? = some job → ∀ (key : Key) (entry : Entry)
      (other : WriteJob), s.ring.entries[key]? = some entry → entry.id ≠ id → s.writes[entry.id]? =
      some other → other.phase.Landed → entry.Apart { job.entry with len := job.bytes.length }
  | _ => True

namespace Sound

variable {capacity : Nat} {s : RangeCache}

theorem empty (capacity : Nat) : Sound capacity .empty where
  laid := laid_empty capacity
  claimed _ _ h := (not_mem_empty h).elim
  origin _ _ h := (not_mem_empty h).elim
  job _ _ h := (not_mem_empty h).elim
  intact _ _ _ h := (not_mem_empty h).elim
  puts := nofun
  turns _ _ h := (not_mem_empty h).elim

end Sound

theorem TurnOk.fetched {ring : Ring} {writes : Table Nat WriteJob} {fetched : List (Key × Bytes)}
    (more : List (Key × Bytes)) {key : Key} {turn : Turn} (h : TurnOk ring writes fetched key turn) :
    TurnOk ring writes (fetched ++ more) key turn := by
  cases turn with
  | kept => exact mem_append_left _ h
  | found => exact mem_append_left _ h
  | _ => exact h

structure Ring.Follows (old new : Ring) : Prop where
  claimed : old.claimed ≤ new.claimed
  kept : ∀ (key : Key) (entry : Entry), new.entries[key]? = some entry → entry.id ≤ old.claimed →
    ∃ before : Entry, old.entries[key]? = some before ∧ before.id = entry.id ∧ before.offset =
    entry.offset ∧ before.len = entry.len ∧ (before.written = true → entry.written = true)

def SameBytes (old new : Table Nat WriteJob) (claimed : Nat) : Prop :=
  ∀ (id : Nat) (job : WriteJob), id ≤ claimed → new[id]? = some job →
    ∃ before : WriteJob, old[id]? = some before ∧ before.bytes = job.bytes

theorem TurnOk.follows {old new : Ring} {writes writes' : Table Nat WriteJob}
    {fetched : List (Key × Bytes)} (hring : old.Follows new)
    (hwrites : SameBytes writes writes' old.claimed) {key : Key} {turn : Turn}
    (h : TurnOk old writes fetched key turn) : TurnOk new writes' fetched key turn := by
  cases turn with
  | reading late entry =>
    obtain ⟨hid, hentry⟩ := h
    refine ⟨Nat.le_trans hid hring.claimed, fun e he heq => ?_⟩
    obtain ⟨bef, hbef, hid', hoff, hlen, hwr⟩ := hring.kept key e he (heq ▸ hid)
    obtain ⟨hoff', hlen', hwr'⟩ := hentry bef hbef (hid'.trans heq)
    exact ⟨hoff ▸ hoff', hlen ▸ hlen', hwr hwr'⟩
  | loaded late entry bytes =>
    obtain ⟨hid, hentry⟩ := h
    refine ⟨Nat.le_trans hid hring.claimed, fun e he heq job hjob => ?_⟩
    obtain ⟨bef, hbef, hid', -, -, -⟩ := hring.kept key e he (heq ▸ hid)
    obtain ⟨old, hold, hbytes⟩ := hwrites e.id job (heq ▸ hid) hjob
    rw [← hbytes]; exact hentry bef hbef (hid'.trans heq) old (hid' ▸ hold)
  | _ => exact h

namespace Ring

theorem Follows.refl (ring : Ring) : ring.Follows ring :=
  ⟨le_rfl, fun _ entry h _ => ⟨entry, h, rfl, rfl, rfl, fun h => h⟩⟩

theorem Laid.follows_claim {capacity : Nat} {ring : Ring} (h : Laid capacity ring) (key : Key)
    (len : Nat) : ring.Follows (ring.claim key len capacity).1 := by
  refine ⟨Nat.le_succ _, fun k entry hk hid => ?_⟩
  rcases (h.entries_claim key k entry).1 hk with ⟨-, rfl⟩ | ⟨-, hkept, -⟩
  · rw [claim_entry] at hid; exact absurd hid (Nat.not_succ_le_self _)
  · exact ⟨entry, hkept, rfl, rfl, rfl, fun h => h⟩

theorem follows_mark (ring : Ring) (key : Key) (id : Nat) (written : Bool) :
    ring.Follows (ring.mark key id written) := by
  obtain ⟨-, heq⟩ | ⟨entry, hkey, -, ⟨-, heq⟩ | ⟨-, heq⟩⟩ := mark_spec ring key id written
  · rw [heq]; exact .refl ring
  · rw [heq]
    refine ⟨le_rfl, fun k e hk _ => ?_⟩
    rw [get?_insert_ite] at hk
    split_ifs at hk with hkk
    · cases hk; exact ⟨entry, hkk ▸ hkey, rfl, rfl, rfl, fun _ => rfl⟩
    · exact ⟨e, hk, rfl, rfl, rfl, fun h => h⟩
  · rw [heq]
    refine ⟨(forget_head_claimed ring key).2.ge, fun k e hk _ => ?_⟩
    exact ⟨e, (entries_forget_eq_some.1 hk).2, rfl, rfl, rfl, fun h => h⟩

end Ring

namespace RangeCache

theorem length_readAt (file : Nat → UInt8) (off len : Nat) :
    (readAt file off len).length = len := by
  rw [readAt, length_map, length_range]

theorem readAt_writeAt_of_apart {file : Nat → UInt8} {off len start : Nat} {bytes : Bytes}
    (h : off + len ≤ start ∨ start + bytes.length ≤ off) :
    readAt (writeAt file start bytes) off len = readAt file off len := by
  refine map_congr_left fun _ hi => ?_
  have hlt := mem_range.1 hi; exact if_neg (by omega)

theorem readAt_writeAt (file : Nat → UInt8) (off : Nat) (bytes : Bytes) :
    readAt (writeAt file off bytes) off bytes.length = bytes := by
  apply ext_getElem
  · exact length_readAt ..
  · intro i _ hi'
    have hwrite : writeAt file off bytes (off + i) = bytes.getD (off + i - off) 0 :=
      if_pos ⟨Nat.le_add_right _ _, Nat.add_lt_add_left hi' _⟩
    simp only [readAt, getElem_map, getElem_range, hwrite, Nat.add_sub_cancel_left]
    rw [getD_eq_getElem?_getD, getElem?_eq_getElem hi', getD_some]

end RangeCache

namespace Sound

variable {capacity : Nat} {s : RangeCache}

theorem setCall (h : Sound capacity s) (c : Nat) {call : Call}
    (hcall : ∀ range ∈ call.ranges, TurnOk s.ring s.writes s.fetched range.1 range.2) :
    Sound capacity { s with calls := s.calls.insert c call } := by
  refine ⟨h.laid, h.claimed, h.origin, h.job, h.intact, h.puts, fun d call' hd => ?_⟩
  rw [get?_insert_ite] at hd
  split_ifs at hd
  · cases hd; exact hcall
  · exact h.turns d call' hd

theorem setFlights (h : Sound capacity s) (flights : Table Key Nat) (gates : Nat) :
    Sound capacity { s with flights := flights, gates := gates } :=
  ⟨h.laid, h.claimed, h.origin, h.job, h.intact, h.puts, h.turns⟩

theorem fetchMore (h : Sound capacity s) (more : List (Key × Bytes)) :
    Sound capacity { s with puts := s.puts ++ more, fetched := s.fetched ++ more } := by
  refine ⟨h.laid, h.claimed, ?_, h.job, h.intact, ?_, ?_⟩
  · exact fun id job hjob => mem_append_left _ (h.origin id job hjob)
  · intro range hrng
    rcases mem_append.1 hrng with hrng | hrng
    · exact mem_append_left _ (h.puts range hrng)
    · exact mem_append_right _ hrng
  · exact fun c call hc range hrng => (h.turns c call hc range hrng).fetched more

theorem erasePut (h : Sound capacity s) (n : Nat) :
    Sound capacity { s with puts := s.puts.eraseIdx n } :=
  ⟨h.laid, h.claimed, h.origin, h.job, h.intact,
    fun range hrng => h.puts range (mem_of_mem_eraseIdx hrng), h.turns⟩

theorem claimWrite (h : Sound capacity s) {key : Key} {bytes : Bytes}
    (hfetched : (key, bytes) ∈ s.fetched) (hlen : 0 < bytes.length) (hle : bytes.length ≤ capacity)
    (hcapac : capacity < u64Max) : Sound capacity (s.claimWrite capacity key bytes) := by
  have hclaim := h.laid.entries_claim key
  have hwrites (id : Nat) : (s.claimWrite capacity key bytes).writes[id]? =
      if id = s.ring.claimed + 1 then
        some ⟨key, (s.ring.claim key bytes.length capacity).2, bytes, .pending⟩
      else s.writes[id]? := get?_insert_ite _ _ _ _
  have hold {k : Key} {entry : Entry} (hk : s.ring.entries[k]? = some entry) :
      (s.claimWrite capacity key bytes).writes[entry.id]? = s.writes[entry.id]? := by
    have := h.laid.claimed k entry hk; rw [hwrites, if_neg (by omega)]
  have hnew : (s.claimWrite capacity key bytes).writes[(s.ring.claim key bytes.length capacity).2.id]? =
        some ⟨key, (s.ring.claim key bytes.length capacity).2, bytes, .pending⟩ :=
    getElem?_insert_self _ _ _
  refine ⟨h.laid.claim key hlen hle hcapac, ?_, ?_, ?_, ?_, h.puts, ?_⟩
  · intro id job hjob
    rw [hwrites] at hjob
    split_ifs at hjob with hid
    · cases hjob; exact ⟨hid.le, hid.symm⟩
    · obtain ⟨hle, heq⟩ := h.claimed id job hjob; exact ⟨Nat.le_succ_of_le hle, heq⟩
  · intro id job hjob
    rw [hwrites] at hjob
    split_ifs at hjob with hid
    · cases hjob; exact hfetched
    · exact h.origin id job hjob
  · intro k entry hk
    rcases (hclaim k entry).1 hk with ⟨rfl, rfl⟩ | ⟨-, hkept, -⟩
    · exact ⟨_, hnew, rfl, rfl, rfl, nofun, nofun⟩
    · rw [hold hkept]; exact h.job k entry hkept
  · intro k entry job hk hjob hlanded
    rcases (hclaim k entry).1 hk with ⟨rfl, rfl⟩ | ⟨-, hkept, -⟩
    · rw [hnew, some.injEq] at hjob
      subst hjob
      rcases hlanded with hlanded | hlanded <;> cases hlanded
    · rw [hold hkept] at hjob; exact h.intact k entry job hkept hjob hlanded
  · intro c call hc range hrng
    refine (h.turns c call hc range hrng).follows (h.laid.follows_claim key _) ?_
    intro id job hid hjob; rw [hwrites, if_neg (by omega)] at hjob; exact ⟨job, hjob, rfl⟩

variable {id : Nat} {job : WriteJob}

theorem sameBytes_insert {writes : Table Nat WriteJob} {claimed : Nat}
    (hjob : writes[id]? = some job) (phase : WritePhase) :
    SameBytes writes (writes.insert id { job with phase := phase }) claimed := by
  intro _ job' _ hjob'
  rw [get?_insert_ite] at hjob'
  split_ifs at hjob' with hi
  · cases hjob'; exact ⟨job, hi ▸ hjob, rfl⟩
  · exact ⟨job', hjob', rfl⟩

variable {written : Bool}

theorem land (h : Sound capacity s) {count : Nat} {s' : RangeCache}
    (hclear : Clear s (.land id written count)) (hstep : s.land id written count = some s') :
    Sound capacity s' := by
  unfold RangeCache.land at hstep
  split at hstep
  · cases hstep
  · rename_i job hjob
    split at hstep
    · rename_i hpend
      cases hstep
      set phase : WritePhase := if written then .landed else .failed with hphase
      set bytes : Bytes := if written then job.bytes else job.bytes.take count with hbytes
      have hlen : bytes.length ≤ job.bytes.length := by
        rw [hbytes]
        split_ifs
        · exact le_rfl
        · exact length_take_le' _ _
      have hunmarked : phase ≠ .marked := by
        rw [hphase]
        split_ifs <;> exact nofun
      have hwrites (i : Nat) : (s.writes.insert id { job with phase := phase })[i]? =
          if i = id then some { job with phase := phase } else s.writes[i]? :=
        get?_insert_ite _ _ _ _
      refine ⟨h.laid, ?_, ?_, ?_, ?_, h.puts, ?_⟩
      · intro i job' hjob'
        rw [hwrites] at hjob'
        split_ifs at hjob' with hi
        · cases hjob'; exact h.claimed i job (hi ▸ hjob)
        · exact h.claimed i job' hjob'
      · intro i job' hjob'
        rw [hwrites] at hjob'
        split_ifs at hjob' with hi
        · cases hjob'; exact h.origin i job (hi ▸ hjob)
        · exact h.origin i job' hjob'
      · intro key entry hk
        obtain ⟨job', hjob', hof⟩ := h.job key entry hk
        rw [hwrites]
        split_ifs with hi
        · rw [hi, hjob, some.injEq] at hjob'
          subst hjob'
          refine ⟨_, rfl, hof.key_eq, hof.offset_eq, hof.length_eq, ?_⟩
          have hunwritten : ¬ entry.written = true := by
            rw [← hof.marked, hpend]; exact nofun
          exact iff_of_false hunmarked hunwritten
        · exact ⟨job', hjob', hof⟩
      · intro key entry job' hk hjob' hlanded
        rw [hwrites] at hjob'
        split_ifs at hjob' with hi
        · cases hjob'
          obtain ⟨job', hjob', hof⟩ := h.job key entry hk
          rw [hi, hjob, some.injEq] at hjob'
          subst hjob'
          have hwr : written = true := by
            by_contra hfail
            rw [Bool.not_eq_true] at hfail
            rw [hphase, hfail] at hlanded
            rcases hlanded with hlanded | hlanded <;> cases hlanded
          rw [hbytes, if_pos hwr, ← hof.offset_eq, ← hof.length_eq]; exact readAt_writeAt ..
        · have hapart := hclear job hjob key entry job' hk hi hjob' hlanded
          rw [readAt_writeAt_of_apart]
          · exact h.intact key entry job' hk hjob' hlanded
          · unfold Entry.Apart at hapart
            dsimp only at hapart; omega
      · exact fun c call hc range hrng =>
          (h.turns c call hc range hrng).follows (.refl _) (sameBytes_insert hjob phase)
    · cases hstep

theorem setMarked (h : Sound capacity s) (hjob : s.writes[id]? = some job)
    (hphase : written = true → job.phase = .landed) : Sound capacity { s with
      ring := s.ring.mark job.key id written
      writes := s.writes.insert id { job with phase := .marked } } := by
  have hwrites (i : Nat) : (s.writes.insert id { job with phase := .marked })[i]? =
      if i = id then some { job with phase := .marked } else s.writes[i]? :=
    get?_insert_ite _ _ _ _
  have hfol := follows_mark s.ring job.key id written
  -- A kept entry of this id is the job's, and is now marked; the others were kept as they are.
  have hkept (key : Key) (entry : Entry) (hk : (s.ring.mark job.key id written).entries[key]? =
      some entry) : entry.id = id ∧ written = true ∧ entry.written =
      true ∧ (∃ before : Entry, s.ring.entries[key]? = some before ∧ before.id = id ∧ before.offset =
      entry.offset ∧ before.len = entry.len) ∨ entry.id ≠ id ∧ s.ring.entries[key]? = some entry := by
    obtain ⟨hnone, heq⟩ | ⟨e, hkey, hid, ⟨hw, heq⟩ | ⟨-, heq⟩⟩ :=
      mark_spec s.ring job.key id written
    · rw [heq] at hk
      refine .inr ⟨fun hid => ?_, hk⟩
      obtain ⟨job', hjob', hof⟩ := h.job key entry hk
      rw [hid, hjob, some.injEq] at hjob'
      subst hjob'; exact hnone entry (hof.key_eq ▸ hk) hid
    · rw [heq, get?_insert_ite] at hk
      split_ifs at hk with hkk
      · cases hk; exact .inl ⟨hid, hw, rfl, e, hkk ▸ hkey, hid, rfl, rfl⟩
      · refine .inr ⟨fun hid' => hkk ?_, hk⟩
        exact h.laid.unique _ _ _ _ hk hkey (hid'.trans hid.symm)
    · rw [heq, entries_forget_eq_some] at hk
      refine .inr ⟨fun hid' => hk.1 ?_, hk.2⟩
      exact h.laid.unique _ _ _ _ hk.2 hkey (hid'.trans hid.symm)
  refine ⟨h.laid.mark _ _ _, ?_, ?_, ?_, ?_, h.puts, ?_⟩
  · intro i job' hjob'
    rw [hwrites] at hjob'
    have hclm : i ≤ s.ring.claimed ∧ job'.entry.id = i := by
      split_ifs at hjob' with hi
      · cases hjob'; exact h.claimed i job (hi ▸ hjob)
      · exact h.claimed i job' hjob'
    exact ⟨Nat.le_trans hclm.1 hfol.claimed, hclm.2⟩
  · intro i job' hjob'
    rw [hwrites] at hjob'
    split_ifs at hjob' with hi
    · cases hjob'; exact h.origin i job (hi ▸ hjob)
    · exact h.origin i job' hjob'
  · intro key entry hk
    rw [hwrites]
    rcases hkept key entry hk with ⟨hid, -, hmarked, before, hbef, hid', hoff, hlen⟩ | ⟨hid, hsame⟩
    · obtain ⟨job', hjob', hof⟩ := h.job key before hbef
      rw [hid', hjob, some.injEq] at hjob'
      subst hjob'
      rw [if_pos hid]
      exact ⟨_, rfl, hof.key_eq, hof.offset_eq.trans hoff, hof.length_eq.trans hlen,
        iff_of_true rfl hmarked⟩
    · rw [if_neg hid]; exact h.job key entry hsame
  · intro key entry job' hk hjob' hlanded
    rw [hwrites] at hjob'
    rcases hkept key entry hk with ⟨hid, hw, -, before, hbef, hid', hoff, hlen⟩ | ⟨hid, hsame⟩
    · rw [if_pos hid, some.injEq] at hjob'
      subst hjob'
      rw [← hoff, ← hlen]; exact h.intact key before job hbef (hid' ▸ hjob) (.inl (hphase hw))
    · rw [if_neg hid] at hjob'; exact h.intact key entry job' hsame hjob' hlanded
  · exact fun c call hc range hrng =>
      (h.turns c call hc range hrng).follows hfol (sameBytes_insert hjob _)

theorem markWritten (h : Sound capacity s) {s' : RangeCache}
    (hstep : s.markWritten id = some s') : Sound capacity s' := by
  unfold RangeCache.markWritten at hstep
  split at hstep
  · cases hstep
  · rename_i job hjob
    split at hstep
    · rename_i hlanded; cases hstep; exact h.setMarked hjob fun _ => hlanded
    · cases hstep; exact h.setMarked hjob fun hfalse => absurd hfalse Bool.false_ne_true
    · cases hstep

theorem put (h : Sound capacity s) (hcapac : capacity < u64Max) {n : Nat} {s' : RangeCache}
    (hstep : s.put capacity n = some s') : Sound capacity s' := by
  unfold RangeCache.put at hstep
  split at hstep
  · cases hstep
  · rename_i key bytes hput
    extract_lets rest at hstep
    have hrest := h.erasePut n
    have hfetched := h.puts _ (mem_of_getElem? hput)
    split_ifs at hstep with hskip
    · rw [some.injEq] at hstep; exact hstep ▸ hrest
    · rw [not_or, not_or, Nat.not_lt] at hskip
      rw [some.injEq] at hstep
      rw [← hstep]; exact hrest.claimWrite hfetched (Nat.pos_of_ne_zero hskip.1) hskip.2.1 hcapac

end Sound

theorem exists_of_atTurn {s s' : RangeCache} {c i : Nat} {f : Key → Turn → Option (RangeCache × Turn)}
    (h : s.atTurn c i f = some s') : ∃ call key turn out, s.calls[c]? =
    some call ∧ call.ranges[i]? = some (key, turn) ∧ f key turn = some out ∧ s' = { out.1 with
        calls := out.1.calls.insert c { call with ranges := call.ranges.set i (key, out.2) } } := by
  unfold atTurn at h
  split at h
  · cases h
  · rename_i call hcall
    split at h
    · cases h
    · rename_i key turn hrng
      obtain ⟨out, hout, rfl⟩ := map_eq_some_iff.1 h
      exact ⟨call, key, turn, out, hcall, hrng, hout, rfl⟩

theorem exists_of_atCall {s s' : RangeCache} {c : Nat} {f : Call → Option (RangeCache × Call)}
    (h : s.atCall c f = some s') : ∃ call out, s.calls[c]? = some call ∧ call.alive = true ∧
      f call = some out ∧ s' = { out.1 with calls := out.1.calls.insert c out.2 } := by
  unfold atCall at h
  split at h
  · cases h
  · rename_i call hcall
    split_ifs at h with halive
    obtain ⟨out, hout, rfl⟩ := map_eq_some_iff.1 h; exact ⟨call, out, hcall, halive, hout, rfl⟩

def TurnSpec (capacity : Nat) (s : RangeCache) (key : Key) (out : RangeCache × Turn) : Prop :=
  Sound capacity out.1 ∧ out.1.calls = s.calls ∧
    TurnOk out.1.ring out.1.writes out.1.fetched key out.2

namespace Sound

variable {capacity : Nat} {s s' : RangeCache}

variable {c : Nat}

theorem atTurn {i : Nat} {f : Key → Turn → Option (RangeCache × Turn)}
    (hspec : ∀ (call : Call) (key : Key) (turn : Turn) (out : RangeCache × Turn), s.calls[c]? = some call → (key, turn) ∈ call.ranges → f key turn = some out → TurnSpec capacity s key out)
    (hstep : s.atTurn c i f = some s') : Sound capacity s' := by
  obtain ⟨call, key, turn, out, hcall, hrange, hout, rfl⟩ := exists_of_atTurn hstep
  obtain ⟨hsound, hcalls, hturn⟩ := hspec call key turn out hcall (mem_of_getElem? hrange) hout
  refine hsound.setCall c fun range hmem => ?_
  rcases mem_or_eq_of_mem_set hmem with hmem | rfl
  · exact hsound.turns c call (hcalls ▸ hcall) range hmem
  · exact hturn

theorem miss (late : Bool) (key : Key) : TurnOk s.ring s.writes s.fetched key (Turn.miss late) := by
  unfold Turn.miss
  split_ifs <;> exact trivial

variable {key : Key} {turn : Turn} {out : RangeCache × Turn}

theorem look (h : Sound capacity s)
    (hout : s.look key turn = some out) : TurnSpec capacity s key out := by
  unfold RangeCache.look at hout
  split at hout
  · rename_i late
    split at hout
    · rename_i entry hentry
      cases hout
      refine ⟨h, rfl, ?_⟩
      split_ifs with hwr
      · refine ⟨h.laid.claimed key entry hentry, fun _ he _ => ?_⟩
        rw [hentry, some.injEq] at he
        subst he; exact ⟨rfl, rfl, hwr⟩
      · exact miss late key
    · cases hout; exact ⟨h, rfl, miss late key⟩
  · cases hout

variable {call : Call}

theorem load (h : Sound capacity s) (hcall : s.calls[c]? = some call)
    (hmem : (key, turn) ∈ call.ranges) {read : Bool} (hout : s.load read turn = some out) :
    TurnSpec capacity s key out := by
  have hturn := h.turns c call hcall _ hmem
  unfold RangeCache.load at hout
  split at hout
  · rename_i late entry
    cases hout
    refine ⟨h, rfl, ?_⟩
    split_ifs with hread
    · obtain ⟨hid, hentry⟩ := hturn
      refine ⟨hid, fun e he heq job hjob => ?_⟩
      obtain ⟨hoff, hlen, hwr⟩ := hentry e he heq
      obtain ⟨_, hjob', hof⟩ := h.job key e he
      rw [hjob, some.injEq] at hjob'
      subst hjob'
      rw [← hoff, ← hlen]; exact (h.intact key e job he hjob (.inr (hof.marked.2 hwr))).symm
    · exact miss late key
  · cases hout

theorem confirm (h : Sound capacity s) (hcapac : capacity < u64Max)
    (hcall : s.calls[c]? = some call) (hmem : (key, turn) ∈ call.ranges)
    (hout : s.confirm capacity key turn = some out) : TurnSpec capacity s key out := by
  have hturn := h.turns c call hcall _ hmem
  unfold RangeCache.confirm at hout
  split at hout
  · rename_i late entry bytes
    by_cases hkept : (s.ring.entries[key]?).map Entry.id = some entry.id
    · rw [if_pos hkept] at hout
      obtain ⟨e, he, heq⟩ := map_eq_some_iff.1 hkept
      obtain ⟨job, hjob, hof⟩ := h.job key e he
      have hbytes := hturn.2 e he heq job hjob
      have hfetched : (key, bytes) ∈ s.fetched := by
        have := h.origin _ job hjob; rwa [hof.key_eq, hbytes] at this
      cases hout
      dsimp only [TurnSpec]
      split_ifs with hnear
      · obtain ⟨hpos, hwithin⟩ := h.laid.within key e he
        rw [← hof.length_eq, hbytes] at hpos hwithin
        exact ⟨h.claimWrite hfetched hpos (Nat.le_trans (Nat.le_add_left _ _) hwithin) hcapac, rfl,
          hfetched⟩
      · exact ⟨h, rfl, hfetched⟩
    · rw [if_neg hkept] at hout; cases hout; exact ⟨h, rfl, miss late key⟩
  · cases hout

theorem passGate (h : Sound capacity s)
 (hout : s.passGate call turn = some out) : TurnSpec capacity s key out := by
  unfold RangeCache.passGate at hout
  split at hout
  · split_ifs at hout
    cases hout; exact ⟨h, rfl, trivial⟩
  · cases hout

end Sound

def CallSpec (capacity : Nat) (s : RangeCache) (out : RangeCache × Call) : Prop :=
  Sound capacity out.1 ∧ out.1.calls = s.calls ∧
    ∀ range ∈ out.2.ranges, TurnOk out.1.ring out.1.writes out.1.fetched range.1 range.2

namespace RangeCache

variable {flights : Table Key Nat} {gates : Nat} {ranges : List (Key × Turn)}

variable {key : Key} {gate : Nat}

theorem fly_keeps (h : flights[key]? = some gate) :
    (fly flights gates ranges).2.1[key]? = some gate := by
  induction flights, gates, ranges using fly.induct with
  | case1 => exact h
  | case2 flights gates k rest g hflight ih =>
    simp only [fly, hflight]; exact ih h
  | case3 flights gates k rest hflight ih =>
    simp only [fly, hflight]
    apply ih
    rw [get?_insert_ite, if_neg, h]
    rintro rfl; rw [hflight] at h; cases h
  | case4 flights gates range rest hmiss ih =>
    rw [fly]
    · exact ih h
    · exact hmiss

theorem fly_adds (h : (fly flights gates ranges).2.1[key]? = some gate) :
    flights[key]? = some gate ∨ (key, fetching gate) ∈ (fly flights gates ranges).1 := by
  induction flights, gates, ranges using fly.induct with
  | case1 => exact .inl h
  | case2 flights gates k rest g hflight ih =>
    simp only [fly, hflight] at h ⊢; exact (ih h).imp_right (mem_cons_of_mem _)
  | case3 flights gates k rest hflight ih =>
    simp only [fly, hflight] at h ⊢
    rcases ih h with hold | hnew
    · rw [get?_insert_ite] at hold
      split_ifs at hold with hk
      · cases hold; exact .inr (hk ▸ mem_cons_self)
      · exact .inl hold
    · exact .inr (mem_cons_of_mem _ hnew)
  | case4 flights gates range rest hmiss ih =>
    rw [fly] at h ⊢
    · exact (ih h).imp_right (mem_cons_of_mem _)
    · exact hmiss
    · exact hmiss

variable {range : Key × Turn}

theorem mem_fly (h : range ∈ (fly flights gates ranges).1) : range ∈ ranges ∧ range.2 ≠ .missing ∨
      ∃ gate, (range.2 = .waiting gate ∨ range.2 = .fetching gate) ∧
        (fly flights gates ranges).2.1[range.1]? = some gate := by
  induction flights, gates, ranges using fly.induct with
  | case1 => cases h
  | case2 flights gates k rest g hflight ih =>
    simp only [fly, hflight] at h ⊢
    rcases mem_cons.1 h with rfl | h
    · exact .inr ⟨g, .inl rfl, fly_keeps hflight⟩
    · exact (ih h).imp_left fun hold => ⟨mem_cons_of_mem _ hold.1, hold.2⟩
  | case3 flights gates k rest hflight ih =>
    simp only [fly, hflight] at h ⊢
    rcases mem_cons.1 h with rfl | h
    · exact .inr ⟨gates, .inr rfl, fly_keeps (getElem?_insert_self _ _ _)⟩
    · exact (ih h).imp_left fun hold => ⟨mem_cons_of_mem _ hold.1, hold.2⟩
  | case4 flights gates other rest hmiss ih =>
    rw [fly] at h ⊢
    · rcases mem_cons.1 h with rfl | h
      · refine .inl ⟨mem_cons_self, fun hrng => ?_⟩
        exact hmiss range.1 (Prod.ext rfl hrng)
      · exact (ih h).imp_left fun hold => ⟨mem_cons_of_mem _ hold.1, hold.2⟩
    · exact hmiss
    · exact hmiss

variable {takes : Turn → Option (Bytes → Turn)} {results : List Bytes}

theorem mem_deliver (h : range ∈ (deliver takes ranges results).1) :
    range ∈ ranges ∨ ∃ turn next bytes, takes turn = some next ∧ range.2 = next bytes ∧
      (range.1, bytes) ∈ (deliver takes ranges results).2 := by
  induction ranges, results using deliver.induct takes with
  | case1 => cases h
  | case2 key turn rest next bytes results htakes ih =>
    simp only [deliver, htakes] at h ⊢
    rcases mem_cons.1 h with rfl | h
    · exact .inr ⟨turn, next, bytes, htakes, rfl, mem_cons_self⟩
    · rcases ih h with hold | ⟨turn', next', bytes', ht, hn, hmem⟩
      · exact .inl (mem_cons_of_mem _ hold)
      · exact .inr ⟨turn', next', bytes', ht, hn, mem_cons_of_mem _ hmem⟩
  | case3 key turn rest results hnone ih =>
    rw [deliver] at h ⊢
    · rcases mem_cons.1 h with rfl | h
      · exact .inl mem_cons_self
      · exact (ih h).imp_left (mem_cons_of_mem _)
    · exact hnone
    · exact hnone

theorem held_deliver (htakes : ∀ turn next bytes, takes turn = some next → (next bytes).held =
    turn.held) {turn : Turn} (h : (key, turn) ∈ ranges) (hheld : turn.held = some gate) :
    ∃ turn', (key, turn') ∈ (deliver takes ranges results).1 ∧ turn'.held = some gate := by
  induction ranges, results using deliver.induct takes with
  | case1 => cases h
  | case2 k t rest next bytes results ht ih =>
    simp only [deliver, ht]
    rcases mem_cons.1 h with heq | h
    · cases heq; exact ⟨_, mem_cons_self, (htakes _ _ bytes ht).trans hheld⟩
    · obtain ⟨turn', hmem, hheld'⟩ := ih h; exact ⟨turn', mem_cons_of_mem _ hmem, hheld'⟩
  | case3 k t rest results hnone ih =>
    rw [deliver]
    · rcases mem_cons.1 h with heq | h
      · cases heq; exact ⟨_, mem_cons_self, hheld⟩
      · obtain ⟨turn', hmem, hheld'⟩ := ih h; exact ⟨turn', mem_cons_of_mem _ hmem, hheld'⟩
    · exact hnone

theorem dropFlights_apply {flights : Table Key Nat}
    (h : (ranges.foldl dropFlight flights)[key]? = some gate) :
    flights[key]? = some gate ∧ ∀ turn, (key, turn) ∈ ranges → turn.held ≠ some gate := by
  induction ranges generalizing flights with
  | nil => exact ⟨h, nofun⟩
  | cons range ranges ih =>
    obtain ⟨hold, hnone⟩ := ih h
    have hkept : flights[key]? = some gate ∧ (range.1 = key → range.2.held ≠ some gate) := by
      unfold dropFlight at hold
      split at hold
      · rename_i hheld; exact ⟨hold, fun _ => by rw [hheld]; exact nofun⟩
      · rename_i g hheld
        split_ifs at hold with hflight
        · rw [get?_erase_ite] at hold
          split_ifs at hold with hk
          exact ⟨hold, fun heq => absurd heq.symm hk⟩
        · refine ⟨hold, fun heq hgate => hflight ?_⟩
          rw [hheld, some.injEq] at hgate; rw [heq, hold, hgate]
    refine ⟨hkept.1, fun turn hmem => ?_⟩
    rcases mem_cons.1 hmem with heq | hmem
    · subst heq; exact hkept.2 rfl
    · exact hnone turn hmem

end RangeCache

namespace Sound

variable {capacity : Nat} {s s' : RangeCache}

variable {c : Nat}

theorem atCall {f : Call → Option (RangeCache × Call)}
    (hspec : ∀ (call : Call) (out : RangeCache × Call), s.calls[c]? = some call → f call =
    some out → CallSpec capacity s out) (hstep : s.atCall c f = some s') : Sound capacity s' := by
  obtain ⟨call, out, hcall, -, hout, rfl⟩ := exists_of_atCall hstep
  obtain ⟨hsound, -, hturns⟩ := hspec call out hcall hout; exact hsound.setCall c hturns

variable {call : Call} {out : RangeCache × Call}

section

variable (h : Sound capacity s) (hcall : s.calls[c]? = some call)

include h hcall

theorem flyCall (hout : s.flyCall call = some out) : CallSpec capacity s out := by
  unfold RangeCache.flyCall at hout
  split_ifs at hout
  cases hout
  refine ⟨h.setFlights _ _, rfl, fun range hrng => ?_⟩
  rcases mem_fly hrng with ⟨hold, -⟩ | ⟨_, heq | heq, -⟩
  · exact h.turns c call hcall range hold
  · rw [heq]; exact trivial
  · rw [heq]; exact trivial

theorem fetch {takes : Turn → Option (Bytes → Turn)} {results : List Bytes}
    (htakes : ∀ turn next bytes key fetched, takes turn = some next → (key, bytes) ∈ fetched →
      ∀ ring writes, TurnOk ring writes fetched key (next bytes))
 (hout : s.fetch takes results call = some out) : CallSpec capacity s out := by
  unfold RangeCache.fetch at hout
  split_ifs at hout
  cases hout
  refine ⟨h.fetchMore _, rfl, fun range hrng => ?_⟩
  rcases mem_deliver hrng with hold | ⟨turn, next, bytes, ht, hnext, hmem⟩
  · exact (h.turns c call hcall range hold).fetched _
  · rw [hnext]; exact htakes turn next bytes _ _ ht (mem_append_right _ hmem) _ _

theorem dropFlights (alive : Bool) : CallSpec capacity s (s.dropFlights call alive) := by
  refine ⟨h.setFlights _ s.gates, rfl, fun _ hrng => ?_⟩
  obtain ⟨⟨_, turn⟩, hmem, rfl⟩ := mem_map.1 hrng
  have hturn := h.turns c call hcall _ hmem
  cases turn <;> exact hturn

end

theorem firstFetch_ok (turn : Turn) (next : Bytes → Turn) (bytes : Bytes) (key : Key)
    (fetched : List (Key × Bytes)) (h : turn.firstFetch = some next) (hmem : (key, bytes) ∈ fetched)
    (ring : Ring) (writes : Table Nat WriteJob) : TurnOk ring writes fetched key (next bytes) := by
  cases turn <;> cases h; exact hmem

theorem lateFetch_ok (turn : Turn) (next : Bytes → Turn) (bytes : Bytes) (key : Key)
    (fetched : List (Key × Bytes)) (h : turn.lateFetch = some next) (hmem : (key, bytes) ∈ fetched)
    (ring : Ring) (writes : Table Nat WriteJob) : TurnOk ring writes fetched key (next bytes) := by
  cases turn <;> cases h; exact hmem

theorem step (h : Sound capacity s) (hcapac : capacity < u64Max) {a : Action} (hclear : Clear s a)
    (hstep : s.step capacity a = some s') : Sound capacity s' := by
  cases a with
  | start c keys =>
    simp only [RangeCache.step] at hstep
    split_ifs at hstep
    rw [some.injEq] at hstep
    rw [← hstep]
    refine h.setCall c fun _ hrng => ?_
    obtain ⟨_, -, rfl⟩ := mem_map.1 hrng; exact trivial
  | look c i => exact atTurn (fun _ _ _ _ _ _ hout => h.look hout) hstep
  | load c i read => exact atTurn (fun _ _ _ _ hcall hmem hout => h.load hcall hmem hout) hstep
  | confirm c i =>
    exact atTurn (fun _ _ _ _ hcall hmem hout => h.confirm hcapac hcall hmem hout) hstep
  | fly c => exact atCall (fun _ _ hcall hout => h.flyCall hcall hout) hstep
  | fetched c results =>
    exact atCall (fun _ _ hcall hout => h.fetch hcall firstFetch_ok hout) hstep
  | release c =>
    refine atCall (fun call out hcall hout => ?_) hstep
    unfold releaseCall at hout
    split_ifs at hout
    cases hout; exact h.dropFlights hcall true
  | pass c i =>
    refine atTurn (fun _ _ _ _ _ _ hout => ?_) hstep
    obtain ⟨_, -, hout⟩ := bind_eq_some_iff.1 hout; exact h.passGate hout
  | refetched c results =>
    refine atCall (fun call out hcall hout => ?_) hstep
    split_ifs at hout
    exact h.fetch hcall lateFetch_ok hout
  | stop c =>
    refine atCall (fun call out hcall hout => ?_) hstep
    cases hout; exact h.dropFlights hcall false
  | put n => exact h.put hcapac hstep
  | land id written count => exact h.land hclear hstep
  | mark id => exact h.markWritten hstep

end Sound

end Leani.Aws
