import Leani.Aws.KeptBytes

/-!
# What readers are served

A claim forgets the entries it overlaps while their writes may still be under way. Such a write, landing
after the newer entry was written, puts other bytes under it (`late_write_serves_others`). While no write
lands on another kept entry whose bytes have landed, every range read is what a fetch returned for it
(`run_serves_fetched`). A flight is left in the table only while its fetcher holds it, so a caller never
waits for one that ended.
-/

namespace Leani.Aws

open Library Std List Option Table Prod RangeCache Turn

def Call.Holds (call : Call) (key : Key) (gate : Nat) : Prop :=
  call.alive = true ∧ ∃ turn, (key, turn) ∈ call.ranges ∧ turn.held = some gate

def FlightsHeld (s : RangeCache) : Prop :=
  ∀ (key : Key) (gate : Nat), s.flights[key]? = some gate →
    ∃ (c : Nat) (call : Call), s.calls[c]? = some call ∧ call.Holds key gate

namespace FlightsHeld

variable {capacity : Nat} {s s' : RangeCache}

theorem empty : FlightsHeld .empty := fun _ _ h => (not_mem_empty h).elim

theorem of_same (h : FlightsHeld s) (hflights : s'.flights = s.flights) (hcalls : s'.calls = s.calls) :
    FlightsHeld s' := by
  intro key gate hflight
  rw [hflights] at hflight; rw [hcalls]; exact h key gate hflight

variable {c : Nat} {call : Call}

theorem setCall (h : FlightsHeld s) {t : RangeCache} {call' : Call} (hcalls : t.calls = s.calls)
    (hcall : s.calls[c]? = some call) (hkeep : ∀ (key : Key) (gate : Nat), t.flights[key]? =
    some gate → s.flights[key]? = some gate ∧ (call.Holds key gate → call'.Holds key gate) ∨
    call'.Holds key gate) : FlightsHeld { t with calls := t.calls.insert c call' } := by
  intro key gate hflight
  have hself : (t.calls.insert c call')[c]? = some call' := getElem?_insert_self _ _ _
  rcases hkeep key gate hflight with ⟨hold, hstill⟩ | hnew
  · obtain ⟨d, other, hd, hholds⟩ := h key gate hold
    by_cases hdc : d = c
    · subst hdc
      rw [hcall, some.injEq] at hd
      subst hd; exact ⟨d, call', hself, hstill hholds⟩
    · refine ⟨d, other, ?_, hholds⟩
      rw [get?_insert_ite, if_neg hdc, hcalls, hd]
  · exact ⟨c, call', hself, hnew⟩

variable {turn : Turn}

theorem held_of_looked (h : turn.looked = true) : turn.held = none := by
  cases turn with
  | missing => rfl
  | found => rfl
  | _ => cases h

theorem atTurn (h : FlightsHeld s) {i : Nat} {f : Key → Turn → Option (RangeCache × Turn)}
    (hspec : ∀ (key : Key) (turn : Turn) (out : RangeCache × Turn), f key turn = some out →
      turn.held = none ∧ out.1.flights = s.flights ∧ out.1.calls = s.calls)
    (hstep : s.atTurn c i f = some s') : FlightsHeld s' := by
  obtain ⟨_, key, turn, out, hcall, hrange, hout, rfl⟩ := exists_of_atTurn hstep
  obtain ⟨hnone, hflights, hcalls⟩ := hspec key turn out hout
  refine h.setCall hcalls hcall fun _ _ hflight => ?_
  rw [hflights] at hflight
  refine .inl ⟨hflight, fun hholds => ⟨hholds.1, ?_⟩⟩
  obtain ⟨turn', hmem, hheld⟩ := hholds.2
  obtain ⟨j, hj⟩ := mem_iff_getElem?.1 hmem
  refine ⟨turn', mem_iff_getElem?.2 ⟨j, ?_⟩, hheld⟩
  rw [getElem?_set_ne, hj]
  rintro rfl
  rw [hrange, some.injEq, Prod.mk.injEq] at hj; rw [← hj.2, hnone] at hheld; cases hheld

theorem dropFlights (h : FlightsHeld s) (hcall : s.calls[c]? = some call)
    (alive : Bool) : FlightsHeld { (s.dropFlights call alive).1 with
      calls := (s.dropFlights call alive).1.calls.insert c (s.dropFlights call alive).2 } := by
  refine h.setCall (t := (s.dropFlights call alive).1) rfl hcall fun _ _ hflight => ?_
  obtain ⟨hold, hnone⟩ := dropFlights_apply hflight
  refine .inl ⟨hold, fun hholds => ?_⟩
  obtain ⟨turn, hmem, hheld⟩ := hholds.2; exact absurd hheld (hnone turn hmem)

theorem fetch (h : FlightsHeld s) (hcall : s.calls[c]? = some call)
    {takes : Turn → Option (Bytes → Turn)} {results : List Bytes}
    (htakes : ∀ turn next bytes, takes turn = some next → (next bytes).held = turn.held)
    {out : RangeCache × Call} (hout : s.fetch takes results call = some out) :
    FlightsHeld { out.1 with calls := out.1.calls.insert c out.2 } := by
  unfold RangeCache.fetch at hout
  split_ifs at hout
  cases hout
  refine h.setCall (t := { s with puts := _, fetched := _ }) rfl hcall fun _ _ hflight => ?_
  refine .inl ⟨hflight, fun hholds => ⟨hholds.1, ?_⟩⟩
  obtain ⟨turn, hmem, hheld⟩ := hholds.2; exact held_deliver htakes hmem hheld

theorem firstFetch_held (turn : Turn) (next : Bytes → Turn) (bytes : Bytes)
    (h : turn.firstFetch = some next) : (next bytes).held = turn.held := by
  cases turn <;> cases h; rfl

theorem lateFetch_held (turn : Turn) (next : Bytes → Turn) (bytes : Bytes)
    (h : turn.lateFetch = some next) : (next bytes).held = turn.held := by
  cases turn <;> cases h; rfl

theorem fly (h : FlightsHeld s) (hcall : s.calls[c]? = some call)
    (halive : call.alive = true) {out : RangeCache × Call} (hout : s.flyCall call = some out) :
    FlightsHeld { out.1 with calls := out.1.calls.insert c out.2 } := by
  unfold flyCall at hout
  split_ifs at hout with hlooked
  cases hout
  refine h.setCall (t := { s with flights := _, gates := _ }) rfl hcall fun _ _ hflight => ?_
  rcases fly_adds hflight with hold | hnew
  · refine .inl ⟨hold, fun hholds => ?_⟩
    obtain ⟨_, hmem, hheld⟩ := hholds.2
    rw [held_of_looked (all_eq_true.1 hlooked _ hmem)] at hheld; cases hheld
  · exact .inr ⟨halive, _, hnew, rfl⟩

variable {out : RangeCache × Turn}

theorem look_held {key : Key} (hout : s.look key turn = some out) :
    turn.held = none ∧ out.1.flights = s.flights ∧ out.1.calls = s.calls := by
  unfold look at hout
  split at hout
  · split at hout
    · cases hout; exact ⟨rfl, rfl, rfl⟩
    · cases hout; exact ⟨rfl, rfl, rfl⟩
  · cases hout

theorem load_held {read : Bool} (hout : s.load read turn = some out) :
    turn.held = none ∧ out.1.flights = s.flights ∧ out.1.calls = s.calls := by
  unfold load at hout
  split at hout
  · cases hout; exact ⟨rfl, rfl, rfl⟩
  · cases hout

theorem confirm_held {key : Key} (hout : s.confirm capacity key turn = some out) :
    turn.held = none ∧ out.1.flights = s.flights ∧ out.1.calls = s.calls := by
  unfold confirm at hout
  split at hout
  · by_cases hkept : (s.ring.entries[key]?).map Entry.id = some (‹Entry› : Entry).id
    · rw [if_pos hkept] at hout
      cases hout
      split <;> exact ⟨rfl, rfl, rfl⟩
    · rw [if_neg hkept] at hout; cases hout; exact ⟨rfl, rfl, rfl⟩
  · cases hout

theorem pass_held (hout : s.passGate call turn = some out) :
    turn.held = none ∧ out.1.flights = s.flights ∧ out.1.calls = s.calls := by
  unfold passGate at hout
  split at hout
  · split_ifs at hout
    cases hout; exact ⟨rfl, rfl, rfl⟩
  · cases hout

theorem put_same {n : Nat} (hstep : s.put capacity n = some s') :
    s'.flights = s.flights ∧ s'.calls = s.calls := by
  unfold put at hstep
  split at hstep
  · cases hstep
  · extract_lets rest at hstep
    split_ifs at hstep
    · rw [← some.inj hstep]; exact ⟨rfl, rfl⟩
    · rw [← some.inj hstep]; exact ⟨rfl, rfl⟩

theorem land_same {id count : Nat} {written : Bool} (hstep : s.land id written count = some s') :
    s'.flights = s.flights ∧ s'.calls = s.calls := by
  unfold land at hstep
  split at hstep
  · cases hstep
  · split at hstep
    · rw [← some.inj hstep]; exact ⟨rfl, rfl⟩
    · cases hstep

theorem mark_same {id : Nat} (hstep : s.markWritten id = some s') :
    s'.flights = s.flights ∧ s'.calls = s.calls := by
  unfold markWritten at hstep
  split at hstep
  · cases hstep
  · split at hstep
    · rw [← some.inj hstep]; exact ⟨rfl, rfl⟩
    · rw [← some.inj hstep]; exact ⟨rfl, rfl⟩
    · cases hstep

theorem step (h : FlightsHeld s) {a : Action} (hstep : s.step capacity a = some s') :
    FlightsHeld s' := by
  cases a with
  | start c keys =>
    simp only [RangeCache.step] at hstep
    split_ifs at hstep with hnew
    rw [← some.inj hstep]
    intro key gate hflight
    obtain ⟨d, call, hd, hholds⟩ := h key gate hflight
    refine ⟨d, call, ?_, hholds⟩
    rw [get?_insert_ite, if_neg, hd]
    rintro rfl; exact hnew (mem_of_getElem? hd)
  | look c i => exact h.atTurn (fun _ _ _ hout => look_held hout) hstep
  | load c i read => exact h.atTurn (fun _ _ _ hout => load_held hout) hstep
  | confirm c i => exact h.atTurn (fun _ _ _ hout => confirm_held hout) hstep
  | fly c =>
    obtain ⟨call, out, hcall, halive, hout, rfl⟩ := exists_of_atCall hstep
    exact h.fly hcall halive hout
  | fetched c results =>
    obtain ⟨call, out, hcall, -, hout, rfl⟩ := exists_of_atCall hstep
    exact h.fetch hcall firstFetch_held hout
  | release c =>
    obtain ⟨call, out, hcall, -, hout, rfl⟩ := exists_of_atCall hstep
    unfold releaseCall at hout
    split_ifs at hout
    cases hout; exact h.dropFlights hcall true
  | pass c i =>
    refine h.atTurn (fun _ _ _ hout => ?_) hstep
    obtain ⟨_, -, hout⟩ := bind_eq_some_iff.1 hout; exact pass_held hout
  | refetched c results =>
    obtain ⟨call, out, hcall, -, hout, rfl⟩ := exists_of_atCall hstep
    split_ifs at hout
    exact h.fetch hcall lateFetch_held hout
  | stop c =>
    obtain ⟨call, out, hcall, -, hout, rfl⟩ := exists_of_atCall hstep
    cases hout; exact h.dropFlights hcall false
  | put n =>
    obtain ⟨hflights, hcalls⟩ := put_same hstep; exact h.of_same hflights hcalls
  | land id written count =>
    obtain ⟨hflights, hcalls⟩ := land_same hstep; exact h.of_same hflights hcalls
  | mark id =>
    obtain ⟨hflights, hcalls⟩ := mark_same hstep; exact h.of_same hflights hcalls

end FlightsHeld

inductive Run (capacity : Nat) (allowed : RangeCache → Action → Prop) : RangeCache → Prop where
  | start : Run capacity allowed .empty
  | step {s s' : RangeCache} {a : Action} : Run capacity allowed s → allowed s a →
      s.step capacity a = some s' → Run capacity allowed s'

variable {capacity : Nat} {s : RangeCache}

theorem Run.sound (hcapac : capacity < u64Max) (h : Run capacity Clear s) : Sound capacity s := by
  induction h with
  | start => exact .empty capacity
  | step _ hclear hstep ih => exact ih.step hcapac hclear hstep

theorem Run.flightsHeld {allowed : RangeCache → Action → Prop} (h : Run capacity allowed s) :
    FlightsHeld s := by
  induction h with
  | start => exact .empty
  | step _ _ hstep ih => exact ih.step hstep

variable {call : Call} {gate : Nat}

variable {c : Nat}

theorem isHeld_of_holds {key : Key} (hcall : s.calls[c]? = some call) (h : call.Holds key gate) :
    s.isHeld gate = true := by
  obtain ⟨_, hmem, hheld⟩ := h.2
  exact any_eq_true.2 ⟨(c, call), mem_toList.2 hcall, any_eq_true.2 ⟨_, hmem, decide_eq_true hheld⟩⟩

theorem fetches_or_waits {s' : RangeCache} (h : FlightsHeld s)
    (hstep : s.step capacity (.fly c) = some s') : ∃ call : Call, s'.calls[c]? = some call ∧
      ∀ range ∈ call.ranges, (∃ bytes, range.2 = .found bytes) ∨ (∃ gate, range.2 = .fetching gate) ∨
        ∃ gate, range.2 = .waiting gate ∧ s'.isHeld gate = true := by
  have hheld := h.step hstep
  obtain ⟨call, out, _, -, hout, rfl⟩ := exists_of_atCall hstep
  refine ⟨out.2, getElem?_insert_self _ _ _, fun range hrng => ?_⟩
  unfold flyCall at hout
  split_ifs at hout with hlooked
  cases hout
  rcases mem_fly hrng with ⟨hold, hmiss⟩ | ⟨gate, heq | heq, hflight⟩
  · have hover := all_eq_true.1 hlooked _ hold
    refine .inl ?_
    cases hturn : range.2 with
    | found bytes => exact ⟨bytes, rfl⟩
    | missing => exact absurd hturn hmiss
    | _ =>
      rw [hturn] at hover; cases hover
  · obtain ⟨_, _, hother, hholds⟩ := hheld _ _ hflight
    exact .inr (.inr ⟨gate, heq, isHeld_of_holds hother hholds⟩)
  · exact .inr (.inl ⟨gate, heq⟩)

theorem waiting_goes_on {i : Nat} {key : Key} (hcall : s.calls[c]? = some call) (halive : call.alive =
    true) (hrng : call.ranges[i]? = some (key, .waiting gate)) (hown : ∀ range ∈ call.ranges,
    range.2.held = none) : s.isHeld gate = true ∨ ∃ s', s.step capacity (.pass c i) = some s' := by
  cases hheld : s.isHeld gate with
  | true => exact .inl rfl
  | false =>
    right
    have hpass : s.passGate call (.waiting gate) = some (s, .looking true) := by
      refine if_pos ⟨halive, all_eq_true.2 fun range hmem => ?_, ?_⟩
      · exact decide_eq_true (hown range hmem)
      · rw [hheld]; exact Bool.false_ne_true
    apply isSome_iff_exists.1
    simp only [step, atTurn, hcall, hrng, bind_some, hpass, map_some, isSome_some]

/-- While no write lands on another kept entry whose bytes have landed: a range read is what a fetch
returned for it, entries are apart, within the capacity and named by where they start, and a flight in
the table is held, so that a caller finds a range, fetches it, or waits for one that does. -/
theorem run_serves_fetched {capacity : Nat} (hcapacity : capacity < u64Max) {s : RangeCache}
    (h : Run capacity Clear s) :
    (∀ (c : Nat) (call : Call) (key : Key) (bytes : Bytes), s.calls[c]? = some call →
      (key, .found bytes) ∈ call.ranges → (key, bytes) ∈ s.fetched) ∧
    s.ring.Laid capacity ∧ FlightsHeld s ∧
    (∀ (c : Nat) (s' : RangeCache), s.step capacity (.fly c) = some s' →
      ∃ call : Call, s'.calls[c]? = some call ∧ ∀ range ∈ call.ranges,
        (∃ bytes, range.2 = .found bytes) ∨ (∃ gate, range.2 = .fetching gate) ∨
          ∃ gate, range.2 = .waiting gate ∧ s'.isHeld gate = true) ∧
    ∀ (c i : Nat) (call : Call) (key : Key) (gate : Nat), s.calls[c]? = some call →
      call.alive = true → call.ranges[i]? = some (key, .waiting gate) →
        (∀ range ∈ call.ranges, range.2.held = none) →
          s.isHeld gate = true ∨ ∃ s', s.step capacity (.pass c i) = some s' := by
  have hsound := h.sound hcapacity
  have hheld := h.flightsHeld
  refine ⟨?_, hsound.laid, hheld, ?_, ?_⟩
  · exact fun c call key bytes hcall hmem => hsound.turns c call hcall _ hmem
  · exact fun c s' hstep => fetches_or_waits hheld hstep
  · exact fun c i call key gate hcall halive hrange hown => waiting_goes_on hcall halive hrange hown

def runAll (capacity : Nat) : RangeCache → List Action → Option RangeCache
  | s, [] => some s
  | s, a :: as => (s.step capacity a).bind fun s' => runAll capacity s' as

variable {as : List Action}

theorem run_of_runAll : ∀ {s s' : RangeCache}, Run capacity (fun _ _ => True)
    s → runAll capacity s as = some s' → Run capacity (fun _ _ => True) s' := by
  induction as with
  | nil =>
    intro s s' h hrun; cases hrun; exact h
  | cons a as ih =>
    intro s s' h hrun
    obtain ⟨_, hstep, hrest⟩ := bind_eq_some_iff.1 hrun; exact ih (h.step trivial hstep) hrest

def footer : Key := ("day", 8, 0, 1)

def index : Key := ("day", 8, 1, 2)

def lateWrite : List Action :=
  [.start 0 [footer], .look 0 0, .fly 0, .fetched 0 [[1]], .put 0,
    .start 1 [index], .look 1 0, .fly 1, .fetched 1 [[2]], .put 0, .land 2 true 0, .mark 2,
    .land 1 true 0, .mark 1, .start 2 [index], .look 2 0, .load 2 0 true, .confirm 2 0]

/-- The index is read as the footer's byte. -/
theorem late_write_serves_others : ∃ s call, Run 1 (fun _ _ => True) s ∧ s.calls[2]? = some call ∧
    (index, Turn.found [1]) ∈ call.ranges ∧ (index, [1]) ∉ s.fetched := by
  have hfetched : (runAll 1 .empty lateWrite).map fetched =
      some [(footer, [1]), (index, [2])] := by decide +kernel
  have hread : ((runAll 1 .empty lateWrite).bind fun s => s.calls[2]?).map Call.ranges =
      some [(index, found [1])] := by decide +kernel
  obtain ⟨s, hs, heq⟩ := map_eq_some_iff.1 hfetched
  rw [hs, bind_some] at hread
  obtain ⟨call, hcall, hranges⟩ := map_eq_some_iff.1 hread
  refine ⟨s, call, run_of_runAll .start hs, hcall, ?_, ?_⟩
  · rw [hranges]; exact mem_cons_self
  · rw [heq]; decide

theorem runAll_append {bs : List Action} : ∀ {s : RangeCache},
    runAll capacity s (as ++ bs) = (runAll capacity s as).bind fun t => runAll capacity t bs := by
  induction as with
  | nil => exact rfl
  | cons a as ih =>
    intro s
    rw [cons_append, runAll, runAll]
    cases s.step capacity a with
    | none => rfl
    | some t => exact ih

theorem run_of_quiet (hquiet : ∀ a ∈ as, ∀ s, Clear s a) : ∀ {s s' : RangeCache},
      Run capacity Clear s → runAll capacity s as = some s' → Run capacity Clear s' := by
  induction as with
  | nil =>
    intro s s' h hrun; cases hrun; exact h
  | cons a as ih =>
    intro s s' h hrun
    obtain ⟨_, hstep, hrest⟩ := bind_eq_some_iff.1 hrun
    obtain ⟨ha, has⟩ := forall_mem_cons.1 hquiet; exact ih has (h.step (ha s) hstep) hrest

theorem clear_of_only {id : Nat} (h : s.writes.toList.map fst = [id]) (written : Bool)
    (count : Nat) : Clear s (.land id written count) := by
  intro _ _ _ entry other _ hne hother _
  have hmem : entry.id ∈ s.writes.toList.map fst :=
    mem_map.2 ⟨(entry.id, other), mem_toList.2 hother, rfl⟩
  rw [h, mem_singleton] at hmem; exact absurd hmem hne

def fetchAndClaim : List Action :=
  [.start 0 [footer], .look 0 0, .fly 0, .fetched 0 [[1]], .put 0]

def markAndRead : List Action :=
  [.mark 1, .start 1 [footer], .look 1 0, .load 1 0 true, .confirm 1 0]

/-- A range that was kept is read as it was fetched. -/
theorem kept_range_served : ∃ s call, Run 1 Clear s ∧ s.calls[1]? = some call ∧
    (footer, Turn.found [1]) ∈ call.ranges ∧ (footer, [1]) ∈ s.fetched := by
  have hwrites : (runAll 1 .empty fetchAndClaim).map (fun s => s.writes.toList.map fst) =
      some [1] := by decide +kernel
  have hread : ((runAll 1 .empty (fetchAndClaim ++ .land 1 true 0 :: markAndRead)).bind fun s =>
      s.calls[1]?).map Call.ranges = some [(footer, found [1])] := by decide +kernel
  obtain ⟨s, hs, hids⟩ := map_eq_some_iff.1 hwrites
  obtain ⟨call, hcall, hranges⟩ := map_eq_some_iff.1 hread
  obtain ⟨u, hu, hcall⟩ := bind_eq_some_iff.1 hcall
  rw [runAll_append, hs, bind_some] at hu
  obtain ⟨_, hland, hrest⟩ := bind_eq_some_iff.1 hu
  have hfirst : ∀ a ∈ fetchAndClaim, ∀ s, Clear s a := by
    simp only [fetchAndClaim, forall_mem_cons, Clear]
    exact ⟨fun _ => trivial, fun _ => trivial, fun _ => trivial, fun _ => trivial, fun _ => trivial,
      nofun⟩
  have hlast : ∀ a ∈ markAndRead, ∀ s, Clear s a := by
    simp only [markAndRead, forall_mem_cons, Clear]
    exact ⟨fun _ => trivial, fun _ => trivial, fun _ => trivial, fun _ => trivial, fun _ => trivial,
      nofun⟩
  have hrun := run_of_quiet hlast ((run_of_quiet hfirst .start hs).step (clear_of_only hids _ _) hland) hrest
  have hmem : (footer, found [1]) ∈ call.ranges := by
    rw [hranges]; exact mem_cons_self
  exact ⟨u, call, hrun, hcall, hmem,
    (run_serves_fetched (by decide) hrun).1 1 call footer [1] hcall hmem⟩

end Leani.Aws
